import Zeronix.Lib.SortedMap
import Mathlib.Data.String.Basic

/-!
# The file system in memory

`src/fs/ramfs.rs`: a tree of files and directories, a directory being a `BTreeMap` from
names to nodes, modelled by the sorted list of its entries.  An operation answers with a
result and the tree it leaves behind, on the error paths too.

`dir_mut` of the source lends out the entries of one directory for the caller to change.
Here `Node.dirMut` takes what the caller does with them as a function `f`, which answers
and returns the entries it leaves.
-/

namespace Zeronix

inductive FsError where
  | invalidPath
  | notFound
  | alreadyExists
  | notDirectory
  | isDirectory
  | directoryNotEmpty
  deriving DecidableEq, Repr

abbrev FsResult (α : Type) := Except FsError α

inductive Node where
  | file (content : List UInt8)
  | dir (entries : List (String × Node))

abbrev Entries := List (String × Node)

/-- Every directory of the tree is a `BTreeMap`: its names increase strictly. -/
inductive Node.WF : Node → Prop
  | file (content : List UInt8) : WF (.file content)
  | dir {entries : Entries} : SortedMap.Sorted entries → (∀ e ∈ entries, WF e.2) → WF (.dir entries)

structure RamFs where
  root : Node
  wf : root.WF

@[ext] theorem RamFs.ext {fs fs' : RamFs} (h : fs.root = fs'.root) : fs = fs' := by
  cases fs
  cases fs'
  cases h
  rfl

/-! ### Paths -/

/-- The components of an absolute path, empty ones and `.` dropped; `..` is a name like
any other. -/
def splitPath (path : String) : FsResult (List String) :=
  if path.toList.head? = some '/' then
    .ok (((path.toList.splitOn '/').map String.ofList).filter fun part => part != "" && part != ".")
  else .error .invalidPath

def splitParent (parts : List String) : FsResult (List String × String) :=
  match parts.getLast? with
  | none => .error .invalidPath
  | some name => .ok (parts.dropLast, name)

namespace Node

/-! ### Walking the tree -/

/-- The loop of `RamFs::node`. -/
def walk : List String → Node → FsResult Node
  | [], n => .ok n
  | _ :: _, .file _ => .error .notDirectory
  | part :: parts, .dir es =>
    match SortedMap.get? part es with
    | none => .error .notFound
    | some child => walk parts child

/-- `RamFs::dir_mut`, with what is done to the directory it finds. -/
def dirMut {α : Type} (f : Entries → FsResult α × Entries) : List String → Node → FsResult α × Node
  | _, .file content => (.error .notDirectory, .file content)
  | [], .dir es => ((f es).1, .dir (f es).2)
  | part :: parts, .dir es =>
    match SortedMap.get? part es with
    | none => (.error .notFound, .dir es)
    | some child =>
      ((dirMut f parts child).1, .dir (SortedMap.insert part (dirMut f parts child).2 es))

/-- The shape of the operations on one entry: split the path, walk to the parent, act on
the name there. -/
def onEntry {α : Type} (path : String) (f : String → Entries → FsResult α × Entries) (root : Node) :
    FsResult α × Node :=
  match splitPath path >>= splitParent with
  | .error e => (.error e, root)
  | .ok (parent, name) => dirMut (f name) parent root

/-! ### What is done to one directory -/

/-- Add an entry, unless the name is taken. -/
def insertNew (node : Node) (name : String) (es : Entries) : FsResult Unit × Entries :=
  if (SortedMap.get? name es).isSome then (.error .alreadyExists, es)
  else (.ok (), SortedMap.insert name node es)

/-- `touch`, `write` and `append`: a directory is refused, the content of a file is
replaced by `f`, and a missing file is created with `init`. -/
def editFile (init : List UInt8) (f : List UInt8 → List UInt8) (name : String) (es : Entries) :
    FsResult Unit × Entries :=
  match SortedMap.get? name es with
  | some (.dir _) => (.error .isDirectory, es)
  | some (.file content) => (.ok (), SortedMap.insert name (.file (f content)) es)
  | none => (.ok (), SortedMap.insert name (.file init) es)

/-- `remove`: only files and empty directories. -/
def removeEntry (name : String) (es : Entries) : FsResult Unit × Entries :=
  match SortedMap.get? name es with
  | none => (.error .notFound, es)
  | some (.dir (_ :: _)) => (.error .directoryNotEmpty, es)
  | some _ => (.ok (), SortedMap.erase name es)

/-- `old_dir.remove(old_name).ok_or(NotFound)`. -/
def takeEntry (name : String) (es : Entries) : FsResult Node × Entries :=
  match SortedMap.get? name es with
  | none => (.error .notFound, es)
  | some node => (.ok node, SortedMap.erase name es)

/-! ### The operations -/

def mkdir (path : String) (root : Node) : FsResult Unit × Node :=
  match splitPath path with
  | .error e => (.error e, root)
  | .ok [] => (.error .alreadyExists, root)
  | .ok _ => root.onEntry path (insertNew (.dir []))

/-- An existing file is left as it is. -/
def touch (path : String) (root : Node) : FsResult Unit × Node :=
  root.onEntry path (editFile [] id)

def write (path : String) (data : List UInt8) (root : Node) : FsResult Unit × Node :=
  root.onEntry path (editFile data fun _ => data)

def append (path : String) (data : List UInt8) (root : Node) : FsResult Unit × Node :=
  root.onEntry path (editFile data (· ++ data))

def remove (path : String) (root : Node) : FsResult Unit × Node :=
  root.onEntry path removeEntry

/-- The two paths of a `rename`, each as a parent and a name. -/
def renamePaths (old new : String) : FsResult ((List String × String) × (List String × String)) := do
  let oldParts ← splitPath old
  let newParts ← splitPath new
  let old ← splitParent oldParts
  let new ← splitParent newParts
  return (old, new)

/-- The source is taken out of the tree before the target is looked at. -/
def rename (old new : String) (root : Node) : FsResult Unit × Node :=
  match renamePaths old new with
  | .error e => (.error e, root)
  | .ok ((oldParent, oldName), newParent, newName) =>
    match dirMut (takeEntry oldName) oldParent root with
    | (.error e, root) => (.error e, root)
    | (.ok node, root) => dirMut (insertNew node newName) newParent root

def read (path : String) (root : Node) : FsResult (List UInt8) := do
  let parts ← splitPath path
  match ← walk parts root with
  | .file content => return content
  | .dir _ => .error .isDirectory

def list (path : String) (root : Node) : FsResult (List String) := do
  let parts ← splitPath path
  match ← walk parts root with
  | .file _ => .error .notDirectory
  | .dir es => return es.map Prod.fst

def copy (src dst : String) (root : Node) : FsResult Unit × Node :=
  match root.read src with
  | .error e => (.error e, root)
  | .ok data => root.write dst data

/-! ### The tree stays well formed -/

theorem WF.sorted {es : Entries} (h : WF (.dir es)) : SortedMap.Sorted es := by
  cases h with
  | dir hs _ => exact hs

theorem WF.child {es : Entries} (h : WF (.dir es)) {name : String} {child : Node}
    (hc : SortedMap.get? name es = some child) : child.WF := by
  cases h with
  | dir _ hall => exact hall _ (SortedMap.mem_of_get? hc)

theorem WF.insert {es : Entries} (h : WF (.dir es)) (name : String) {node : Node} (hn : node.WF) :
    WF (.dir (SortedMap.insert name node es)) := by
  cases h with
  | dir hs hall =>
    refine .dir (hs.insert name node) ?_
    intro e he
    rcases SortedMap.mem_insert he with rfl | he
    · exact hn
    · exact hall e he

theorem WF.erase {es : Entries} (h : WF (.dir es)) (name : String) :
    WF (.dir (SortedMap.erase name es)) := by
  cases h with
  | dir hs hall => exact .dir (hs.erase name) fun e he => hall e (List.mem_filter.mp he).1

/-- What is done to one directory keeps it well formed. -/
def Keeps {α : Type} (f : Entries → FsResult α × Entries) : Prop :=
  ∀ es : Entries, WF (.dir es) → WF (.dir (f es).2)

theorem Keeps.dirMut {α : Type} {f : Entries → FsResult α × Entries} (hf : Keeps f)
    (parts : List String) {n : Node} (h : n.WF) : (dirMut f parts n).2.WF := by
  induction parts generalizing n with
  | nil =>
    cases n with
    | file content => exact h
    | dir es => exact hf es h
  | cons part parts ih =>
    cases n with
    | file content => exact h
    | dir es =>
      rw [Node.dirMut]
      split
      · exact h
      · rename_i child hc
        exact h.insert part (ih (h.child hc))

theorem Keeps.onEntry {α : Type} {f : String → Entries → FsResult α × Entries}
    (hf : ∀ name, Keeps (f name)) (path : String) {n : Node} (h : n.WF) :
    (n.onEntry path f).2.WF := by
  rw [Node.onEntry]
  split
  · exact h
  · exact (hf _).dirMut _ h

theorem keeps_insertNew {node : Node} (hn : node.WF) (name : String) : Keeps (insertNew node name) := by
  intro es h
  rw [insertNew]
  split
  · exact h
  · exact h.insert name hn

theorem keeps_editFile (init : List UInt8) (f : List UInt8 → List UInt8) (name : String) :
    Keeps (editFile init f name) := by
  intro es h
  rw [editFile]
  split
  · exact h
  · exact h.insert name (.file _)
  · exact h.insert name (.file _)

theorem keeps_removeEntry (name : String) : Keeps (removeEntry name) := by
  intro es h
  rw [removeEntry]
  split
  · exact h
  · exact h
  · exact h.erase name

theorem keeps_takeEntry (name : String) : Keeps (takeEntry name) := by
  intro es h
  rw [takeEntry]
  split
  · exact h
  · exact h.erase name

theorem mkdir_wf (path : String) {n : Node} (h : n.WF) : (n.mkdir path).2.WF := by
  rw [mkdir]
  split
  · exact h
  · exact h
  · exact Keeps.onEntry (keeps_insertNew (.dir List.Pairwise.nil (by simp))) path h

theorem edit_wf (init : List UInt8) (f : List UInt8 → List UInt8) (path : String) {n : Node}
    (h : n.WF) : (n.onEntry path (editFile init f)).2.WF :=
  Keeps.onEntry (keeps_editFile init f) path h

theorem remove_wf (path : String) {n : Node} (h : n.WF) : (n.remove path).2.WF :=
  Keeps.onEntry keeps_removeEntry path h

/-- A node taken out of a well formed tree is well formed. -/
theorem takeEntry_wf {parts : List String} {name : String} {n node : Node} (h : n.WF)
    (he : (dirMut (takeEntry name) parts n).1 = .ok node) : node.WF := by
  induction parts generalizing n with
  | nil =>
    cases n with
    | file content => cases he
    | dir es =>
      rw [dirMut, takeEntry] at he
      split at he
      · cases he
      · rename_i child hc
        cases he
        exact h.child hc
  | cons part parts ih =>
    cases n with
    | file content => cases he
    | dir es =>
      rw [dirMut] at he
      split at he
      · cases he
      · rename_i child hc
        exact ih (h.child hc) he

theorem rename_wf (old new : String) {n : Node} (h : n.WF) : (n.rename old new).2.WF := by
  rw [rename]
  split
  · exact h
  · rename_i oldParent oldName newParent newName _
    have hwf := (keeps_takeEntry oldName).dirMut oldParent h
    split
    · rename_i ht
      rw [ht] at hwf
      exact hwf
    · rename_i ht
      rw [ht] at hwf
      exact (keeps_insertNew (takeEntry_wf h (congrArg Prod.fst ht)) newName).dirMut newParent hwf

theorem copy_wf (src dst : String) {n : Node} (h : n.WF) : (n.copy src dst).2.WF := by
  rw [copy]
  split
  · exact h
  · exact edit_wf _ _ dst h

end Node

/-! ### The public operations -/

namespace RamFs

/-- An operation on the root node as one on the file system. -/
def lift {α : Type} (op : Node → FsResult α × Node) (h : ∀ {n : Node}, n.WF → (op n).2.WF)
    (fs : RamFs) : FsResult α × RamFs :=
  ((op fs.root).1, { root := (op fs.root).2, wf := h fs.wf })

def mkdir (path : String) : RamFs → FsResult Unit × RamFs := lift (·.mkdir path) (Node.mkdir_wf path)

def touch (path : String) : RamFs → FsResult Unit × RamFs :=
  lift (·.touch path) (Node.edit_wf _ _ path)

def write (path : String) (data : List UInt8) : RamFs → FsResult Unit × RamFs :=
  lift (·.write path data) (Node.edit_wf _ _ path)

def append (path : String) (data : List UInt8) : RamFs → FsResult Unit × RamFs :=
  lift (·.append path data) (Node.edit_wf _ _ path)

def remove (path : String) : RamFs → FsResult Unit × RamFs :=
  lift (·.remove path) (Node.remove_wf path)

def rename (old new : String) : RamFs → FsResult Unit × RamFs :=
  lift (·.rename old new) (Node.rename_wf old new)

def copy (src dst : String) : RamFs → FsResult Unit × RamFs :=
  lift (·.copy src dst) (Node.copy_wf src dst)

def read (path : String) (fs : RamFs) : FsResult (List UInt8) := fs.root.read path

def list (path : String) (fs : RamFs) : FsResult (List String) := fs.root.list path

/-- The empty root, with the directories of `RamFs::new` made in it. -/
def new : RamFs :=
  let fs : RamFs := { root := .dir [], wf := .dir List.Pairwise.nil (by simp) }
  ["/bin", "/lib", "/home", "/tmp"].foldl (fun fs path => (fs.mkdir path).2) fs

example : (new.list "/") = .ok ["bin", "home", "lib", "tmp"] := by decide +kernel

end RamFs

end Zeronix
