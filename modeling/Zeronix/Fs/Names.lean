import Zeronix.Fs.PathMap
import Zeronix.Fs.Rename

/-!
# Names

A name in a directory was a component of some path, so that it is not empty, not `.`, and has no
slash in it (`IsName`).  Every call keeps this at every depth of the tree (`Reached.named`).  A
path is therefore extended by a listed name as one would expect (`splitPath_append`), and whatever
is listed can be addressed (`listed_reachable`).
-/

namespace Zeronix

/-! ### Components of paths -/

/-- A name that a path can have as a component. -/
structure IsName (name : String) : Prop where
  notEmpty : name ≠ ""
  notDot : name ≠ "."
  noSlash : '/' ∉ name.toList

/-- No part of a list that was split at `c` contains it. -/
theorem not_mem_of_mem_splitOn {c : Char} {l part : List Char} (h : part ∈ l.splitOn c) : c ∉ part := by
  induction l generalizing part with
  | nil =>
    rw [List.splitOn_eq_singleton (by simp), List.mem_singleton] at h
    rw [h]
    simp
  | cons x l ih =>
    rw [List.splitOn_cons_eq_if_modifyHead] at h
    split at h
    · rcases List.mem_cons.mp h with rfl | h
      · simp
      · exact ih h
    · rename_i hx
      cases hs : l.splitOn c with
      | nil => exact absurd hs (List.splitOn_ne_nil c l)
      | cons first rest =>
        rw [hs] at h ih
        rcases List.mem_cons.mp h with rfl | h
        · have hfirst := ih List.mem_cons_self
          simp only [beq_iff_eq] at hx
          simp [Ne.symm hx, hfirst]
        · exact ih (List.mem_cons_of_mem first h)

theorem isName_of_mem {path name : String} {parts : List String} (hs : splitPath path = .ok parts)
    (h : name ∈ parts) : IsName name := by
  rw [splitPath] at hs
  split at hs
  · cases hs
    obtain ⟨hm, hne⟩ := List.mem_filter.mp h
    obtain ⟨part, hpart, rfl⟩ := List.mem_map.mp hm
    simp only [bne_iff_ne, ne_eq, Bool.and_eq_true] at hne
    refine ⟨hne.1, hne.2, ?_⟩
    rw [String.toList_ofList]
    exact not_mem_of_mem_splitOn hpart
  · cases hs

/-- **A path is extended by a name.** -/
theorem splitPath_append {path name : String} {parts : List String} (hs : splitPath path = .ok parts)
    (hn : IsName name) : splitPath (path ++ "/" ++ name) = .ok (parts ++ [name]) := by
  rw [splitPath] at hs
  split at hs
  · rename_i hhead
    cases hs
    have hlist : (path ++ "/" ++ name).toList = path.toList ++ '/' :: name.toList := by
      simp [String.toList_append]
    have hfirst : (path.toList ++ '/' :: name.toList).head? = some '/' := by
      cases hp : path.toList with
      | nil => rfl
      | cons c cs =>
        rw [hp] at hhead
        exact hhead
    rw [splitPath, hlist, if_pos hfirst, List.splitOn_append_cons_self,
      List.splitOn_eq_singleton hn.noSlash, List.map_append, List.filter_append]
    simp [hn.notEmpty, hn.notDot]
  · cases hs

/-- A path with the given components. -/
def pathOf (parts : List String) : String := parts.foldl (fun path name => path ++ "/" ++ name) "/"

theorem splitPath_pathOf {parts : List String} (h : ∀ name ∈ parts, IsName name) :
    splitPath (pathOf parts) = .ok parts := by
  have hfrom : ∀ (rest before : List String) (path : String), splitPath path = .ok before →
      (∀ name ∈ rest, IsName name) →
      splitPath (rest.foldl (fun path name => path ++ "/" ++ name) path) = .ok (before ++ rest) := by
    intro rest
    induction rest with
    | nil =>
      intro before path hs _
      rw [List.append_nil]
      exact hs
    | cons name rest ih =>
      intro before path hs hnames
      rw [List.foldl_cons, ih _ _ (splitPath_append hs (hnames name List.mem_cons_self))
        fun n hn => hnames n (List.mem_cons_of_mem name hn), List.append_assoc]
      rfl
  exact hfrom parts [] "/" (by decide +kernel) h

/-! ### The names in a tree -/

namespace Node

/-- Every name in the tree is one that a path can have. -/
inductive Named : Node → Prop
  | file (content : List UInt8) : Named (.file content)
  | dir {entries : Entries} : (∀ e ∈ entries, IsName e.1) → (∀ e ∈ entries, Named e.2) →
      Named (.dir entries)

theorem Named.entry {es : Entries} (h : Named (.dir es)) {name : String} {child : Node}
    (hc : SortedMap.get? name es = some child) : IsName name ∧ child.Named := by
  cases h with
  | dir hnames hall => exact ⟨hnames _ (SortedMap.mem_of_get? hc), hall _ (SortedMap.mem_of_get? hc)⟩

theorem Named.insert {es : Entries} (h : Named (.dir es)) {name : String} (hname : IsName name)
    {node : Node} (hn : node.Named) : Named (.dir (SortedMap.insert name node es)) := by
  cases h with
  | dir hnames hall =>
    refine .dir (fun e he => ?_) (fun e he => ?_)
    · rcases SortedMap.mem_insert he with rfl | he
      · exact hname
      · exact hnames e he
    · rcases SortedMap.mem_insert he with rfl | he
      · exact hn
      · exact hall e he

theorem Named.erase {es : Entries} (h : Named (.dir es)) (name : String) :
    Named (.dir (SortedMap.erase name es)) := by
  cases h with
  | dir hnames hall =>
    exact .dir (fun e he => hnames e (List.mem_filter.mp he).1)
      (fun e he => hall e (List.mem_filter.mp he).1)

/-- What is done to one directory keeps its names. -/
def KeepsNames {α : Type} (f : Entries → FsResult α × Entries) : Prop :=
  ∀ es : Entries, Named (.dir es) → Named (.dir (f es).2)

theorem KeepsNames.dirMut {α : Type} {f : Entries → FsResult α × Entries} (hf : KeepsNames f)
    (parts : List String) {n : Node} (h : n.Named) : (dirMut f parts n).2.Named := by
  induction parts generalizing n with
  | nil =>
    cases n with
    | file content => exact h
    | dir es => exact hf es h
  | cons part parts ih =>
    cases n with
    | file content => exact h
    | dir es =>
      rw [Node.dirMut]
      split
      · exact h
      · rename_i child hc
        -- the name on the way is one that the directory has
        obtain ⟨hname, hchild⟩ := h.entry hc
        exact h.insert hname (ih hchild)

theorem KeepsNames.onEntry {α : Type} {f : String → Entries → FsResult α × Entries}
    (hf : ∀ name, IsName name → KeepsNames (f name)) (path : String) {n : Node} (h : n.Named) :
    (n.onEntry path f).2.Named := by
  rw [Node.onEntry]
  cases hs : splitPath path with
  | error e => exact h
  | ok parts =>
    rcases List.eq_nil_or_concat parts with rfl | ⟨q, name, rfl⟩
    · exact h
    · rw [List.concat_eq_append] at hs ⊢
      have hparent : splitParent (q ++ [name]) = .ok (q, name) := by simp [splitParent]
      simp only [bind, Except.bind, hparent]
      exact (hf name (isName_of_mem hs (by simp))).dirMut q h

theorem keepsNames_insertNew {node : Node} (hn : node.Named) {name : String} (hname : IsName name) :
    KeepsNames (insertNew node name) := by
  intro es h
  rw [insertNew]
  split
  · exact h
  · exact h.insert hname hn

theorem keepsNames_editFile (init : List UInt8) (f : List UInt8 → List UInt8) {name : String}
    (hname : IsName name) : KeepsNames (editFile init f name) := by
  intro es h
  rw [editFile]
  split
  · exact h
  · exact h.insert hname (.file _)
  · exact h.insert hname (.file _)

theorem keepsNames_removeEntry (name : String) : KeepsNames (removeEntry name) := by
  intro es h
  rw [removeEntry]
  split
  · exact h
  · exact h
  · exact h.erase name

theorem keepsNames_takeEntry (name : String) : KeepsNames (takeEntry name) := by
  intro es h
  rw [takeEntry]
  split
  · exact h
  · exact h.erase name

theorem walk_named {p : List String} {n m : Node} (h : n.Named) (hm : walk p n = .ok m) :
    m.Named ∧ ∀ name ∈ p, IsName name := by
  induction p generalizing n with
  | nil =>
    cases hm
    exact ⟨h, by simp⟩
  | cons a p ih =>
    cases n with
    | file content => cases hm
    | dir es =>
      rw [walk] at hm
      split at hm
      · cases hm
      · rename_i child hc
        obtain ⟨hname, hchild⟩ := h.entry hc
        obtain ⟨hm', hp⟩ := ih hchild hm
        exact ⟨hm', List.forall_mem_cons.mpr ⟨hname, hp⟩⟩

theorem edit_named (init : List UInt8) (f : List UInt8 → List UInt8) (path : String) {n : Node}
    (h : n.Named) : (n.onEntry path (editFile init f)).2.Named :=
  KeepsNames.onEntry (fun _ hname => keepsNames_editFile init f hname) path h

theorem mkdir_named (path : String) {n : Node} (h : n.Named) : (n.mkdir path).2.Named := by
  rw [mkdir]
  split
  · exact h
  · exact h
  · exact KeepsNames.onEntry (fun _ hname => keepsNames_insertNew (.dir (by simp) (by simp)) hname)
      path h

theorem rename_named (old new : String) {n : Node} (h : n.Named) : (n.rename old new).2.Named := by
  rw [rename]
  cases hpaths : renamePaths old new with
  | error e => exact h
  | ok paths =>
    obtain ⟨⟨p, name⟩, q, newName⟩ := paths
    obtain ⟨_, hnew⟩ := renamePaths_eq_ok.mp hpaths
    have htaken := (keepsNames_takeEntry name).dirMut p h
    simp only
    split
    · rename_i ht
      rw [ht] at htaken
      exact htaken
    · rename_i node root ht
      rw [ht] at htaken
      have hnode := (walk_named h (takeEntry_ok_iff.mp (congrArg Prod.fst ht))).1
      exact (keepsNames_insertNew hnode (isName_of_mem hnew (by simp))).dirMut q htaken

theorem copy_named (src dst : String) {n : Node} (h : n.Named) : (n.copy src dst).2.Named := by
  rw [copy]
  split
  · exact h
  · exact edit_named _ _ dst h

end Node

/-! ### Runs -/

namespace RamFs

/-- The trees that calls lead to from `RamFs::new`, whether they succeed or fail. -/
inductive Reached : RamFs → Prop
  | new : Reached new
  | mkdir {fs : RamFs} (path : String) : Reached fs → Reached (fs.mkdir path).2
  | touch {fs : RamFs} (path : String) : Reached fs → Reached (fs.touch path).2
  | write {fs : RamFs} (path : String) (data : List UInt8) : Reached fs → Reached (fs.write path data).2
  | append {fs : RamFs} (path : String) (data : List UInt8) : Reached fs → Reached (fs.append path data).2
  | remove {fs : RamFs} (path : String) : Reached fs → Reached (fs.remove path).2
  | rename {fs : RamFs} (old new : String) : Reached fs → Reached (fs.rename old new).2
  | copy {fs : RamFs} (src dst : String) : Reached fs → Reached (fs.copy src dst).2

/-- `RamFs::new` makes four directories in an empty root. -/
theorem new_induction {P : Node → Prop} (hempty : P (.dir []))
    (hmkdir : ∀ n path, P n → P (n.mkdir path).2) : P new.root :=
  hmkdir _ _ (hmkdir _ _ (hmkdir _ _ (hmkdir _ _ hempty)))

/-- **Every call keeps the names.** -/
theorem Reached.named {fs : RamFs} (h : fs.Reached) : fs.root.Named := by
  induction h with
  | new => exact new_induction (.dir (by simp) (by simp)) fun _ path h => Node.mkdir_named path h
  | mkdir path _ ih => exact Node.mkdir_named path ih
  | touch path _ ih => exact Node.edit_named _ _ path ih
  | write path data _ ih => exact Node.edit_named _ _ path ih
  | append path data _ ih => exact Node.edit_named _ _ path ih
  | remove path _ ih => exact Node.KeepsNames.onEntry (fun name _ => Node.keepsNames_removeEntry name) path ih
  | rename old new _ ih => exact Node.rename_named old new ih
  | copy src dst _ ih => exact Node.copy_named src dst ih

/-- The root is a directory. -/
def Rooted (fs : RamFs) : Prop := fs.paths.get [] = some .dir

theorem Rooted.dirMut {α : Type} {n : Node} (h : n.entry = .dir) (f : Entries → FsResult α × Entries)
    (parts : List String) : (Node.dirMut f parts n).2.entry = .dir := by
  cases n with
  | file content => cases h
  | dir es => exact Node.entry_dirMut parts es

theorem Rooted.onEntry {α : Type} {n : Node} (h : n.entry = .dir) (path : String)
    (f : String → Entries → FsResult α × Entries) : (n.onEntry path f).2.entry = .dir := by
  rw [Node.onEntry]
  split
  · exact h
  · exact dirMut h _ _

theorem Rooted.mkdir {n : Node} (h : n.entry = .dir) (path : String) : (n.mkdir path).2.entry = .dir := by
  rw [Node.mkdir]
  split
  · exact h
  · exact h
  · exact onEntry h path _

theorem Rooted.rename {n : Node} (h : n.entry = .dir) (old new : String) :
    (n.rename old new).2.entry = .dir := by
  rw [Node.rename]
  split
  · exact h
  · rename_i p name q newName _
    have htaken := dirMut h (Node.takeEntry name) p
    split
    · rename_i ht
      rw [ht] at htaken
      exact htaken
    · rename_i ht
      rw [ht] at htaken
      exact dirMut htaken _ q

/-- No call replaces the root. -/
theorem Reached.rooted {fs : RamFs} (h : fs.Reached) : fs.Rooted := by
  suffices hroot : fs.root.entry = .dir from congrArg some hroot
  induction h with
  | new => exact new_induction (P := fun n => n.entry = .dir) rfl fun _ path h => Rooted.mkdir h path
  | mkdir path _ ih => exact Rooted.mkdir ih path
  | touch path _ ih => exact Rooted.onEntry ih path _
  | write path data _ ih => exact Rooted.onEntry ih path _
  | append path data _ ih => exact Rooted.onEntry ih path _
  | remove path _ ih => exact Rooted.onEntry ih path _
  | rename old new _ ih => exact Rooted.rename ih old new
  | @copy fs src dst _ ih =>
    show (fs.root.copy src dst).2.entry = .dir
    rw [Node.copy]
    split
    · exact ih
    · exact Rooted.onEntry ih dst _

/-- A path names a file or a directory, and `read` and `list` tell which. -/
theorem read_or_list {fs : RamFs} {path : String} {parts : List String} {node : Node}
    (hs : splitPath path = .ok parts) (hw : fs.root.walk parts = .ok node) :
    (∃ data, node = .file data ∧ fs.read path = .ok data ∧ fs.list path = .error .notDirectory) ∨
    ∃ es, node = .dir es ∧ fs.list path = .ok (es.map Prod.fst) ∧ fs.read path = .error .isDirectory := by
  cases node with
  | file data =>
    refine Or.inl ⟨data, rfl, ?_, ?_⟩
    · rw [RamFs.read, Node.read, hs]
      simp only [bind, Except.bind, hw]
      rfl
    · rw [RamFs.list, Node.list, hs]
      simp only [bind, Except.bind, hw]
  | dir es =>
    refine Or.inr ⟨es, rfl, ?_, ?_⟩
    · rw [RamFs.list, Node.list, hs]
      simp only [bind, Except.bind, hw]
      rfl
    · rw [RamFs.read, Node.read, hs]
      simp only [bind, Except.bind, hw]

/-- A directory that can be listed. -/
theorem list_eq_ok {fs : RamFs} {path : String} {names : List String} (h : fs.list path = .ok names) :
    ∃ parts es, splitPath path = .ok parts ∧ fs.root.walk parts = .ok (.dir es) ∧
      names = es.map Prod.fst := by
  rw [RamFs.list, Node.list] at h
  cases hs : splitPath path with
  | error e =>
    rw [hs] at h
    cases h
  | ok parts =>
    rw [hs] at h
    simp only [bind, Except.bind] at h
    cases hw : fs.root.walk parts with
    | error e =>
      rw [hw] at h
      cases h
    | ok node =>
      rw [hw] at h
      cases node with
      | file content => cases h
      | dir es =>
        cases h
        exact ⟨parts, es, rfl, hw, rfl⟩

/-- **Everything listed is reachable.**  The names of a listing increase, the path extended by one
of them resolves to the node that the directory has under this name, which either `read` or `list`
succeeds on; and every node of the tree has a path. -/
theorem listed_reachable {fs : RamFs} (h : fs.Reached) :
    (∀ path names, fs.list path = .ok names → ∃ parts es, splitPath path = .ok parts ∧
      fs.root.walk parts = .ok (.dir es) ∧ names = es.map Prod.fst ∧ names.Pairwise (· < ·) ∧
      ∀ name ∈ names, ∃ node, SortedMap.get? name es = some node ∧
        splitPath (path ++ "/" ++ name) = .ok (parts ++ [name]) ∧
        fs.root.walk (parts ++ [name]) = .ok node ∧
        Xor (∃ data, fs.read (path ++ "/" ++ name) = .ok data)
          (∃ names', fs.list (path ++ "/" ++ name) = .ok names')) ∧
    ∀ parts node, fs.root.walk parts = .ok node → splitPath (pathOf parts) = .ok parts := by
  refine ⟨fun path names hl => ?_, fun parts node hw =>
    splitPath_pathOf (Node.walk_named h.named hw).2⟩
  obtain ⟨parts, es, hs, hw, rfl⟩ := list_eq_ok hl
  have hsorted := (Node.walk_wf fs.wf hw).sorted
  refine ⟨parts, es, hs, hw, rfl, List.pairwise_map.mpr hsorted, fun name hname => ?_⟩
  obtain ⟨⟨name, node⟩, hm, rfl⟩ := List.mem_map.mp hname
  have hget := hsorted.get?_of_mem hm
  have hsplit := splitPath_append hs ((Node.walk_named h.named hw).1.entry hget).1
  have hnode := Node.walk_snoc hw name hget
  refine ⟨node, hget, hsplit, hnode, ?_⟩
  rcases read_or_list hsplit hnode with ⟨data, _, hread, hlist⟩ | ⟨es', _, hlist, hread⟩
  · refine Or.inl ⟨⟨data, hread⟩, ?_⟩
    rintro ⟨names', h'⟩
    rw [hlist] at h'
    cases h'
  · refine Or.inr ⟨⟨_, hlist⟩, ?_⟩
    rintro ⟨data, h'⟩
    rw [hread] at h'
    cases h'

/-- A file made by a path with doubled slashes and a dot is listed by its name. -/
theorem listed_reachable_new : ∃ fs : RamFs, fs.Reached ∧ fs.list "//home/" = .ok ["a"] ∧
    ∃ node, fs.root.walk ["home", "a"] = .ok node ∧
      Xor (∃ data, fs.read "//home//a" = .ok data) (∃ names, fs.list "//home//a" = .ok names) := by
  have hreached := Reached.write "/home/.//a" [1, 2] Reached.new
  have hlist : (new.write "/home/.//a" [1, 2]).2.list "//home/" = .ok ["a"] := by decide +kernel
  obtain ⟨parts, es, hs, _, _, _, hnames⟩ := (listed_reachable hreached).1 "//home/" ["a"] hlist
  obtain rfl : parts = ["home"] := Except.ok.inj (hs.symm.trans (by decide +kernel))
  obtain ⟨node, _, _, hnode, hxor⟩ := hnames "a" (by simp)
  exact ⟨_, hreached, hlist, node, hnode, hxor⟩

end RamFs

end Zeronix
