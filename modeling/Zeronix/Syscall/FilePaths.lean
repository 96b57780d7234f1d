import Zeronix.Fs.PathMap
import Zeronix.Syscall.Table

/-!
# Descriptors and paths

A descriptor holds the path that it was opened by, not the node, so that each call resolves the
path anew.  In the map of paths a call on a file changes one entry or nothing
(`PathMap.edit_cases`), and `RamFs.content` is what a write starts from.

`write_keeps_paths_iff` is about all runs of calls: a write makes a new entry exactly when the
path of its descriptor names nothing any more while its parent is still a directory.
-/

namespace Zeronix

namespace Entry

def isDir : Entry → Bool
  | file _ => false
  | dir => true

/-- A file's bytes. -/
def content : Option Entry → List UInt8
  | some (file c) => c
  | _ => []

end Entry

namespace PathMap

variable {m : PathMap} {path : String} {p q : List String}

theorem set_get_self (e : Option Entry) : (m.set p e).get p = e := by
  simp only [set, Function.update_self]

theorem set_get_of_ne (h : q ≠ p) (e : Option Entry) : (m.set p e).get q = m.get q := by
  simp only [set, Function.update_of_ne h]

theorem set_set (e e' : Option Entry) : (m.set p e).set p e' = m.set p e' := by
  ext1
  simp only [set, Function.update_idem]

theorem split_of_target (h : m.target path = .ok p) : splitPath path = .ok p ∧ p ≠ [] := by
  rw [target] at h
  cases hs : splitPath path with
  | error e =>
    rw [hs] at h
    cases h
  | ok parts =>
    rw [hs] at h
    simp only [bind, Except.bind] at h
    split at h
    · cases h
    · rename_i hne
      split at h
      · cases h
      · split at h
        · cases h
        · cases h
          exact ⟨rfl, hne⟩

/-- **What `touch`, `write` and `append` do to the map.** -/
theorem edit_cases (m : PathMap) (path : String) (init : List UInt8) (f : List UInt8 → List UInt8) :
    (∃ e, m.target path = .error e ∧ m.onTarget path (edit init f) = (.error e, m)) ∨
    ∃ p, m.target path = .ok p ∧
      ((m.get p = some .dir ∧ m.onTarget path (edit init f) = (.error .isDirectory, m)) ∨
      (∃ c, m.get p = some (.file c) ∧
        m.onTarget path (edit init f) = (.ok (), m.set p (some (.file (f c))))) ∨
      (m.get p = none ∧ m.onTarget path (edit init f) = (.ok (), m.set p (some (.file init))))) := by
  simp only [onTarget]
  cases m.target path with
  | error e => exact Or.inl ⟨e, rfl, rfl⟩
  | ok p =>
    refine Or.inr ⟨p, rfl, ?_⟩
    cases hp : m.get p with
    | none => exact Or.inr (Or.inr ⟨rfl, by simp only [hp, edit]⟩)
    | some e =>
      cases e with
      | dir => exact Or.inl ⟨rfl, by simp only [hp, edit]⟩
      | file c => exact Or.inr (Or.inl ⟨c, rfl, by simp only [hp, edit]⟩)

/-- The entries with their kinds. -/
def kinds (m : PathMap) (p : List String) : Option Bool := (m.get p).map Entry.isDir

/-- Replacing a file by a file keeps the kinds. -/
theorem kinds_set_file {c c' : List UInt8} (h : m.get p = some (.file c)) :
    (m.set p (some (.file c'))).kinds = m.kinds := by
  funext q
  by_cases hq : q = p
  · subst hq
    rw [kinds, kinds, set_get_self, h]
    rfl
  · rw [kinds, kinds, set_get_of_ne hq]

/-- A call on a file keeps the kinds unless it makes the file. -/
theorem kinds_edit_iff (m : PathMap) (path : String) (init : List UInt8)
    (f : List UInt8 → List UInt8) :
    (m.onTarget path (edit init f)).2.kinds = m.kinds ↔
      ¬ ∃ p, m.target path = .ok p ∧ m.get p = none := by
  rcases edit_cases m path init f with ⟨e, ht, h⟩ | ⟨p, ht, ⟨hp, h⟩ | ⟨c, hp, h⟩ | ⟨hp, h⟩⟩
  · simp [ht, h]
  · simp [ht, h, hp]
  · simp [ht, h, hp, kinds_set_file hp]
  · rw [h]
    refine iff_of_false (fun hk => ?_) (not_not.mpr ⟨p, ht, hp⟩)
    have hkp := congrFun hk p
    rw [kinds, kinds, set_get_self, hp] at hkp
    cases hkp

end PathMap

namespace RamFs

variable {fs : RamFs} {path : String} {p : List String} {c data : List UInt8}

/-- A path below a directory. -/
theorem target_of_parent {name : String} (hs : splitPath path = .ok (p ++ [name]))
    (h : fs.paths.kinds p = some true) : fs.paths.target path = .ok (p ++ [name]) := by
  have hk : (fs.root.entryAt p).map Entry.isDir = some true := h
  rw [Node.entryAt] at hk
  simp only [PathMap.target, hs, bind, Except.bind, List.append_eq_nil_iff, List.cons_ne_nil,
    and_false, if_false, List.dropLast_concat, fs.lookup_paths]
  cases hw : fs.root.walk p with
  | error e =>
    rw [hw] at hk
    cases hk
  | ok n =>
    cases n with
    | dir es => rfl
    | file content =>
      rw [hw] at hk
      cases hk

/-- A path that names something has a directory above it. -/
theorem target_of_get {e : Entry} (hs : splitPath path = .ok p) (hne : p ≠ [])
    (h : fs.paths.get p = some e) : fs.paths.target path = .ok p := by
  rcases List.eq_nil_or_concat p with rfl | ⟨q, name, rfl⟩
  · exact absurd rfl hne
  · rw [List.concat_eq_append] at hs h ⊢
    refine target_of_parent hs ?_
    have hget : fs.root.entryAt (q ++ [name]) = some e := h
    rw [Node.entryAt] at hget
    cases hw : fs.root.walk (q ++ [name]) with
    | error e' =>
      rw [hw] at hget
      cases hget
    | ok n =>
      obtain ⟨es, hes⟩ := Node.walk_prefix hw (by simp)
      show (fs.root.entryAt q).map Entry.isDir = some true
      rw [Node.entryAt_of_walk hes]
      rfl

theorem read_of_get (hs : splitPath path = .ok p) (h : fs.paths.get p = some (.file c)) :
    fs.read path = .ok c := by
  have hw : fs.root.walk p = .ok (.file c) := Node.entryAt_eq_file.mp h
  rw [RamFs.read, Node.read, hs]
  simp only [bind, Except.bind, hw]
  rfl

theorem get_of_read (hs : splitPath path = .ok p) (h : fs.read path = .ok c) :
    fs.paths.get p = some (.file c) := by
  rw [RamFs.read, Node.read, hs] at h
  simp only [bind, Except.bind] at h
  refine Node.entryAt_eq_file.mpr ?_
  cases hw : fs.root.walk p with
  | error e =>
    rw [hw] at h
    cases h
  | ok n =>
    rw [hw] at h
    cases n with
    | dir es => cases h
    | file content =>
      cases h
      rfl

/-- `fs.read(path).unwrap_or_default()`. -/
theorem read_content (hs : splitPath path = .ok p) :
    (fs.read path).toOption.getD [] = Entry.content (fs.paths.get p) := by
  have hget : fs.paths.get p = fs.root.entryAt p := rfl
  rw [RamFs.read, Node.read, hs, hget, Node.entryAt]
  simp only [bind, Except.bind]
  cases fs.root.walk p with
  | error e => rfl
  | ok n => cases n <;> rfl

/-- A path can be written: its parent is a directory and it is not one itself. -/
def Writable (fs : RamFs) (path : String) (p : List String) : Prop :=
  fs.paths.target path = .ok p ∧ fs.paths.get p ≠ some .dir

theorem writable_of_parent {name : String} (hs : splitPath path = .ok (p ++ [name]))
    (h : fs.paths.kinds p = some true) (hnd : fs.paths.kinds (p ++ [name]) ≠ some true) :
    fs.Writable path (p ++ [name]) := by
  refine ⟨target_of_parent hs h, fun hd => hnd ?_⟩
  rw [PathMap.kinds, hd]
  rfl

theorem Writable.touch (h : fs.Writable path p) :
    ∃ c, (fs.touch path).1 = .ok () ∧ (fs.touch path).2.paths = fs.paths.set p (some (.file c)) := by
  obtain ⟨hres, hpaths⟩ := touch_refines path fs
  rw [hres, hpaths, PathMap.touch]
  rcases PathMap.edit_cases fs.paths path [] id with
    ⟨e, ht', _⟩ | ⟨p', ht', ⟨hp, _⟩ | ⟨c, _, hw⟩ | ⟨_, hw⟩⟩
  · rw [h.1] at ht'
    cases ht'
  all_goals
    rw [h.1] at ht'
    cases ht'
  · exact absurd hp h.2
  · exact ⟨c, congrArg Prod.fst hw, congrArg Prod.snd hw⟩
  · exact ⟨[], congrArg Prod.fst hw, congrArg Prod.snd hw⟩

theorem Writable.write (h : fs.Writable path p) (data : List UInt8) :
    (fs.write path data).1 = .ok () ∧
      (fs.write path data).2.paths = fs.paths.set p (some (.file data)) := by
  obtain ⟨hres, hpaths⟩ := write_refines path data fs
  rw [hres, hpaths, PathMap.write]
  rcases PathMap.edit_cases fs.paths path data (fun _ => data) with
    ⟨e, ht', _⟩ | ⟨p', ht', ⟨hp, _⟩ | ⟨c, _, hw⟩ | ⟨_, hw⟩⟩
  · rw [h.1] at ht'
    cases ht'
  all_goals
    rw [h.1] at ht'
    cases ht'
  · exact absurd hp h.2
  · exact ⟨congrArg Prod.fst hw, congrArg Prod.snd hw⟩
  · exact ⟨congrArg Prod.fst hw, congrArg Prod.snd hw⟩

theorem Writable.append (h : fs.Writable path p) (data : List UInt8) :
    (fs.append path data).1 = .ok () ∧ (fs.append path data).2.paths =
      fs.paths.set p (some (.file (Entry.content (fs.paths.get p) ++ data))) := by
  obtain ⟨hres, hpaths⟩ := append_refines path data fs
  rw [hres, hpaths, PathMap.append]
  rcases PathMap.edit_cases fs.paths path data (· ++ data) with
    ⟨e, ht', _⟩ | ⟨p', ht', ⟨hp, _⟩ | ⟨c, hp, hw⟩ | ⟨hp, hw⟩⟩
  · rw [h.1] at ht'
    cases ht'
  all_goals
    rw [h.1] at ht'
    cases ht'
  · exact absurd hp h.2
  · exact ⟨congrArg Prod.fst hw, by rw [hw, hp]; rfl⟩
  · exact ⟨congrArg Prod.fst hw, by rw [hw, hp]; rfl⟩

theorem write_of_not_writable (h : ∀ p, ¬ fs.Writable path p) (data : List UInt8) :
    ∃ e, (fs.write path data).1 = .error e := by
  rw [(write_refines path data fs).1, PathMap.write]
  rcases PathMap.edit_cases fs.paths path data (fun _ => data) with
    ⟨e, _, hw⟩ | ⟨p, ht, ⟨_, hw⟩ | ⟨c, hp, _⟩ | ⟨hp, _⟩⟩
  · exact ⟨e, congrArg Prod.fst hw⟩
  · exact ⟨.isDirectory, congrArg Prod.fst hw⟩
  · exact absurd ⟨ht, by simp [hp]⟩ (h p)
  · exact absurd ⟨ht, by simp [hp]⟩ (h p)

/-- A path that names a file can be written. -/
theorem writable_of_get (hs : splitPath path = .ok p) (hne : p ≠ [])
    (h : fs.paths.get p = some (.file c)) : fs.Writable path p := by
  refine ⟨target_of_get hs hne h, ?_⟩
  rw [h]
  simp

/-- A call on another file keeps what a path names. -/
theorem get_edit_of_ne {init : List UInt8} {f : List UInt8 → List UInt8}
    (hs : splitPath path ≠ .ok p) :
    (fs.paths.onTarget path (PathMap.edit init f)).2.get p = fs.paths.get p := by
  rcases PathMap.edit_cases fs.paths path init f with
    ⟨e, _, h⟩ | ⟨q, ht, ⟨_, h⟩ | ⟨c, _, h⟩ | ⟨_, h⟩⟩
  · rw [h]
  · rw [h]
  all_goals
    have hq : p ≠ q := by
      rintro rfl
      exact hs (PathMap.split_of_target ht).1
    rw [h, PathMap.set_get_of_ne hq]

end RamFs

/-! ### What a write does to the paths -/

namespace Files

/-- The descriptor may write, and its path names nothing while the parent is a directory. -/
def Orphan (s : Files) (fd : Nat) : Prop :=
  ∃ path offset flags p, s.table.get fd = some (.file path offset flags) ∧
    flags.contains .WRITE = true ∧ s.fs.paths.target path = .ok p ∧ s.fs.paths.get p = none

theorem writeFile_fs (s : Files) (fd : Nat) (path : String) (offset : Nat) (flags : OpenFlags)
    (buf : List UInt8) :
    ∃ init f, (s.writeFile fd path offset flags buf).2.fs.paths =
      (s.fs.paths.onTarget path (PathMap.edit init f)).2 := by
  rw [writeFile]
  by_cases hp : flags.contains .APPEND = true
  · refine ⟨buf, (· ++ buf), ?_⟩
    rw [if_pos hp]
    have happ := (RamFs.append_refines path buf s.fs).2
    split
    · rename_i hw
      rw [hw] at happ
      exact happ
    · rename_i hw
      rw [hw] at happ
      exact happ
  · rw [if_neg hp]
    generalize spliced ((s.fs.read path).toOption.getD []) offset buf = data
    refine ⟨data, fun _ => data, ?_⟩
    have hwrite := (RamFs.write_refines path data s.fs).2
    split
    · rename_i hw
      rw [hw] at hwrite
      exact hwrite
    · rename_i hw
      rw [hw] at hwrite
      exact hwrite

theorem kinds_write_iff (s : Files) (fd : Nat) (buf : List UInt8) :
    (s.write fd buf).2.fs.paths.kinds = s.fs.paths.kinds ↔ ¬ s.Orphan fd := by
  have hother : (∀ path offset flags, s.table.get fd = some (.file path offset flags) →
      flags.contains .WRITE = false) → ¬ s.Orphan fd := by
    rintro h ⟨path, offset, flags, p, hf, hw, _⟩
    rw [h path offset flags hf] at hw
    cases hw
  rw [write]
  cases hf : s.table.get fd with
  | none => exact iff_of_true rfl (hother (by simp [hf]))
  | some file =>
    cases file with
    | stdin data offset => exact iff_of_true rfl (hother (by simp [hf]))
    | stdout data => exact iff_of_true rfl (hother (by simp [hf]))
    | stderr data => exact iff_of_true rfl (hother (by simp [hf]))
    | file path offset flags =>
      simp only
      by_cases hw : flags.contains .WRITE = true
      · obtain ⟨init, f, hpaths⟩ := s.writeFile_fs fd path offset flags buf
        rw [if_neg (by simp [hw]), hpaths, PathMap.kinds_edit_iff]
        apply not_congr
        constructor
        · rintro ⟨p, ht, hp⟩
          exact ⟨path, offset, flags, p, hf, hw, ht, hp⟩
        · rintro ⟨path', offset', flags', p, hf', _, ht, hp⟩
          rw [hf] at hf'
          cases hf'
          exact ⟨p, ht, hp⟩
      · rw [if_pos (by simp [hw])]
        refine iff_of_true rfl (hother fun path' offset' flags' hf' => ?_)
        rw [hf] at hf'
        cases hf'
        simpa using hw

end Files

/-! ### Runs of calls -/

inductive FileCall where
  | openFile (path : String) (flags : OpenFlags)
  | close (fd : Nat)
  | dup2 (oldFd newFd : Nat)
  | read (fd : Nat) (buf : List UInt8)
  | write (fd : Nat) (buf : List UInt8)
  | unlink (path : String)
  | rename (old new : String)
  | mkdir (path : String)

namespace FileCall

def run (s : Files) : FileCall → Files
  | openFile path flags => (SyscallTable.openFile s path flags).2
  | close fd => (SyscallTable.close s fd).2
  | dup2 oldFd newFd => (SyscallTable.dup2 s oldFd newFd).2
  | read fd buf => (SyscallTable.read s fd buf).2.2
  | write fd buf => (SyscallTable.write s fd buf).2
  | unlink path => (SyscallTable.unlink s path).2
  | rename old new => (SyscallTable.rename s old new).2
  | mkdir path => (SyscallTable.mkdir s path).2

def runAll (s : Files) (calls : List FileCall) : Files := calls.foldl run s

/-- `P` holds before each write of a run. -/
def AtWrites (P : Files → Nat → List UInt8 → Prop) (s : Files) (calls : List FileCall) : Prop :=
  ∀ before fd buf rest, calls = before ++ write fd buf :: rest → P (runAll s before) fd buf

/-- **Writes make no entries**, in a run in which no write goes to an orphan, and in no other
run. -/
theorem write_keeps_paths_iff (s : Files) (calls : List FileCall) :
    AtWrites (fun s fd buf => (run s (write fd buf)).fs.paths.kinds = s.fs.paths.kinds) s calls ↔
      AtWrites (fun s fd _ => ¬ s.Orphan fd) s calls := by
  constructor
  · intro h before fd buf rest heq
    exact (Files.kinds_write_iff _ fd buf).mp (h before fd buf rest heq)
  · intro h before fd buf rest heq
    exact (Files.kinds_write_iff _ fd buf).mpr (h before fd buf rest heq)

/-- The state at the start. -/
def start : Files where
  fs := .new
  table := .new

def openThenUnlink : List FileCall :=
  [openFile "/home/a" (.CREATE ||| .WRITE), write 3 [65, 66], unlink "/home/a"]

/-- A file that was unlinked after it was opened comes back, with zeros for the bytes that were
written before. -/
theorem write_resurrects : ¬ ∀ calls : List FileCall, AtWrites
    (fun s fd buf => (run s (write fd buf)).fs.paths.kinds = s.fs.paths.kinds) start calls := by
  intro h
  have hk := congrFun (h (openThenUnlink ++ [write 3 [67]]) openThenUnlink 3 [67] [] rfl) ["home", "a"]
  have hafter : ((run (runAll start openThenUnlink) (write 3 [67])).fs.root.entryAt
      ["home", "a"]).map Entry.isDir = some false := by
    decide +kernel
  have hbefore : ((runAll start openThenUnlink).fs.root.entryAt
      ["home", "a"]).map Entry.isDir = none := by
    decide +kernel
  exact absurd (hafter.symm.trans (hk.trans hbefore)) (by simp)

end FileCall

end Zeronix
