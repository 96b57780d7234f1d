import Zeronix.Syscall.Cursors

/-!
# Opening files

`FileDescriptorTable::open` finds out in one of three ways whether its path names a file:
`touch` with `CREATE`, `write` with `TRUNC`, and `read` with neither of the two.  Of these `read`
alone never makes an entry.  `open_without_create_iff` says when an `open` without `CREATE` still
answers as `read` does.
-/

namespace Zeronix

namespace RamFs

variable {fs : RamFs} {path : String} {p : List String} {e : FsError}

theorem read_of_target_error (h : fs.paths.target path = .error e) (hroot : splitPath path ≠ .ok []) :
    fs.read path = .error e := by
  rw [RamFs.read, Node.read]
  rw [PathMap.target] at h
  cases hs : splitPath path with
  | error e' =>
    rw [hs] at h
    cases h
    rfl
  | ok parts =>
    rcases List.eq_nil_or_concat parts with rfl | ⟨q, name, rfl⟩
    · exact absurd hs hroot
    · rw [List.concat_eq_append] at hs ⊢
      simp only [hs, bind, Except.bind, List.append_eq_nil_iff,
        List.cons_ne_nil, and_false, if_false, List.dropLast_concat, fs.lookup_paths] at h
      simp only [bind, Except.bind, Node.walk_append]
      cases hw : fs.root.walk q with
      | error e' =>
        rw [hw] at h
        cases h
        rfl
      | ok n =>
        rw [hw] at h
        cases n with
        | file content =>
          cases h
          rfl
        | dir es => cases h

theorem read_of_dir (hs : splitPath path = .ok p) (h : fs.paths.get p = some .dir) :
    fs.read path = .error .isDirectory := by
  have hget : fs.root.entryAt p = some .dir := h
  rw [Node.entryAt] at hget
  rw [RamFs.read, Node.read, hs]
  simp only [bind, Except.bind]
  cases hw : fs.root.walk p with
  | error e =>
    rw [hw] at hget
    cases hget
  | ok n =>
    rw [hw] at hget
    cases n with
    | file content => cases hget
    | dir es => rfl

/-- The path is the root directory, or names nothing while its parent is a directory. -/
def Vacant (fs : RamFs) (path : String) : Prop :=
  (splitPath path = .ok [] ∧ fs.paths.get [] = some .dir) ∨
    ∃ p, fs.paths.target path = .ok p ∧ fs.paths.get p = none

theorem not_vacant_of_get {entry : Entry} (ht : fs.paths.target path = .ok p)
    (h : fs.paths.get p = some entry) : ¬ fs.Vacant path := by
  obtain ⟨hs, hne⟩ := PathMap.split_of_target ht
  rintro (⟨hroot, _⟩ | ⟨q, ht', hq⟩)
  · exact hne (Except.ok.inj (hs.symm.trans hroot))
  · rw [ht] at ht'
    cases ht'
    rw [h] at hq
    cases hq

theorem target_of_root (h : splitPath path = .ok []) : fs.paths.target path = .error .invalidPath := by
  rw [PathMap.target, h]
  rfl

end RamFs

namespace Files

variable {s : Files} {path : String} {flags : OpenFlags}

/-- The `open` makes and removes no entry, and on a path that is no file it fails as a `read` of
the path does and changes nothing. -/
structure OpensExisting (s : Files) (path : String) (flags : OpenFlags) : Prop where
  existing : ∀ p, (s.openFile path flags).2.fs.paths.get p = none ↔ s.fs.paths.get p = none
  missing : ∀ e, s.fs.read path = .error e → s.openFile path flags = (.error (.fs e), s)

theorem openFile_eq_read (hc : flags.contains .CREATE = false) (ht : flags.contains .TRUNC = false)
    (s : Files) (path : String) : s.openFile path flags = match s.fs.read path with
      | .error e => (.error (.fs e), s)
      | .ok _ => (.ok (s.table.insert (.file path 0 flags)).1,
          { s with table := (s.table.insert (.file path 0 flags)).2 }) := by
  cases hread : s.fs.read path with
  | error e => simp [openFile, hc, ht, hread, Except.map]
  | ok d => simp [openFile, hc, ht, hread, Except.map]

theorem openFile_eq_write (hc : flags.contains .CREATE = false) (ht : flags.contains .TRUNC = true)
    (s : Files) (path : String) : s.openFile path flags = match (s.fs.write path []).1 with
      | .error e => (.error (.fs e), { s with fs := (s.fs.write path []).2 })
      | .ok () => (.ok (s.table.insert (.file path 0 flags)).1,
          { fs := (s.fs.write path []).2, table := (s.table.insert (.file path 0 flags)).2 }) := by
  cases hwrite : (s.fs.write path []).1 with
  | error e => simp [openFile, hc, ht, hwrite]
  | ok u => simp [openFile, hc, ht, hwrite]

theorem opensExisting_read (hc : flags.contains .CREATE = false) (ht : flags.contains .TRUNC = false) :
    s.OpensExisting path flags := by
  have hopen := openFile_eq_read hc ht s path
  cases hr : s.fs.read path with
  | error e =>
    rw [hr] at hopen
    refine ⟨fun p => by rw [hopen], fun e' he' => ?_⟩
    rw [hr] at he'
    cases he'
    exact hopen
  | ok d =>
    rw [hr] at hopen
    refine ⟨fun p => by rw [hopen], fun e' he' => ?_⟩
    rw [hr] at he'
    cases he'

theorem opensExisting_of_write_error {e : FsError} (hc : flags.contains .CREATE = false)
    (ht : flags.contains .TRUNC = true) (hw : (s.fs.write path []).1 = .error e) :
    s.OpensExisting path flags ↔ ∀ e', s.fs.read path = .error e' → e' = e := by
  have hopen := openFile_eq_write hc ht s path
  have hkeep : (s.fs.write path []).2 = s.fs := RamFs.write_error hw
  rw [hw, hkeep] at hopen
  constructor
  · intro h e' he'
    have hmiss := h.missing e' he'
    rw [hopen] at hmiss
    cases hmiss
    rfl
  · intro h
    refine ⟨fun p => by rw [hopen], fun e' he' => ?_⟩
    rw [h e' he']
    exact hopen

theorem opensExisting_root (hc : flags.contains .CREATE = false) (ht : flags.contains .TRUNC = true)
    (hroot : splitPath path = .ok []) (hw : (s.fs.write path []).1 = .error .invalidPath) :
    s.OpensExisting path flags ↔ ¬ s.fs.Vacant path := by
  rw [opensExisting_of_write_error hc ht hw]
  constructor
  · rintro h (⟨_, hdir⟩ | ⟨p, htgt, _⟩)
    · exact absurd (h _ (RamFs.read_of_dir hroot hdir)) (by simp)
    · rw [RamFs.target_of_root hroot] at htgt
      cases htgt
  · intro h e' he'
    cases hget : s.fs.paths.get [] with
    | none => cases hget
    | some entry =>
      cases entry with
      | dir => exact absurd (Or.inl ⟨hroot, hget⟩) h
      | file d =>
        rw [RamFs.read_of_get hroot hget] at he'
        cases he'

theorem opensExisting_file {p : List String} {d : List UInt8} (hc : flags.contains .CREATE = false)
    (ht : flags.contains .TRUNC = true) (htgt : s.fs.paths.target path = .ok p)
    (hp : s.fs.paths.get p = some (.file d)) (hres : (s.fs.write path []).1 = .ok ())
    (hpaths : (s.fs.write path []).2.paths = s.fs.paths.set p (some (.file []))) :
    s.OpensExisting path flags := by
  have hopen := openFile_eq_write hc ht s path
  rw [hres] at hopen
  refine ⟨fun q => ?_, fun e' he' => ?_⟩
  · rw [hopen, hpaths]
    by_cases hq : q = p
    · rw [hq, PathMap.set_get_self, hp]
      simp
    · rw [PathMap.set_get_of_ne hq]
  · rw [RamFs.read_of_get (PathMap.split_of_target htgt).1 hp] at he'
    cases he'

/-- **`open` without `CREATE`** answers as `read` does and makes no entry exactly when it does not
truncate a vacant path: there it makes the file, or has another error for the root. -/
theorem open_without_create_iff (s : Files) (path : String) (flags : OpenFlags)
    (hc : flags.contains .CREATE = false) :
    s.OpensExisting path flags ↔ flags.contains .TRUNC = false ∨ ¬ s.fs.Vacant path := by
  by_cases ht : flags.contains .TRUNC = false
  · exact iff_of_true (opensExisting_read hc ht) (Or.inl ht)
  simp only [Bool.not_eq_false] at ht
  obtain ⟨hres, hpaths⟩ := RamFs.write_refines path [] s.fs
  rw [PathMap.write] at hres hpaths
  rw [ht]
  simp only [Bool.true_eq_false, false_or]
  rcases PathMap.edit_cases s.fs.paths path [] (fun _ => []) with
    ⟨e, htgt, hw⟩ | ⟨p, htgt, ⟨hp, hw⟩ | ⟨c, hp, hw⟩ | ⟨hp, hw⟩⟩
  · rw [hw] at hres
    by_cases hroot : splitPath path = .ok []
    · rw [RamFs.target_of_root hroot] at htgt
      cases htgt
      exact opensExisting_root hc ht hroot hres
    · rw [opensExisting_of_write_error hc ht hres]
      refine iff_of_true (fun e' he' => ?_) ?_
      · rw [RamFs.read_of_target_error htgt hroot] at he'
        cases he'
        rfl
      · rintro (⟨h, _⟩ | ⟨p, htgt', _⟩)
        · exact hroot h
        · rw [htgt] at htgt'
          cases htgt'
  · -- a directory is refused by both
    rw [hw] at hres
    rw [opensExisting_of_write_error hc ht hres]
    refine iff_of_true (fun e' he' => ?_) (RamFs.not_vacant_of_get htgt hp)
    rw [RamFs.read_of_dir (PathMap.split_of_target htgt).1 hp] at he'
    cases he'
    rfl
  · rw [hw] at hres hpaths
    exact iff_of_true (opensExisting_file hc ht htgt hp hres hpaths) (RamFs.not_vacant_of_get htgt hp)
  · -- the truncation makes the file
    rw [hw] at hres hpaths
    have hopen := openFile_eq_write hc ht s path
    rw [hres] at hopen
    refine iff_of_false (fun h => ?_) (not_not.mpr (Or.inr ⟨p, htgt, hp⟩))
    have hafter := (h.existing p).mpr hp
    rw [hopen, hpaths, PathMap.set_get_self] at hafter
    cases hafter

/-- A file that is opened for reading, after it was made. -/
theorem open_without_create_reads : (opened (.CREATE ||| .WRITE)).OpensExisting "/home/out" .READ :=
  (open_without_create_iff (opened (.CREATE ||| .WRITE)) "/home/out" .READ (by decide)).mpr
    (Or.inl (by decide))

/-- Opening a name that does not exist to write it, with `TRUNC` and without `CREATE`, makes the
file. -/
theorem open_trunc_creates : ¬ ∀ (s : Files) (path : String) (flags : OpenFlags),
    flags.contains .CREATE = false → s.OpensExisting path flags := by
  intro h
  have hopen := (h FileCall.start "/home/new" (.WRITE ||| .TRUNC) (by decide)).existing ["home", "new"]
  have hbefore : FileCall.start.fs.root.entryAt ["home", "new"] = none := by decide +kernel
  have hafter : ((FileCall.start.openFile "/home/new" (.WRITE ||| .TRUNC)).2.fs.root.entryAt
      ["home", "new"]).isSome = true := by decide +kernel
  rw [show (FileCall.start.openFile "/home/new" (.WRITE ||| .TRUNC)).2.fs.root.entryAt
    ["home", "new"] = none from hopen.mpr hbefore] at hafter
  cases hafter

end Files

end Zeronix
