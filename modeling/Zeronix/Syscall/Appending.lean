import Zeronix.Fs.Names
import Zeronix.Syscall.FdMap
import Zeronix.Syscall.RoundTrip

/-!
# Appending and reading

A file that is open for reading and with `APPEND`: a write goes to the end of the file, wherever
the cursor is, and a read starts at the cursor.  As long as the descriptor and the name of the
file stay (`FileCall.Stays`), calls through other descriptors may make the file longer or truncate
it, but it remains a file (`Holds.run`).

The write of the source does not move the cursor.  `append_cursor_iff` says in which runs this
makes no difference.
-/

namespace Zeronix

namespace FileCall

/-- The call neither closes or replaces the descriptor, nor changes which names there are by other
means than opening and writing. -/
def Stays (fd : Nat) : FileCall → Prop
  | openFile _ _ => True
  | close fd' => fd' ≠ fd
  | dup2 _ newFd => newFd ≠ fd
  | read _ _ => True
  | write _ _ => True
  | unlink _ => False
  | rename _ _ => False
  | mkdir _ => False

/-- A call of somebody else. -/
def Foreign (fd : Nat) (call : FileCall) : Prop :=
  call.Stays fd ∧ (∀ buf, call ≠ read fd buf) ∧ ∀ buf, call ≠ write fd buf

/-- `P` holds before each write through the descriptor. -/
def AtWritesOf (fd : Nat) (P : Files → List UInt8 → Prop) (s : Files) (calls : List FileCall) : Prop :=
  AtWrites (fun s fd' buf => fd' = fd → P s buf) s calls

end FileCall

/-! ### Files remain files -/

namespace PathMap

variable {m : PathMap} {p : List String} {d : List UInt8}

theorem file_edit (h : m.get p = some (.file d)) (path : String) (init : List UInt8)
    (f : List UInt8 → List UInt8) :
    ∃ d', (m.onTarget path (edit init f)).2.get p = some (.file d') := by
  rcases edit_cases m path init f with ⟨e, _, he⟩ | ⟨q, _, ⟨_, he⟩ | ⟨c, _, he⟩ | ⟨_, he⟩⟩
  · exact ⟨d, by rw [he]; exact h⟩
  · exact ⟨d, by rw [he]; exact h⟩
  all_goals
    by_cases hq : p = q
    · rw [he, hq]
      exact ⟨_, set_get_self _⟩
    · exact ⟨d, by rw [he, set_get_of_ne hq]; exact h⟩

end PathMap

namespace Files

variable {s : Files} {fd offset : Nat} {path : String} {flags : OpenFlags} {p : List String}
variable {d : List UInt8}

theorem file_openFile (h : s.fs.paths.get p = some (.file d)) (path : String) (flags : OpenFlags) :
    ∃ d', (s.openFile path flags).2.fs.paths.get p = some (.file d') := by
  have htouch : ∃ d', (if flags.contains .CREATE then s.fs.touch path else (.ok (), s.fs)).2.paths.get p =
      some (.file d') := by
    split
    · rw [(RamFs.touch_refines path s.fs).2]
      exact PathMap.file_edit h path [] id
    · exact ⟨d, h⟩
  rw [openFile]
  generalize (if flags.contains .CREATE then s.fs.touch path else (.ok (), s.fs)) = created at htouch
  obtain ⟨created, fs⟩ := created
  obtain ⟨d', hd'⟩ := htouch
  simp only
  cases created with
  | error e => exact ⟨d', hd'⟩
  | ok u =>
    simp only
    have hready : ∃ d', (if flags.contains .TRUNC then fs.write path []
        else if !flags.contains .CREATE then ((fs.read path).map fun _ => (), fs)
        else (.ok (), fs)).2.paths.get p = some (.file d') := by
      split
      · rw [(RamFs.write_refines path [] fs).2]
        exact PathMap.file_edit hd' path [] _
      · split
        · exact ⟨d', hd'⟩
        · exact ⟨d', hd'⟩
    generalize (if flags.contains .TRUNC then fs.write path []
        else if !flags.contains .CREATE then ((fs.read path).map fun _ => (), fs)
        else (.ok (), fs)) = ready at hready
    obtain ⟨ready, fs⟩ := ready
    cases ready with
    | error e => exact hready
    | ok u => exact hready

theorem file_write (h : s.fs.paths.get p = some (.file d)) (fd : Nat) (buf : List UInt8) :
    ∃ d', (s.write fd buf).2.fs.paths.get p = some (.file d') := by
  rw [write]
  split
  · exact ⟨d, h⟩
  · exact ⟨d, h⟩
  · exact ⟨d, h⟩
  · rename_i path offset flags _
    split
    · exact ⟨d, h⟩
    · obtain ⟨init, f, hpaths⟩ := s.writeFile_fs fd path offset flags buf
      rw [hpaths]
      exact PathMap.file_edit h path init f
  · exact ⟨d, h⟩

theorem table_openFile {file : OpenFile} (h : s.table.get fd = some file) (path : String)
    (flags : OpenFlags) : (s.openFile path flags).2.table.get fd = some file := by
  cases hopen : s.openFile path flags with
  | mk res s' =>
    cases res with
    | error e =>
      have hkeep := openFile_error (congrArg Prod.fst hopen)
      rw [hopen] at hkeep
      rw [hkeep]
      exact h
    | ok fd' =>
      obtain ⟨hfree, -, hget⟩ := FileDescriptorTable.insert_spec s.table (.file path 0 flags)
      rw [openFile_ok hopen] at hfree hget
      have hne : fd ≠ fd' := by
        rintro rfl
        rw [h] at hfree
        cases hfree
      rw [hget, Function.update_of_ne hne]
      exact h

namespace Holds

/-- **One append**: the bytes go to the end of the file, and the cursor stays. -/
theorem append (h : s.Holds fd path flags p offset d) (hw : flags.contains .WRITE = true)
    (ha : flags.contains .APPEND = true) (buf : List UInt8) :
    (s.write fd buf).1 = .ok buf.length ∧
    (s.write fd buf).2.Holds fd path flags p offset (d ++ buf) := by
  have htarget := RamFs.target_of_get h.split h.ne h.content
  obtain ⟨hres, hpaths⟩ := RamFs.append_refines path buf s.fs
  rw [PathMap.append] at hres hpaths
  rcases PathMap.edit_cases s.fs.paths path buf (· ++ buf) with
    ⟨e, ht, _⟩ | ⟨q, ht, hq⟩
  · rw [htarget] at ht
    cases ht
  · rw [htarget] at ht
    cases ht
    have hfile : s.fs.paths.onTarget path (PathMap.edit buf (· ++ buf)) =
        (.ok (), s.fs.paths.set p (some (.file (d ++ buf)))) := by
      rcases hq with ⟨hp, _⟩ | ⟨c, hp, he⟩ | ⟨hp, _⟩
      · rw [h.content] at hp
        cases hp
      · rw [h.content] at hp
        cases hp
        exact he
      · rw [h.content] at hp
        cases hp
    rw [hfile] at hres hpaths
    have hwrite := write_append h.entry hw ha buf
    refine ⟨?_, h.split, h.ne, ?_, ?_⟩
    · simp only [Files.write, h.entry, writeFile, hw, ha]
      generalize s.fs.append path buf = r at hres
      obtain ⟨r, fs⟩ := r
      cases hres
      rfl
    · rw [hwrite]
      exact h.entry
    · rw [hwrite]
      show (s.fs.append path buf).2.paths.get p = _
      rw [hpaths, PathMap.set_get_self]

theorem foreign {call : FileCall} (h : s.Holds fd path flags p offset d) (hcall : call.Foreign fd) :
    ∃ d', (call.run s).Holds fd path flags p offset d' := by
  obtain ⟨hstays, hread, hwrite⟩ := hcall
  suffices hkeep : (call.run s).table.get fd = s.table.get fd ∧
      ∃ d', (call.run s).fs.paths.get p = some (.file d') by
    obtain ⟨htable, d', hd'⟩ := hkeep
    exact ⟨d', h.split, h.ne, htable.trans h.entry, hd'⟩
  cases call with
  | openFile path' flags' =>
    exact ⟨(table_openFile h.entry path' flags').trans h.entry.symm, file_openFile h.content path' flags'⟩
  | close fd' =>
    refine ⟨?_, d, h.content⟩
    show (s.table.close fd').2.get fd = s.table.get fd
    rw [FileDescriptorTable.close]
    split
    · rfl
    · exact FileDescriptorTable.get_set_of_ne (Ne.symm hstays)
  | dup2 oldFd newFd =>
    refine ⟨?_, d, h.content⟩
    show (s.table.dup2 oldFd newFd).2.get fd = s.table.get fd
    cases hold : s.table.get oldFd with
    | none => rw [FileDescriptorTable.dup2, hold]
    | some file => rw [FileDescriptorTable.dup2_spec hold, Function.update_of_ne (Ne.symm hstays)]
  | read fd' buf =>
    have hne : fd ≠ fd' := by
      rintro rfl
      exact hread buf rfl
    have hget : (OtherCall.run s (.read fd' buf)).table.get fd = s.table.get fd := table_other hne
    refine ⟨hget, d, ?_⟩
    show (s.read fd' buf).2.2.fs.paths.get p = _
    rw [fs_read]
    exact h.content
  | write fd' buf =>
    have hne : fd ≠ fd' := by
      rintro rfl
      exact hwrite buf rfl
    have hget : (OtherCall.run s (.write fd' buf)).table.get fd = s.table.get fd := table_other hne
    exact ⟨hget, file_write h.content fd' buf⟩
  | unlink path' => exact hstays.elim
  | rename old new => exact hstays.elim
  | mkdir path' => exact hstays.elim

theorem foreign_run {calls : List FileCall} (h : s.Holds fd path flags p offset d)
    (hcalls : ∀ call ∈ calls, call.Foreign fd) :
    ∃ d', (FileCall.runAll s calls).Holds fd path flags p offset d' := by
  induction calls generalizing s d with
  | nil => exact ⟨d, h⟩
  | cons call calls ih =>
    obtain ⟨d', h'⟩ := h.foreign (hcalls call List.mem_cons_self)
    exact ih h' fun c hc => hcalls c (List.mem_cons_of_mem call hc)

/-- **The file stays open**, with some cursor and some bytes, whoever calls. -/
theorem run (hr : flags.contains .READ = true) (hw : flags.contains .WRITE = true)
    (ha : flags.contains .APPEND = true) {calls : List FileCall}
    (h : s.Holds fd path flags p offset d) (hcalls : ∀ call ∈ calls, call.Stays fd) :
    ∃ offset' d', (FileCall.runAll s calls).Holds fd path flags p offset' d' := by
  induction calls generalizing s offset d with
  | nil => exact ⟨offset, d, h⟩
  | cons call calls ih =>
    have hrest : ∀ c ∈ calls, c.Stays fd := fun c hc => hcalls c (List.mem_cons_of_mem call hc)
    by_cases hread : ∃ buf, call = .read fd buf
    · obtain ⟨buf, rfl⟩ := hread
      exact ih (h.read hr buf).2.2 hrest
    · by_cases hwrite : ∃ buf, call = .write fd buf
      · obtain ⟨buf, rfl⟩ := hwrite
        exact ih (h.append hw ha buf).2 hrest
      · obtain ⟨d', h'⟩ := h.foreign ⟨hcalls call List.mem_cons_self, not_exists.mp hread,
          not_exists.mp hwrite⟩
        exact ih h' hrest

end Holds

/-- The path names a file that can be opened. -/
def Names (fs : RamFs) (path : String) (p : List String) : Prop :=
  splitPath path = .ok p ∧ p ≠ [] ∧ ∃ d, fs.paths.get p = some (.file d)

theorem names_of_edit {fs fs' : RamFs} {init : List UInt8} {f : List UInt8 → List UInt8}
    (hres : (fs.paths.onTarget path (PathMap.edit init f)).1 = .ok ())
    (hpaths : fs'.paths = (fs.paths.onTarget path (PathMap.edit init f)).2) :
    ∃ p, Names fs' path p := by
  rcases PathMap.edit_cases fs.paths path init f with ⟨e, _, he⟩ | ⟨p, ht, ⟨_, he⟩ | ⟨c, _, he⟩ | ⟨_, he⟩⟩
  · rw [he] at hres
    cases hres
  · rw [he] at hres
    cases hres
  all_goals
    obtain ⟨hsplit, hne⟩ := PathMap.split_of_target ht
    refine ⟨p, hsplit, hne, ?_⟩
    rw [hpaths, he]
    exact ⟨_, PathMap.set_get_self _⟩

theorem names_of_touch {fs fs' : RamFs} (h : fs.touch path = (.ok (), fs')) : ∃ p, Names fs' path p := by
  obtain ⟨hres, hpaths⟩ := RamFs.touch_refines path fs
  rw [h] at hres hpaths
  exact names_of_edit hres.symm hpaths

theorem names_of_write {fs fs' : RamFs} {data : List UInt8} (h : fs.write path data = (.ok (), fs')) :
    ∃ p, Names fs' path p := by
  obtain ⟨hres, hpaths⟩ := RamFs.write_refines path data fs
  rw [h] at hres hpaths
  exact names_of_edit hres.symm hpaths

theorem names_of_read {fs : RamFs} {data : List UInt8} (hroot : fs.Rooted)
    (h : fs.read path = .ok data) : ∃ p, Names fs path p := by
  cases hs : splitPath path with
  | error e =>
    rw [RamFs.read, Node.read, hs] at h
    cases h
  | ok p =>
    rw [RamFs.read, Node.read, hs] at h
    simp only [bind, Except.bind] at h
    cases hw : fs.root.walk p with
    | error e =>
      rw [hw] at h
      cases h
    | ok node =>
      rw [hw] at h
      cases node with
      | dir es => cases h
      | file content =>
        have hget : fs.paths.get p = some (.file content) := Node.entryAt_eq_file.mpr hw
        refine ⟨p, hs, ?_, content, hget⟩
        rintro rfl
        rw [hroot] at hget
        cases hget

theorem names_of_created {fs₀ fs : RamFs}
    (h : (if flags.contains .CREATE then fs₀.touch path else (.ok (), fs₀)) = (.ok (), fs)) :
    (flags.contains .CREATE = true → ∃ p, Names fs path p) ∧
      (flags.contains .CREATE = false → fs = fs₀) := by
  split at h
  · rename_i hc
    exact ⟨fun _ => names_of_touch h, fun hc' => absurd hc (by simp [hc'])⟩
  · rename_i hc
    cases h
    exact ⟨fun hc' => absurd hc' hc, fun _ => rfl⟩

theorem openFile_holds {s₀ : Files} (hroot : s₀.fs.Rooted) (h : s₀.openFile path flags = (.ok fd, s)) :
    ∃ p d, s.Holds fd path flags p 0 d := by
  have hentry : s.table.get fd = some (.file path 0 flags) := by
    have hget := @FileDescriptorTable.get_insert s₀.table (.file path 0 flags)
    rw [openFile_ok h] at hget
    exact hget
  suffices hnames : ∃ p, Names s.fs path p by
    obtain ⟨p, hsplit, hne, d, hd⟩ := hnames
    exact ⟨p, d, hsplit, hne, hentry, hd⟩
  rw [openFile] at h
  generalize hcreated : (if flags.contains .CREATE then s₀.fs.touch path else (.ok (), s₀.fs)) = created
    at h
  obtain ⟨created, fs⟩ := created
  cases created with
  | error e => cases h
  | ok u =>
    obtain ⟨hmade, hsame⟩ := names_of_created hcreated
    simp only at h
    by_cases ht : flags.contains .TRUNC = true
    · rw [if_pos ht] at h
      cases hw : fs.write path [] with
      | mk res fs' =>
        rw [hw] at h
        cases res with
        | error e => cases h
        | ok u =>
          cases h
          exact names_of_write hw
    · rw [if_neg ht] at h
      cases hc : flags.contains .CREATE with
      | true =>
        rw [hc] at h
        cases h
        exact hmade hc
      | false =>
        rw [hc] at h
        cases hr : fs.read path with
        | error e =>
          rw [hr] at h
          cases h
        | ok data =>
          rw [hr] at h
          cases h
          exact names_of_read (hsame hc ▸ hroot) hr

/-! ### What an append does to the cursor -/

/-- What an append should do: the bytes go to the end of the file as it is, the cursor stands right
behind them, and a read that follows, whatever others do in between, returns bytes that were added
later only. -/
def Appends (s : Files) (fd : Nat) (path : String) (flags : OpenFlags) (p : List String)
    (buf : List UInt8) : Prop :=
  ∃ d, s.fs.paths.get p = some (.file d) ∧ (s.write fd buf).1 = .ok buf.length ∧
    (s.write fd buf).2.Holds fd path flags p (d.length + buf.length) (d ++ buf) ∧
    ∀ calls, (∀ call ∈ calls, call.Foreign fd) →
      ∃ d', (FileCall.runAll (s.write fd buf).2 calls).fs.paths.get p = some (.file d') ∧
        ∀ into, got (readOwn fd (FileCall.runAll (s.write fd buf).2 calls) into).1 =
          (d'.drop (d ++ buf).length).take into.length

/-- The cursor is where the end of the file will be once the bytes are added. -/
def Ahead (s : Files) (fd : Nat) (p : List String) (buf : List UInt8) : Prop :=
  ∃ path offset flags d, s.table.get fd = some (.file path offset flags) ∧
    s.fs.paths.get p = some (.file d) ∧ offset = d.length + buf.length

theorem Holds.appends_iff (h : s.Holds fd path flags p offset d) (hr : flags.contains .READ = true)
    (hw : flags.contains .WRITE = true) (ha : flags.contains .APPEND = true) (buf : List UInt8) :
    s.Appends fd path flags p buf ↔ s.Ahead fd p buf := by
  obtain ⟨hres, hafter⟩ := h.append hw ha buf
  constructor
  · rintro ⟨d', hd', _, hcursor, _⟩
    rw [h.content] at hd'
    cases hd'
    have hentry := hcursor.entry
    rw [hafter.entry] at hentry
    cases hentry
    exact ⟨path, _, flags, d, h.entry, h.content, rfl⟩
  · rintro ⟨path', offset', flags', d', hentry, hd', hoffset⟩
    rw [h.entry] at hentry
    rw [h.content] at hd'
    cases hentry
    cases hd'
    rw [hoffset] at hafter
    refine ⟨d, h.content, hres, hafter, fun calls hcalls => ?_⟩
    obtain ⟨d', hlater⟩ := hafter.foreign_run hcalls
    refine ⟨d', hlater.content, fun into => ?_⟩
    rw [List.length_append]
    exact (hlater.read hr into).2.1

/-- **An append moves the cursor to the end** in a run in which the cursor is there before each
append already, and in no other run: the source leaves it where it is. -/
theorem append_cursor_iff {s₀ : Files} (hroot : s₀.fs.Rooted)
    (hopen : s₀.openFile path flags = (.ok fd, s)) (hr : flags.contains .READ = true)
    (hw : flags.contains .WRITE = true) (ha : flags.contains .APPEND = true) :
    ∃ p, splitPath path = .ok p ∧ ∀ calls, (∀ call ∈ calls, FileCall.Stays fd call) →
      (FileCall.AtWritesOf fd (fun s buf => s.Appends fd path flags p buf) s calls ↔
        FileCall.AtWritesOf fd (fun s buf => s.Ahead fd p buf) s calls) := by
  obtain ⟨p, d, hstart⟩ := openFile_holds hroot hopen
  refine ⟨p, hstart.split, fun calls hcalls => ?_⟩
  have hbefore : ∀ before buf rest, calls = before ++ .write fd buf :: rest →
      ((FileCall.runAll s before).Appends fd path flags p buf ↔ (FileCall.runAll s before).Ahead fd p buf) := by
    intro before buf rest heq
    have hstays : ∀ call ∈ before, FileCall.Stays fd call := fun call hcall =>
      hcalls call (heq ▸ List.mem_append_left _ hcall)
    obtain ⟨offset, d', hthen⟩ := hstart.run hr hw ha hstays
    exact hthen.appends_iff hr hw ha buf
  constructor
  · rintro h before fd' buf rest heq rfl
    exact (hbefore before buf rest heq).mp (h before fd' buf rest heq rfl)
  · rintro h before fd' buf rest heq rfl
    exact (hbefore before buf rest heq).mpr (h before fd' buf rest heq rfl)

/-- The flags of a log that is also read. -/
def logFlags : OpenFlags := .CREATE ||| .READ ||| .WRITE ||| .APPEND

/-- A log that is read to its end and then truncated by somebody else. -/
def truncatedLog : List FileCall :=
  [.openFile "/home/log" .WRITE, .write 4 [65], .read 3 [0], .openFile "/home/log" (.WRITE ||| .TRUNC),
    .write 3 [66]]

/-- The one append of the run finds the cursor where it should leave it. -/
theorem append_cursor_truncated : ∃ s, FileCall.start.openFile "/home/log" logFlags = (.ok 3, s) ∧
    FileCall.AtWritesOf 3 (fun s buf => s.Appends 3 "/home/log" logFlags ["home", "log"] buf) s
      truncatedLog := by
  have hres : (FileCall.start.openFile "/home/log" logFlags).1 = .ok 3 := by decide +kernel
  refine ⟨_, Prod.ext hres rfl, ?_⟩
  obtain ⟨p, hp, hiff⟩ := append_cursor_iff RamFs.Reached.new.rooted (Prod.ext hres rfl) (by decide)
    (by decide) (by decide)
  have hsplit : splitPath "/home/log" = .ok ["home", "log"] := by decide +kernel
  rw [hsplit] at hp
  cases hp
  refine (hiff truncatedLog (by simp [truncatedLog, FileCall.Stays])).mpr ?_
  rintro before fd' buf rest heq rfl
  have hbefore : before = truncatedLog.take 4 ∧ buf = [66] := by
    unfold truncatedLog at heq ⊢
    rcases before with _ | ⟨a, _ | ⟨b, _ | ⟨c, _ | ⟨e, _ | ⟨f, before⟩⟩⟩⟩⟩
    all_goals simp_all
  obtain ⟨rfl, rfl⟩ := hbefore
  have hcontent : (FileCall.runAll (FileCall.start.openFile "/home/log" logFlags).2
      (truncatedLog.take 4)).fs.root.entryAt ["home", "log"] = some (.file []) := by
    decide +kernel
  exact ⟨"/home/log", 1, logFlags, [], by decide +kernel, hcontent, rfl⟩

/-- After one append the cursor is still at the start, so that the next read would return the byte
that was just written. -/
theorem append_keeps_cursor : ¬ ∀ (s₀ s : Files) (path : String) (flags : OpenFlags) (fd : Nat),
    s₀.fs.Rooted → s₀.openFile path flags = (.ok fd, s) → flags.contains .READ = true →
    flags.contains .WRITE = true → flags.contains .APPEND = true →
    ∃ p, splitPath path = .ok p ∧ ∀ calls, (∀ call ∈ calls, FileCall.Stays fd call) →
      FileCall.AtWritesOf fd (fun s buf => s.Appends fd path flags p buf) s calls := by
  intro h
  have hres : (FileCall.start.openFile "/home/log" logFlags).1 = .ok 3 := by decide +kernel
  have hkept : ((FileCall.start.openFile "/home/log" logFlags).2.write 3 [65]).2.table.get 3 =
      some (.file "/home/log" 0 logFlags) := by
    decide +kernel
  generalize hopen : FileCall.start.openFile "/home/log" logFlags = opened at hres hkept
  obtain ⟨res, s⟩ := opened
  cases hres
  obtain ⟨p, _, hall⟩ := h FileCall.start s "/home/log" logFlags 3 RamFs.Reached.new.rooted hopen
    (by decide) (by decide) (by decide)
  obtain ⟨d, _, _, hcursor, _⟩ := hall [.write 3 [65]] (by simp [FileCall.Stays]) [] 3 [65] [] rfl rfl
  have hentry := hcursor.entry.symm.trans hkept
  simp at hentry

end Files

end Zeronix
