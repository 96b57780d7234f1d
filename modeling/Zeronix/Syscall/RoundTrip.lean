import Mathlib.Algebra.GroupWithZero.Nat
import Zeronix.Syscall.Cursors

/-!
# Writing a file and reading it back

A process writes a file chunk by chunk, closes it, opens it again and reads it buffer by buffer,
with calls on other files in between.  `session` is the run of such calls, `Apart` says that the
calls in between go to other files, and `file_round_trip` that the bytes come back in order.

Both phases rest on `Holds`: the descriptor has its cursor, the path names a file with its
content, and a call on another file keeps the two (`Holds.other`).
-/

namespace Zeronix

/-- A call in between. -/
inductive OtherCall where
  | read (fd : Nat) (buf : List UInt8)
  | write (fd : Nat) (buf : List UInt8)

namespace OtherCall

def fd : OtherCall → Nat
  | read fd _ => fd
  | write fd _ => fd

def run (s : Files) : OtherCall → Files
  | read fd buf => (s.read fd buf).2.2
  | write fd buf => (s.write fd buf).2

/-- The call does not go to a descriptor of the file. -/
def Elsewhere (s : Files) (path : String) (call : OtherCall) : Prop :=
  ∀ path' offset flags, s.table.get call.fd = some (.file path' offset flags) →
    splitPath path' ≠ splitPath path

end OtherCall

/-- A chunk or a buffer of the process itself, or a call in between. -/
inductive Io where
  | own (buf : List UInt8)
  | other (call : OtherCall)

namespace Io

/-- The chunks or buffers of the process itself. -/
def bufs : List Io → List (List UInt8)
  | [] => []
  | own buf :: ios => buf :: bufs ios
  | other _ :: ios => bufs ios

end Io

namespace Files

section Session

variable {α : Type} (own : Files → List UInt8 → α × Files)

/-- The answers of the process's own calls, and the state after. -/
def session : Files → List Io → List α × Files
  | s, [] => ([], s)
  | s, .own buf :: ios =>
    ((own s buf).1 :: (session (own s buf).2 ios).1, (session (own s buf).2 ios).2)
  | s, .other call :: ios => session (call.run s) ios

/-- All calls in between go to other files. -/
def Apart (path : String) : Files → List Io → Prop
  | _, [] => True
  | s, .own buf :: ios => Apart path (own s buf).2 ios
  | s, .other call :: ios => call.Elsewhere s path ∧ Apart path (call.run s) ios

end Session

def writeOwn (fd : Nat) (s : Files) (buf : List UInt8) : Except FdError Nat × Files := s.write fd buf

/-- The answer of a read and the buffer after it. -/
def readOwn (fd : Nat) (s : Files) (buf : List UInt8) : (Except FdError Nat × List UInt8) × Files :=
  (((s.read fd buf).1, (s.read fd buf).2.1), (s.read fd buf).2.2)

/-- The bytes that a read has put into its buffer. -/
def got : Except FdError Nat × List UInt8 → List UInt8
  | (.ok n, buf) => buf.take n
  | (.error _, _) => []

/-! ### Calls on other files -/

variable {s : Files} {path : String} {p : List String} {d : List UInt8}

theorem fs_read (s : Files) (fd : Nat) (buf : List UInt8) : (s.read fd buf).2.2.fs = s.fs := by
  rw [read]
  split
  · rfl
  · rfl
  · split
    · rfl
    · split <;> rfl
  · rfl
  · rfl

theorem get_other {call : OtherCall} (hs : splitPath path = .ok p) (h : call.Elsewhere s path) :
    (call.run s).fs.paths.get p = s.fs.paths.get p := by
  cases call with
  | read fd buf =>
    show (s.read fd buf).2.2.fs.paths.get p = s.fs.paths.get p
    rw [fs_read]
  | write fd buf =>
    show (s.write fd buf).2.fs.paths.get p = s.fs.paths.get p
    rw [write]
    split
    · rfl
    · rfl
    · rfl
    · rename_i path' offset flags hfd
      split
      · rfl
      · obtain ⟨init, f, hpaths⟩ := s.writeFile_fs fd path' offset flags buf
        rw [hpaths]
        exact RamFs.get_edit_of_ne (hs ▸ h path' offset flags hfd)
    · rfl

theorem table_other {call : OtherCall} {fd : Nat} (h : fd ≠ call.fd) :
    (call.run s).table.get fd = s.table.get fd := by
  cases call with
  | read fd' buf =>
    show (s.read fd' buf).2.2.table.get fd = s.table.get fd
    rw [read]
    split
    · rfl
    · exact FileDescriptorTable.get_set_of_ne h
    · split
      · rfl
      · split
        · rfl
        · exact FileDescriptorTable.get_set_of_ne h
    · rfl
    · rfl
  | write fd' buf =>
    show (s.write fd' buf).2.table.get fd = s.table.get fd
    rw [write]
    split
    · rfl
    · exact FileDescriptorTable.get_set_of_ne h
    · exact FileDescriptorTable.get_set_of_ne h
    · split
      · rfl
      · rw [writeFile]
        split
        · split <;> rfl
        · split
          · rfl
          · exact FileDescriptorTable.get_set_of_ne h
    · rfl

/-- A descriptor with its cursor, and the content of its file. -/
structure Holds (s : Files) (fd : Nat) (path : String) (flags : OpenFlags) (p : List String)
    (offset : Nat) (d : List UInt8) : Prop where
  split : splitPath path = .ok p
  ne : p ≠ []
  entry : s.table.get fd = some (.file path offset flags)
  content : s.fs.paths.get p = some (.file d)

namespace Holds

variable {fd offset : Nat} {flags : OpenFlags}

theorem other {call : OtherCall} (h : s.Holds fd path flags p offset d)
    (hcall : call.Elsewhere s path) : (call.run s).Holds fd path flags p offset d where
  split := h.split
  ne := h.ne
  entry := by
    have hne : fd ≠ call.fd := by
      rintro rfl
      exact hcall path offset flags h.entry rfl
    rw [table_other hne]
    exact h.entry
  content := (get_other h.split hcall).trans h.content

/-- **One write.** -/
theorem write (h : s.Holds fd path flags p offset d) (hw : flags.contains .WRITE = true)
    (ha : flags.contains .APPEND = false) (buf : List UInt8) :
    (s.write fd buf).1 = .ok buf.length ∧
    (s.write fd buf).2.Holds fd path flags p (offset + buf.length) (spliced d offset buf) := by
  obtain ⟨hres, htab, hpaths⟩ := write_file h.entry hw ha
    (RamFs.writable_of_get h.split h.ne h.content) buf
  refine ⟨hres, h.split, h.ne, ?_, ?_⟩
  · rw [htab]
    exact FileDescriptorTable.get_set_self (FileDescriptorTable.lt_of_get h.entry)
  · rw [hpaths, PathMap.set_get_self, h.content]
    rfl

/-- **One read.** -/
theorem read (h : s.Holds fd path flags p offset d) (hr : flags.contains .READ = true)
    (buf : List UInt8) :
    (readOwn fd s buf).1.1 = .ok (min buf.length (d.length - offset)) ∧
    got (readOwn fd s buf).1 = (d.drop offset).take buf.length ∧
    (readOwn fd s buf).2.Holds fd path flags p (offset + min buf.length (d.length - offset)) d := by
  rw [readOwn, read_file h.entry hr h.split h.content buf]
  refine ⟨rfl, ?_, h.split, h.ne, ?_, h.content⟩
  · have hlen : ((d.drop offset).take buf.length).length = min buf.length (d.length - offset) := by
      rw [List.length_take, List.length_drop]
    rw [got, List.take_append_of_le_length (by omega), List.take_of_length_le (by omega)]
  · exact FileDescriptorTable.get_set_self (FileDescriptorTable.lt_of_get h.entry)

/-! ### The two phases -/

/-- **Chunks written from the end on are appended in order.** -/
theorem writes (hw : flags.contains .WRITE = true) (ha : flags.contains .APPEND = false)
    {ios : List Io} (h : s.Holds fd path flags p d.length d)
    (hapart : Apart (writeOwn fd) path s ios) :
    (session (writeOwn fd) s ios).1 = (Io.bufs ios).map (fun c => .ok c.length) ∧
    ∃ n, (session (writeOwn fd) s ios).2.Holds fd path flags p n (d ++ (Io.bufs ios).flatten) := by
  induction ios generalizing s d with
  | nil => exact ⟨rfl, d.length, by simpa [session, Io.bufs] using h⟩
  | cons io ios ih =>
    cases io with
    | other call => exact ih (h.other hapart.1) hapart.2
    | own buf =>
      obtain ⟨hres, hnext⟩ := h.write hw ha buf
      rw [spliced_end, ← List.length_append] at hnext
      obtain ⟨hrest, n, hlast⟩ := ih hnext hapart
      refine ⟨?_, n, ?_⟩
      · exact congrArg₂ List.cons hres hrest
      · simp only [Io.bufs, List.flatten_cons]
        rw [← List.append_assoc]
        exact hlast

/-- **Buffers are filled with the content from the cursor on.** -/
theorem reads (hr : flags.contains .READ = true) {ios : List Io}
    (h : s.Holds fd path flags p offset d) (hapart : Apart (readOwn fd) path s ios) :
    (session (readOwn fd) s ios).1.length = (Io.bufs ios).length ∧
    (∀ (k : Nat) (buf : List UInt8), (Io.bufs ios)[k]? = some buf →
      ((session (readOwn fd) s ios).1[k]?).map Prod.fst = some (.ok (min buf.length
        (d.length - (offset + (((Io.bufs ios).take k).map List.length).sum))))) ∧
    ((session (readOwn fd) s ios).1.map got).flatten =
      (d.drop offset).take ((Io.bufs ios).map List.length).sum := by
  induction ios generalizing s offset with
  | nil => simp [session, Io.bufs]
  | cons io ios ih =>
    cases io with
    | other call => exact ih (h.other hapart.1) hapart.2
    | own buf =>
      obtain ⟨hres, hgot, hnext⟩ := h.read hr buf
      obtain ⟨hlen, hcounts, hbytes⟩ := ih hnext hapart
      refine ⟨?_, ?_, ?_⟩
      · simp only [session, Io.bufs, List.length_cons, hlen]
      · intro k buf' hk
        cases k with
        | zero =>
          cases hk
          simp [session, hres]
        | succ k =>
          have hk' := hcounts k buf' hk
          simp only [session, Io.bufs, List.getElem?_cons_succ, hk', List.take_succ_cons,
            List.map_cons, List.sum_cons]
          congr 2
          omega
      · simp only [session, Io.bufs, List.map_cons, List.flatten_cons, List.sum_cons, hgot, hbytes]
        have hdrop : d.drop (offset + min buf.length (d.length - offset)) =
            (d.drop offset).drop buf.length := by
          rw [List.drop_eq_drop_min (l := d.drop offset), List.length_drop, List.drop_drop]
        rw [List.take_add, hdrop]

end Holds

/-! ### The round trip -/

theorem openFile_create (h : s.fs.Writable path p) :
    ∃ fd, (s.openFile path (.CREATE ||| .WRITE ||| .TRUNC)).1 = .ok fd ∧
      (s.openFile path (.CREATE ||| .WRITE ||| .TRUNC)).2.Holds fd path
        (.CREATE ||| .WRITE ||| .TRUNC) p 0 [] := by
  obtain ⟨hsplit, hne⟩ := PathMap.split_of_target h.1
  obtain ⟨c, htouch, htouched⟩ := h.touch
  have hw : (s.fs.touch path).2.Writable path p :=
    RamFs.writable_of_get hsplit hne (by rw [htouched, PathMap.set_get_self])
  obtain ⟨hres, hpaths⟩ := hw.write []
  have hcreate : OpenFlags.contains (.CREATE ||| .WRITE ||| .TRUNC) .CREATE = true := by decide
  have htrunc : OpenFlags.contains (.CREATE ||| .WRITE ||| .TRUNC) .TRUNC = true := by decide
  simp only [openFile, hcreate, htrunc, if_true, htouch, hres]
  refine ⟨_, rfl, hsplit, hne, FileDescriptorTable.get_insert, ?_⟩
  rw [hpaths, PathMap.set_get_self]

theorem openFile_read (hs : splitPath path = .ok p) (hne : p ≠ [])
    (h : s.fs.paths.get p = some (.file d)) :
    ∃ fd, (s.openFile path .READ).1 = .ok fd ∧
      (s.openFile path .READ).2.Holds fd path .READ p 0 d := by
  have hcreate : OpenFlags.contains .READ .CREATE = false := by decide
  have htrunc : OpenFlags.contains .READ .TRUNC = false := by decide
  have hopen : s.openFile path .READ = (.ok (s.table.insert (.file path 0 .READ)).1,
      { fs := s.fs, table := (s.table.insert (.file path 0 .READ)).2 }) := by
    simp [openFile, hcreate, htrunc, RamFs.read_of_get hs h, Except.map]
  rw [hopen]
  exact ⟨_, rfl, hs, hne, FileDescriptorTable.get_insert, h⟩

theorem Holds.close {fd offset : Nat} {flags : OpenFlags} (h : s.Holds fd path flags p offset d) :
    (s.close fd).1 = .ok 0 ∧ (s.close fd).2.fs = s.fs := by
  simp [Files.close, FileDescriptorTable.close, h.entry]

/-- Calls on other files only. -/
def between (calls : List OtherCall) : List Io := calls.map .other

theorem get_between {α : Type} {own : Files → List UInt8 → α × Files} {calls : List OtherCall}
    (hs : splitPath path = .ok p) (h : Apart own path s (between calls)) :
    (session own s (between calls)).2.fs.paths.get p = s.fs.paths.get p := by
  induction calls generalizing s with
  | nil => rfl
  | cons call calls ih => exact (ih h.2).trans (get_other hs h.1)

/-- The answers of reads from the start of a file with the content `d`. -/
structure ReadsBack (d : List UInt8) (bufs : List (List UInt8))
    (answers : List (Except FdError Nat × List UInt8)) : Prop where
  length : answers.length = bufs.length
  count : ∀ (k : Nat) (buf : List UInt8), bufs[k]? = some buf →
    (answers[k]?).map Prod.fst =
      some (.ok (min buf.length (d.length - ((bufs.take k).map List.length).sum)))
  bytes : (answers.map got).flatten = d.take (min (bufs.map List.length).sum d.length)

/-- What is written to a new file is read back from it. -/
def RoundTrip (s : Files) (path : String) : Prop :=
  ∃ fd s₁, s.openFile path (.CREATE ||| .WRITE ||| .TRUNC) = (.ok fd, s₁) ∧
  ∀ ws, Apart (writeOwn fd) path s₁ ws →
  ∃ s₂ s₃, session (writeOwn fd) s₁ ws = ((Io.bufs ws).map (fun c => .ok c.length), s₂) ∧
  s₂.fs.read path = .ok (Io.bufs ws).flatten ∧ s₂.close fd = (.ok 0, s₃) ∧
  ∀ calls, Apart (writeOwn fd) path s₃ (between calls) →
  ∃ fd' s₄, (session (writeOwn fd) s₃ (between calls)).2.openFile path .READ = (.ok fd', s₄) ∧
  ∀ rs, Apart (readOwn fd') path s₄ rs →
  ReadsBack (Io.bufs ws).flatten (Io.bufs rs) (session (readOwn fd') s₄ rs).1

theorem roundTrip (h : s.fs.Writable path p) : s.RoundTrip path := by
  obtain ⟨hsplit, hne⟩ := PathMap.split_of_target h.1
  obtain ⟨fd, hfd, hnew⟩ := openFile_create h
  refine ⟨fd, _, Prod.ext hfd rfl, fun ws hws => ?_⟩
  obtain ⟨hlens, n, hwritten⟩ := hnew.writes (d := []) (by decide) (by decide) hws
  rw [List.nil_append] at hwritten
  obtain ⟨hclose, hfs⟩ := hwritten.close
  refine ⟨_, _, Prod.ext hlens rfl, RamFs.read_of_get hsplit hwritten.content,
    Prod.ext hclose rfl, fun calls hcalls => ?_⟩
  have hcontent := get_between hsplit hcalls
  rw [hfs, hwritten.content] at hcontent
  obtain ⟨fd', hfd', hopen⟩ := openFile_read hsplit hne hcontent
  refine ⟨fd', _, Prod.ext hfd' rfl, fun rs hrs => ?_⟩
  obtain ⟨hlen, hcounts, hbytes⟩ := hopen.reads (by decide) hrs
  refine ⟨hlen, fun k buf hk => ?_, ?_⟩
  · have hcount := hcounts k buf hk
    rw [Nat.zero_add] at hcount
    exact hcount
  · rw [hbytes, List.drop_zero, ← List.take_eq_take_min]

/-- **What is written is read back**, whatever the chunks and the buffers are and whatever is
done to other files meanwhile; and a write at a cursor does to the content what it should. -/
theorem file_round_trip (s : Files) (path : String) (p : List String) :
    (s.fs.Writable path p → s.RoundTrip path) ∧
    ∀ (fd offset : Nat) (flags : OpenFlags) (d buf : List UInt8),
      s.Holds fd path flags p offset d → flags.contains .WRITE = true →
      flags.contains .APPEND = false →
      (s.write fd buf).1 = .ok buf.length ∧
      ∃ d', (s.write fd buf).2.Holds fd path flags p (offset + buf.length) d' ∧
        d'.length = max d.length (offset + buf.length) ∧
        ∀ i : Nat, d'[i]? = if i < offset then some (d[i]?.getD 0)
          else if i < offset + buf.length then buf[i - offset]? else d[i]? := by
  refine ⟨roundTrip, fun fd offset flags d buf h hw ha => ?_⟩
  obtain ⟨hres, hholds⟩ := h.write hw ha buf
  exact ⟨hres, _, hholds, length_spliced d offset buf, getElem?_spliced d offset buf⟩

theorem file_round_trip_msg : FileCall.start.RoundTrip "/home/msg" := by
  refine (file_round_trip FileCall.start "/home/msg" ["home", "msg"]).1 ?_
  refine RamFs.writable_of_parent (p := ["home"]) (by decide +kernel) ?_ ?_
  · show (FileCall.start.fs.root.entryAt ["home"]).map Entry.isDir = some true
    decide +kernel
  · show (FileCall.start.fs.root.entryAt ["home", "msg"]).map Entry.isDir ≠ some true
    decide +kernel

end Files

end Zeronix
