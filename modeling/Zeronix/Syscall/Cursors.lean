import Zeronix.Syscall.FilePaths

/-!
# Cursors

What a read and a write through a descriptor of a file do, in terms of the content of the file
and the cursor of the descriptor: `Files.write_file` and `Files.read_file`.  A write turns the
content `d` into `spliced d c buf`, which `getElem?_spliced` describes byte by byte.
-/

namespace Zeronix

namespace FileDescriptorTable

variable {table : FileDescriptorTable} {fd fd' : Nat} {file : Option OpenFile}

theorem lt_of_get {f : OpenFile} (h : table.get fd = some f) : fd < table.entries.length := by
  rw [get] at h
  by_contra hlt
  rw [List.getElem?_eq_none (by omega)] at h
  cases h

theorem get_set_self (h : fd < table.entries.length) : (table.set fd file).get fd = file := by
  rw [get, set, List.getElem?_set_self h]
  rfl

theorem get_set_of_ne (h : fd' ≠ fd) : (table.set fd file).get fd' = table.get fd' := by
  rw [get, get, set, List.getElem?_set_ne (Ne.symm h)]

theorem get_growTo (n : Nat) : (table.growTo n).get fd = table.get fd := by
  rw [get, get, growTo]
  by_cases h : fd < table.entries.length
  · rw [List.getElem?_append_left h]
  · rw [List.getElem?_append_right (by omega), List.getElem?_replicate, List.getElem?_eq_none (by omega)]
    split <;> rfl

/-- After `dup2` both descriptors have the same entry. -/
theorem get_dup2 {f : OpenFile} (h : table.get fd = some f) (newFd : Nat) :
    (table.dup2 fd newFd).2.get fd = some f ∧ (table.dup2 fd newFd).2.get newFd = some f := by
  have hlen : newFd < (table.growTo newFd).entries.length := by
    rw [growTo, List.length_append, List.length_replicate]
    omega
  rw [dup2, h]
  refine ⟨?_, get_set_self hlen⟩
  by_cases heq : fd = newFd
  · subst heq
    exact get_set_self hlen
  · exact (get_set_of_ne heq).trans ((get_growTo newFd).trans h)

theorem get_insert {f : OpenFile} : (table.insert f).2.get (table.insert f).1 = some f := by
  rw [insert]
  split
  · rename_i i hi
    have hlt : i < table.entries.length := (List.findIdx?_eq_some_iff_getElem.mp hi).1
    exact get_set_self hlt
  · simp [get]

end FileDescriptorTable

/-! ### The content after a write -/

theorem length_resize (d : List UInt8) (n : Nat) : (resize d n).length = max d.length n := by
  rw [resize, List.length_append, List.length_replicate]
  omega

theorem getElem?_resize (d : List UInt8) (n i : Nat) :
    (resize d n)[i]? = if i < d.length then d[i]? else if i < n then some 0 else none := by
  rw [resize]
  by_cases hi : i < d.length
  · rw [if_pos hi, List.getElem?_append_left hi]
  · rw [if_neg hi, List.getElem?_append_right (by omega), List.getElem?_replicate]
    by_cases hn : i < n
    · rw [if_pos hn, if_pos (by omega)]
    · rw [if_neg hn, if_neg (by omega)]

/-- Both conditional extensions are one extension. -/
theorem spliced_eq (d : List UInt8) (c : Nat) (buf : List UInt8) :
    spliced d c buf = (resize d c).take c ++ buf ++ d.drop (c + buf.length) := by
  have hid : ∀ n ≤ d.length, resize d n = d := by
    intro n hn
    rw [resize, Nat.sub_eq_zero_of_le hn]
    simp
  have hfirst : (if c > d.length then resize d c else d) = resize d c := by
    split
    · rfl
    · rw [hid c (by omega)]
  have hlen := length_resize d c
  simp only [spliced, hfirst]
  have htake : ∀ n, (resize (resize d c) n).take c = (resize d c).take c := by
    intro n
    rw [resize, List.take_append_of_le_length (by omega)]
  by_cases hlong : c + buf.length > (resize d c).length
  · rw [if_pos hlong, htake]
    congr 1
    rw [List.drop_eq_nil_of_le (by rw [length_resize]; omega), List.drop_eq_nil_of_le (by omega)]
  · rw [if_neg hlong]
    congr 1
    by_cases hc : c ≤ d.length
    · rw [hid c hc]
    · rw [List.drop_eq_nil_of_le (by omega), List.drop_eq_nil_of_le (by omega)]

theorem length_spliced (d : List UInt8) (c : Nat) (buf : List UInt8) :
    (spliced d c buf).length = max d.length (c + buf.length) := by
  have hlen := length_resize d c
  rw [spliced_eq, List.length_append, List.length_append, List.length_take, List.length_drop]
  omega

/-- **The content after a write, byte by byte**: zeros up to the cursor, the buffer, and the
rest as before. -/
theorem getElem?_spliced (d : List UInt8) (c : Nat) (buf : List UInt8) (i : Nat) :
    (spliced d c buf)[i]? =
      if i < c then some (d[i]?.getD 0) else if i < c + buf.length then buf[i - c]? else d[i]? := by
  have htake : ((resize d c).take c).length = c := by
    rw [List.length_take, length_resize]
    omega
  rw [spliced_eq, List.append_assoc]
  by_cases hi : i < c
  · rw [if_pos hi, List.getElem?_append_left (by omega), List.getElem?_take_of_lt hi, getElem?_resize]
    by_cases hd : i < d.length
    · rw [if_pos hd, List.getElem?_eq_getElem hd]
      rfl
    · rw [if_neg hd, if_pos hi, List.getElem?_eq_none (by omega)]
      rfl
  · rw [if_neg hi, List.getElem?_append_right (by omega), htake]
    by_cases hb : i < c + buf.length
    · rw [if_pos hb, List.getElem?_append_left (by omega)]
    · rw [if_neg hb, List.getElem?_append_right (by omega), List.getElem?_drop]
      congr 1
      omega

/-- A write at the end appends. -/
theorem spliced_end (d buf : List UInt8) : spliced d d.length buf = d ++ buf := by
  rw [spliced_eq, resize, Nat.sub_self, List.replicate_zero, List.append_nil, List.take_length,
    List.drop_eq_nil_of_le (by omega), List.append_nil]

/-! ### Reads and writes through a descriptor -/

namespace Files

variable {s : Files} {fd offset : Nat} {path : String} {flags : OpenFlags} {p : List String}
variable {d : List UInt8}

/-- **A write of a file at its cursor.** -/
theorem write_file (hfd : s.table.get fd = some (.file path offset flags))
    (hw : flags.contains .WRITE = true) (ha : flags.contains .APPEND = false)
    (h : s.fs.Writable path p) (buf : List UInt8) :
    (s.write fd buf).1 = .ok buf.length ∧
    (s.write fd buf).2.table = s.table.set fd (some (.file path (offset + buf.length) flags)) ∧
    (s.write fd buf).2.fs.paths =
      s.fs.paths.set p (some (.file (spliced (Entry.content (s.fs.paths.get p)) offset buf))) := by
  have hs := (PathMap.split_of_target h.1).1
  obtain ⟨hres, hpaths⟩ := h.write (spliced (Entry.content (s.fs.paths.get p)) offset buf)
  simp only [write, hfd, writeFile, hw, ha, RamFs.read_content hs]
  generalize s.fs.write path (spliced (Entry.content (s.fs.paths.get p)) offset buf) = r at hres hpaths
  obtain ⟨r, fs⟩ := r
  cases hres
  exact ⟨rfl, rfl, hpaths⟩

/-- **A read of a file at its cursor.** -/
theorem read_file (hfd : s.table.get fd = some (.file path offset flags))
    (hr : flags.contains .READ = true) (hs : splitPath path = .ok p)
    (h : s.fs.paths.get p = some (.file d)) (buf : List UInt8) :
    s.read fd buf = (.ok (min buf.length (d.length - offset)),
      (d.drop offset).take buf.length ++ buf.drop (d.length - offset),
      { s with
        table := s.table.set fd
          (some (.file path (offset + min buf.length (d.length - offset)) flags)) }) := by
  simp only [read, hfd, hr, RamFs.read_of_get hs h, copyFromOffset]
  by_cases ho : offset ≥ d.length
  · simp [ho, Nat.sub_eq_zero_of_le ho]
  · simp only [if_neg ho]
    have htake : (d.drop offset).take (min buf.length (d.length - offset)) =
        (d.drop offset).take buf.length := by
      rw [List.take_eq_take_min (i := buf.length), List.length_drop]
    have hdrop : buf.drop (min buf.length (d.length - offset)) = buf.drop (d.length - offset) := by
      rw [List.drop_eq_drop_min (i := d.length - offset), min_comm]
    simp [htake, hdrop]

theorem write_append (hfd : s.table.get fd = some (.file path offset flags))
    (hw : flags.contains .WRITE = true) (ha : flags.contains .APPEND = true) (buf : List UInt8) :
    (s.write fd buf).2 = { s with fs := (s.fs.append path buf).2 } := by
  simp only [write, hfd, writeFile, hw, ha]
  obtain ⟨r, fs⟩ := s.fs.append path buf
  cases r <;> rfl

theorem write_unwritable (hfd : s.table.get fd = some (.file path offset flags))
    (hw : flags.contains .WRITE = true) (ha : flags.contains .APPEND = false)
    (h : ∀ p, ¬ s.fs.Writable path p) (buf : List UInt8) : (s.write fd buf).2 = s := by
  obtain ⟨e, he⟩ := RamFs.write_of_not_writable h
    (spliced ((s.fs.read path).toOption.getD []) offset buf)
  refine write_error (e := .fs e) ?_
  simp only [write, hfd, writeFile, hw, ha]
  generalize s.fs.write path (spliced ((s.fs.read path).toOption.getD []) offset buf) = r at he
  obtain ⟨r, fs⟩ := r
  cases he
  rfl

/-! ### Duplicates -/

/-- The bytes that a descriptor has captured. -/
def captured (s : Files) (fd : Nat) : List UInt8 :=
  match s.table.get fd with
  | some (.stdout data) => data
  | some (.stderr data) => data
  | _ => []

def writeAll (s : Files) (ws : List (Nat × List UInt8)) : Files :=
  ws.foldl (fun s w => (s.write w.1 w.2).2) s

/-- After `dup2(a, b)`, writes through `a` and `b` leave what the same writes through `a` alone
leave. -/
def Aliases (s : Files) (a b : Nat) : Prop :=
  ∀ ws : List (Nat × List UInt8), (∀ w ∈ ws, w.1 = a ∨ w.1 = b) →
    ((s.dup2 a b).2.writeAll ws).fs = ((s.dup2 a b).2.writeAll (ws.map fun w => (a, w.2))).fs ∧
    ((s.dup2 a b).2.writeAll ws).captured a =
      ((s.dup2 a b).2.writeAll (ws.map fun w => (a, w.2))).captured a

/-- It does not matter through which of two descriptors a write goes, in `s` and after it. -/
theorem writeAll_eq {a b : Nat} {P : Files → Prop}
    (hsame : ∀ s buf, P s → (s.write b buf).2 = (s.write a buf).2)
    (hstep : ∀ s buf, P s → P (s.write a buf).2) {ws : List (Nat × List UInt8)}
    (hws : ∀ w ∈ ws, w.1 = a ∨ w.1 = b) (h : P s) :
    s.writeAll ws = s.writeAll (ws.map fun w => (a, w.2)) := by
  induction ws generalizing s with
  | nil => rfl
  | cons w ws ih =>
    have hw : (s.write w.1 w.2).2 = (s.write a w.2).2 := by
      rcases hws w List.mem_cons_self with h1 | h1
      · rw [h1]
      · rw [h1]
        exact hsame s w.2 h
    show writeAll (s.write w.1 w.2).2 ws = writeAll (s.write a w.2).2 _
    rw [hw]
    exact ih (fun w' hw' => hws w' (List.mem_cons_of_mem w hw')) (hstep s w.2 h)

theorem aliases_of {a b : Nat} {P : Files → Prop}
    (hsame : ∀ s buf, P s → (s.write b buf).2 = (s.write a buf).2)
    (hstep : ∀ s buf, P s → P (s.write a buf).2) (h : P (s.dup2 a b).2) : s.Aliases a b := by
  intro ws hws
  rw [writeAll_eq hsame hstep hws h]
  exact ⟨rfl, rfl⟩

end Files

/-- What the writes through a descriptor go to: a file that may be written, or a stream. -/
def OpenFile.sink : OpenFile → Bool
  | .stdin _ _ => false
  | .stdout _ => true
  | .stderr _ => true
  | .file _ _ flags => flags.contains .WRITE

namespace Files

variable {s : Files} {a b : Nat}

/-- A write through a stream is captured by this one descriptor. -/
theorem captured_write {fd : Nat} {file : OpenFile} (hfd : s.table.get a = some file)
    (hfile : (∃ data, file = .stdout data) ∨ ∃ data, file = .stderr data)
    (hfd' : s.table.get fd = some file) (buf : List UInt8) :
    (s.write fd buf).2.captured a = if fd = a then s.captured a ++ buf else s.captured a := by
  by_cases heq : fd = a
  · subst heq
    rw [if_pos rfl]
    have hlen := FileDescriptorTable.lt_of_get hfd
    rcases hfile with ⟨data, rfl⟩ | ⟨data, rfl⟩
    · simp only [write, captured, hfd, FileDescriptorTable.get_set_self hlen]
    · simp only [write, captured, hfd, FileDescriptorTable.get_set_self hlen]
  · rw [if_neg heq]
    rcases hfile with ⟨data, rfl⟩ | ⟨data, rfl⟩
    · simp only [write, captured, hfd', FileDescriptorTable.get_set_of_ne (Ne.symm heq)]
    · simp only [write, captured, hfd', FileDescriptorTable.get_set_of_ne (Ne.symm heq)]

theorem aliases_self (s : Files) (a : Nat) : s.Aliases a a :=
  aliases_of (P := fun _ => True) (fun _ _ _ => rfl) (fun _ _ _ => trivial) trivial

variable {path : String} {offset : Nat} {flags : OpenFlags}

theorem aliases_append (hfd : s.table.get a = some (.file path offset flags))
    (hw : flags.contains .WRITE = true) (ha : flags.contains .APPEND = true) : s.Aliases a b := by
  refine aliases_of (P := fun s => s.table.get a = some (.file path offset flags) ∧
    s.table.get b = some (.file path offset flags)) (fun s buf h => ?_) (fun s buf h => ?_)
    (FileDescriptorTable.get_dup2 hfd b)
  · rw [write_append h.1 hw ha, write_append h.2 hw ha]
  · rw [write_append h.1 hw ha]
    exact h

theorem aliases_unwritable (hfd : s.table.get a = some (.file path offset flags))
    (hw : flags.contains .WRITE = true) (ha : flags.contains .APPEND = false)
    (hno : ∀ p, ¬ s.fs.Writable path p) : s.Aliases a b := by
  refine aliases_of (P := fun s => (s.table.get a = some (.file path offset flags) ∧
    s.table.get b = some (.file path offset flags)) ∧ ∀ p, ¬ s.fs.Writable path p)
    (fun s buf h => ?_) (fun s buf h => ?_) ⟨FileDescriptorTable.get_dup2 hfd b, hno⟩
  · rw [write_unwritable h.1.1 hw ha h.2, write_unwritable h.1.2 hw ha h.2]
  · rw [write_unwritable h.1.1 hw ha h.2]
    exact h

/-- What is written through the copy of a stream is not captured by the stream. -/
theorem not_aliases_stream {file : OpenFile} (hfd : s.table.get a = some file)
    (hfile : (∃ data, file = .stdout data) ∨ ∃ data, file = .stderr data) (hab : a ≠ b) :
    ¬ s.Aliases a b := by
  intro h
  obtain ⟨ha, hb⟩ := FileDescriptorTable.get_dup2 hfd b
  have hcap := (h [(b, [0])] (by simp)).2
  have hmixed := captured_write (s := (s.dup2 a b).2) ha hfile hb [0]
  have halone := captured_write (s := (s.dup2 a b).2) ha hfile ha [0]
  rw [if_neg (Ne.symm hab)] at hmixed
  rw [if_pos rfl] at halone
  have heq : (s.dup2 a b).2.captured a = (s.dup2 a b).2.captured a ++ [0] :=
    hmixed.symm.trans (hcap.trans halone)
  simp at heq

/-- A write through the copy of a file overwrites what was written through the file. -/
theorem not_aliases_file {p : List String} (hfd : s.table.get a = some (.file path offset flags))
    (hw : flags.contains .WRITE = true) (ha : flags.contains .APPEND = false)
    (h : s.fs.Writable path p) (hab : a ≠ b) : ¬ s.Aliases a b := by
  intro halias
  obtain ⟨hfa, hfb⟩ := FileDescriptorTable.get_dup2 hfd b
  have hfs := (halias [(a, [0]), (b, [1])] (by simp)).1
  let s' := (s.dup2 a b).2
  obtain ⟨_, htab, hpaths⟩ := write_file (s := s') hfa hw ha h [0]
  let t := (s'.write a [0]).2
  have hta : t.table.get a = some (.file path (offset + 1) flags) := by
    rw [htab]
    exact FileDescriptorTable.get_set_self (FileDescriptorTable.lt_of_get hfa)
  have htb : t.table.get b = some (.file path offset flags) := by
    rw [htab]
    exact (FileDescriptorTable.get_set_of_ne (Ne.symm hab)).trans hfb
  have hget : ∃ d, t.fs.paths.get p = some (.file d) ∧ d[offset]? = some 0 := by
    refine ⟨spliced (Entry.content (s'.fs.paths.get p)) offset [0], ?_, ?_⟩
    · rw [hpaths, PathMap.set_get_self]
    · rw [getElem?_spliced]
      simp
  obtain ⟨d, hd, hd0⟩ := hget
  obtain ⟨hsplit, hne⟩ := PathMap.split_of_target h.1
  have hwritable : t.fs.Writable path p := RamFs.writable_of_get hsplit hne hd
  have hmixed := (write_file htb hw ha hwritable [1]).2.2
  have halone := (write_file hta hw ha hwritable [1]).2.2
  have heq : (t.write b [1]).2.fs.paths.get p = (t.write a [1]).2.fs.paths.get p := by
    rw [show (t.write b [1]).2.fs = (t.write a [1]).2.fs from hfs]
  rw [hmixed, halone, PathMap.set_get_self, PathMap.set_get_self, hd] at heq
  have hbyte := congrArg (fun e => (Entry.content e)[offset]?) heq
  simp only [Entry.content, getElem?_spliced] at hbyte
  simp [hd0] at hbyte

/-- **`dup2` makes an alias** of a descriptor that appends or whose file cannot be written, and
a copy with a life of its own of any other. -/
theorem dup2_aliases_iff {file : OpenFile} (hfd : s.table.get a = some file) (hsink : file.sink = true) :
    s.Aliases a b ↔ a = b ∨ ∃ path offset flags, file = .file path offset flags ∧
      (flags.contains .APPEND = true ∨ ∀ p, ¬ s.fs.Writable path p) := by
  by_cases hab : a = b
  · subst hab
    exact iff_of_true (aliases_self s a) (Or.inl rfl)
  · cases file with
    | stdin data offset => cases hsink
    | stdout data => exact iff_of_false (not_aliases_stream hfd (Or.inl ⟨data, rfl⟩) hab) (by simp [hab])
    | stderr data => exact iff_of_false (not_aliases_stream hfd (Or.inr ⟨data, rfl⟩) hab) (by simp [hab])
    | file path offset flags =>
      have hw : flags.contains .WRITE = true := hsink
      by_cases ha : flags.contains .APPEND = true
      · exact iff_of_true (aliases_append hfd hw ha) (Or.inr ⟨path, offset, flags, rfl, Or.inl ha⟩)
      · have ha' : flags.contains .APPEND = false := by simpa using ha
        by_cases hno : ∀ p, ¬ s.fs.Writable path p
        · exact iff_of_true (aliases_unwritable hfd hw ha' hno)
            (Or.inr ⟨path, offset, flags, rfl, Or.inr hno⟩)
        · obtain ⟨p, hp⟩ := not_forall_not.mp hno
          refine iff_of_false (not_aliases_file hfd hw ha' hp hab) ?_
          rintro (h | ⟨path', offset', flags', heq, h⟩)
          · exact hab h
          · cases heq
            exact h.elim ha hno

/-- A file opened with the flags `flags`, as descriptor 3. -/
def opened (flags : OpenFlags) : Files :=
  FileCall.runAll FileCall.start [.openFile "/home/out" flags]

theorem dup2_aliases_log : (opened (.CREATE ||| .WRITE ||| .APPEND)).Aliases 3 1 :=
  (dup2_aliases_iff (show (opened (.CREATE ||| .WRITE ||| .APPEND)).table.get 3 =
      some (.file "/home/out" 0 (.CREATE ||| .WRITE ||| .APPEND)) by decide +kernel)
    (by decide)).mpr (Or.inr ⟨_, _, _, rfl, Or.inl (by decide)⟩)

/-- One byte through each of the two: the second lands on the first. -/
theorem dup2_overwrites : ¬ ∀ (s : Files) (a b : Nat) (file : OpenFile),
    s.table.get a = some file → file.sink = true → s.Aliases a b := by
  intro h
  have hfs := (h (opened (.CREATE ||| .WRITE ||| .TRUNC)) 3 1
    (.file "/home/out" 0 (.CREATE ||| .WRITE ||| .TRUNC)) (by decide +kernel) (by decide)
    [(3, [65]), (1, [66])] (by simp)).1
  have hread := congrArg (RamFs.read "/home/out") hfs
  revert hread
  decide +kernel

end Files

end Zeronix
