import Zeronix.Syscall.Cursors

/-!
# The table of descriptors as a map

For its users the table is a map from numbers to open files.  The vector behind it has holes,
where a descriptor was closed or where `dup2` went past the end, and only grows.

`dup2` takes its numbers from a user register, and its loop pushes empty entries until the new
number is one of the vector's.  `dup2Vec` is `dup2` with the limit that a vector has: it panics
when its bytes would be more than `isize::MAX`.  `dup2_returns_iff` says when this happens, and
`fd_table_map` what every call does to the map, in every table that can be reached.
-/

namespace Zeronix

/-- `isize::MAX`. -/
def ISIZE_MAX : Nat := 2 ^ 63 - 1

namespace FileDescriptorTable

variable {table : FileDescriptorTable} {size fd oldFd newFd : Nat} {file : OpenFile}

/-! ### Growing the vector -/

/-- `while entries.len() <= new_fd { entries.push(None) }`, with entries of `size` bytes; `none` is
the panic of the vector. -/
def growLoop (size newFd : Nat) (table : FileDescriptorTable) : Option FileDescriptorTable :=
  if table.entries.length ≤ newFd then
    if (table.entries.length + 1) * size ≤ ISIZE_MAX then
      growLoop size newFd ⟨table.entries ++ [none]⟩
    else none
  else some table
termination_by newFd + 1 - table.entries.length
decreasing_by
  rw [List.length_append, List.length_singleton]
  omega

/-- `FileDescriptorTable::dup2` on a vector. -/
def dup2Vec (size : Nat) (table : FileDescriptorTable) (oldFd newFd : Nat) :
    Option (Except FdError Nat × FileDescriptorTable) :=
  match table.get oldFd with
  | none => some (.error .badFd, table)
  | some old => (table.growLoop size newFd).map fun table => (.ok newFd, table.set newFd (some old))

theorem growTo_of_lt (h : newFd < table.entries.length) : table.growTo newFd = table := by
  rw [growTo, Nat.sub_eq_zero_of_le h, List.replicate_zero, List.append_nil]

theorem growTo_push (h : table.entries.length ≤ newFd) :
    growTo ⟨table.entries ++ [none]⟩ newFd = table.growTo newFd := by
  have hn : newFd + 1 - table.entries.length = newFd + 1 - (table.entries.length + 1) + 1 := by omega
  simp only [growTo, List.length_append, List.length_singleton]
  rw [hn, List.replicate_succ, List.append_assoc]
  rfl

/-- **The loop ends** with a vector that has the new number, or with the panic of the vector when
this one is too large. -/
theorem growLoop_eq (size newFd : Nat) (table : FileDescriptorTable) :
    table.growLoop size newFd =
      if newFd < table.entries.length ∨ (newFd + 1) * size ≤ ISIZE_MAX then some (table.growTo newFd)
      else none := by
  induction hn : newFd + 1 - table.entries.length generalizing table with
  | zero =>
    have hlt : newFd < table.entries.length := by omega
    rw [growLoop, if_neg (by omega), if_pos (Or.inl hlt), growTo_of_lt hlt]
  | succ n ih =>
    have hle : table.entries.length ≤ newFd := by omega
    -- the vector after this round is no larger than the last one
    have hmono : (table.entries.length + 1) * size ≤ (newFd + 1) * size :=
      Nat.mul_le_mul_right size (by omega)
    rw [growLoop, if_pos hle]
    by_cases hfits : (table.entries.length + 1) * size ≤ ISIZE_MAX
    · rw [if_pos hfits, ih ⟨table.entries ++ [none]⟩ (by rw [List.length_append, List.length_singleton]; omega),
        growTo_push hle, List.length_append, List.length_singleton]
      by_cases hlast : newFd = table.entries.length
      · rw [if_pos (Or.inl (by omega)), if_pos (Or.inr (by rw [hlast]; exact hfits))]
      · have hiff : (newFd < table.entries.length + 1 ∨ (newFd + 1) * size ≤ ISIZE_MAX) ↔
            (newFd < table.entries.length ∨ (newFd + 1) * size ≤ ISIZE_MAX) :=
          or_congr_left (by omega)
        simp only [hiff]
    · rw [if_neg hfits, if_neg]
      rintro (hlt | hlt) <;> omega

/-- **`dup2` on a vector** is `dup2`, unless the vector becomes too large. -/
theorem dup2Vec_eq (size : Nat) (table : FileDescriptorTable) (oldFd newFd : Nat) :
    table.dup2Vec size oldFd newFd =
      if table.get oldFd = none ∨ newFd < table.entries.length ∨ (newFd + 1) * size ≤ ISIZE_MAX then
        some (table.dup2 oldFd newFd)
      else none := by
  rw [dup2Vec, dup2]
  cases hf : table.get oldFd with
  | none => rw [if_pos (Or.inl rfl)]
  | some old =>
    simp only [growLoop_eq, reduceCtorEq, false_or]
    split
    · rfl
    · rfl

/-- **`dup2` returns** the new number or `BadFd` exactly when there is nothing to duplicate, or
the vector has the new number, or may be made so large that it has. -/
theorem dup2_returns_iff (size : Nat) (table : FileDescriptorTable) (oldFd newFd : Nat) :
    (∃ res table', table.dup2Vec size oldFd newFd = some (res, table') ∧
      (res = .error .badFd ∨ res = .ok newFd)) ↔
    table.get oldFd = none ∨ newFd < table.entries.length ∨ (newFd + 1) * size ≤ ISIZE_MAX := by
  rw [dup2Vec_eq]
  split
  · rename_i hcond
    refine iff_of_true ⟨(table.dup2 oldFd newFd).1, (table.dup2 oldFd newFd).2, rfl, ?_⟩ hcond
    rw [dup2]
    cases table.get oldFd with
    | none => exact Or.inl rfl
    | some old => exact Or.inr rfl
  · rename_i hcond
    refine iff_of_false ?_ hcond
    rintro ⟨res, table', h, _⟩
    cases h

/-- Whatever the size of an entry, `dup2(0, usize::MAX)` on a new table does not return. -/
theorem dup2_top_panics : ¬ ∃ size, 0 < size ∧ ∀ (table : FileDescriptorTable) (oldFd newFd : Nat),
    oldFd < 2 ^ 64 → newFd < 2 ^ 64 → ∃ res table', table.dup2Vec size oldFd newFd = some (res, table') ∧
      (res = .error .badFd ∨ res = .ok newFd) := by
  rintro ⟨size, hpos, h⟩
  obtain ⟨res, table', he, _⟩ := h new 0 (2 ^ 64 - 1) (by decide) (by decide)
  rw [dup2Vec_eq, if_neg] at he
  · cases he
  · rintro (hget | hlt | hle)
    · cases hget
    · exact absurd hlt (by decide)
    · unfold ISIZE_MAX at hle
      omega

/-! ### What the operations do to the map -/

/-- `set_stdin`; `none` is an index out of bounds. -/
def setStdin (table : FileDescriptorTable) (data : List UInt8) : Option FileDescriptorTable :=
  if 0 < table.entries.length then some (table.set 0 (some (.stdin data 0))) else none

theorem get_set (h : fd < table.entries.length) (file : Option OpenFile) :
    (table.set fd file).get = Function.update table.get fd file := by
  funext n
  by_cases hn : n = fd
  · rw [hn, get_set_self h, Function.update_self]
  · rw [get_set_of_ne hn, Function.update_of_ne hn]

theorem set_get (h : table.get fd = some file) : table.set fd (some file) = table := by
  have hlt := lt_of_get h
  rw [get, List.getElem?_eq_getElem hlt, Option.join_some] at h
  rw [set, ← h, List.set_getElem_self]

theorem length_set (table : FileDescriptorTable) (fd : Nat) (file : Option OpenFile) :
    (table.set fd file).entries.length = table.entries.length := by
  rw [set, List.length_set]

theorem le_length_insert (table : FileDescriptorTable) (file : OpenFile) :
    table.entries.length ≤ (table.insert file).2.entries.length := by
  rw [insert]
  split
  · rw [length_set]
  · simp

theorem le_length_dup2 (table : FileDescriptorTable) (oldFd newFd : Nat) :
    table.entries.length ≤ (table.dup2 oldFd newFd).2.entries.length := by
  rw [dup2]
  split
  · exact le_refl _
  · rw [length_set, growTo, List.length_append]
    exact Nat.le_add_right _ _

/-- **`insert` takes the least free number.** -/
theorem insert_spec (table : FileDescriptorTable) (file : OpenFile) :
    table.get (table.insert file).1 = none ∧ (∀ n < (table.insert file).1, table.get n ≠ none) ∧
      (table.insert file).2.get = Function.update table.get (table.insert file).1 (some file) := by
  rw [insert]
  cases hidx : table.entries.findIdx? Option.isNone with
  | some i =>
    obtain ⟨hlt, hnone, hbefore⟩ := List.findIdx?_eq_some_iff_getElem.mp hidx
    refine ⟨?_, fun n hn => ?_, get_set hlt _⟩
    · rw [get, List.getElem?_eq_getElem hlt, Option.join_some]
      exact Option.isNone_iff_eq_none.mp hnone
    · rw [get, List.getElem?_eq_getElem (by simp only at hn; omega), Option.join_some]
      exact fun h => hbefore n hn (Option.isNone_iff_eq_none.mpr h)
  | none =>
    have hfull := List.findIdx?_eq_none_iff.mp hidx
    refine ⟨?_, fun n hn => ?_, funext fun n => ?_⟩
    · rw [get, List.getElem?_eq_none (by simp)]
      rfl
    · have hn : n < table.entries.length := hn
      rw [get, List.getElem?_eq_getElem hn, Option.join_some]
      intro h
      have := hfull _ (List.getElem_mem hn)
      rw [h] at this
      cases this
    · by_cases hn : n = table.entries.length
      · rw [hn, Function.update_self, get, List.getElem?_append_right (Nat.le_refl _)]
        simp
      · rw [Function.update_of_ne hn, get, get, List.getElem?_append]
        split
        · rfl
        · rw [List.getElem?_eq_none (by simp; omega), List.getElem?_eq_none (by omega)]

/-- **`dup2` changes the new number only.** -/
theorem dup2_spec {file : OpenFile} (h : table.get oldFd = some file) (newFd : Nat) :
    (table.dup2 oldFd newFd).2.get = Function.update table.get newFd (some file) := by
  have hlt : newFd < (table.growTo newFd).entries.length := by
    rw [growTo, List.length_append, List.length_replicate]
    omega
  rw [dup2, h]
  refine (get_set hlt _).trans ?_
  rw [show (table.growTo newFd).get = table.get from funext fun n => get_growTo newFd]

theorem dup2_self {file : OpenFile} (h : table.get fd = some file) : (table.dup2 fd fd).2 = table := by
  rw [dup2, h]
  show (table.growTo fd).set fd (some file) = table
  rw [growTo_of_lt (lt_of_get h), set_get h]

end FileDescriptorTable

namespace Files

variable {s : Files} {fd : Nat}

theorem table_read (s : Files) (fd : Nat) (buf : List UInt8) :
    (s.read fd buf).2.2.table = s.table ∨ ∃ old file, s.table.get fd = some old ∧
      (s.read fd buf).2.2.table = s.table.set fd (some file) := by
  rw [read]
  cases hf : s.table.get fd with
  | none => exact Or.inl rfl
  | some old =>
    cases old with
    | stdin data offset => exact Or.inr ⟨_, _, rfl, rfl⟩
    | stdout data => exact Or.inl rfl
    | stderr data => exact Or.inl rfl
    | file path offset flags =>
      simp only
      split
      · exact Or.inl rfl
      · split
        · exact Or.inl rfl
        · exact Or.inr ⟨_, _, rfl, rfl⟩

theorem table_writeFile (s : Files) (fd : Nat) (path : String) (offset : Nat) (flags : OpenFlags)
    (buf : List UInt8) : (s.writeFile fd path offset flags buf).2.table = s.table ∨
      ∃ file, (s.writeFile fd path offset flags buf).2.table = s.table.set fd (some file) := by
  rw [writeFile]
  split
  · split
    · exact Or.inl rfl
    · exact Or.inl rfl
  · split
    · exact Or.inl rfl
    · exact Or.inr ⟨_, rfl⟩

theorem table_write (s : Files) (fd : Nat) (buf : List UInt8) :
    (s.write fd buf).2.table = s.table ∨ ∃ old file, s.table.get fd = some old ∧
      (s.write fd buf).2.table = s.table.set fd (some file) := by
  rw [write]
  cases hf : s.table.get fd with
  | none => exact Or.inl rfl
  | some old =>
    cases old with
    | stdin data offset => exact Or.inl rfl
    | stdout data => exact Or.inr ⟨_, _, rfl, rfl⟩
    | stderr data => exact Or.inr ⟨_, _, rfl, rfl⟩
    | file path offset flags =>
      simp only
      split
      · exact Or.inl rfl
      · rcases s.table_writeFile fd path offset flags buf with h | ⟨file, h⟩
        · exact Or.inl h
        · exact Or.inr ⟨_, file, rfl, h⟩

theorem openFile_ok {path : String} {flags : OpenFlags} {s' : Files}
    (h : s.openFile path flags = (.ok fd, s')) :
    s.table.insert (.file path 0 flags) = (fd, s'.table) := by
  simp only [openFile] at h
  split at h
  · cases h
  · split at h
    · cases h
    · cases h
      rfl

end Files

/-! ### Runs -/

/-- The calls on a table. -/
inductive FdCall where
  | openFile (path : String) (flags : OpenFlags)
  | close (fd : Nat)
  | dup2 (oldFd newFd : Nat)
  | setStdin (data : List UInt8)
  | read (fd : Nat) (buf : List UInt8)
  | write (fd : Nat) (buf : List UInt8)

namespace FdCall

/-- The table after a call; `none` when it panics. -/
def run (size : Nat) (s : Files) : FdCall → Option FileDescriptorTable
  | openFile path flags => some (s.openFile path flags).2.table
  | close fd => some (s.close fd).2.table
  | dup2 oldFd newFd => (s.table.dup2Vec size oldFd newFd).map Prod.snd
  | setStdin data => s.table.setStdin data
  | read fd buf => some (s.read fd buf).2.2.table
  | write fd buf => some (s.write fd buf).2.table

/-- The tables that calls lead to from a new one, on whatever file system each call finds. -/
inductive Reached (size : Nat) : FileDescriptorTable → Prop
  | new : Reached size .new
  | call {s : Files} {table : FileDescriptorTable} (c : FdCall) :
      Reached size s.table → c.run size s = some table → Reached size table

theorem run_length {size : Nat} {s : Files} {table : FileDescriptorTable} {c : FdCall}
    (hpos : 0 < s.table.entries.length) (h : c.run size s = some table) :
    s.table.entries.length ≤ table.entries.length := by
  cases c with
  | openFile path flags =>
    cases h
    cases hopen : s.openFile path flags with
    | mk res s' =>
      cases res with
      | error e =>
        have hkeep := Files.openFile_error (congrArg Prod.fst hopen)
        rw [hopen] at hkeep
        rw [hkeep]
      | ok fd =>
        have hins := s.table.le_length_insert (.file path 0 flags)
        rw [Files.openFile_ok hopen] at hins
        exact hins
  | close fd =>
    cases h
    simp only [Files.close, FileDescriptorTable.close]
    split
    · exact le_refl _
    · rw [FileDescriptorTable.length_set]
  | dup2 oldFd newFd =>
    obtain ⟨x, hdup, rfl⟩ := Option.map_eq_some_iff.mp h
    rw [FileDescriptorTable.dup2Vec_eq] at hdup
    split at hdup
    · rw [← Option.some.inj hdup]
      exact s.table.le_length_dup2 oldFd newFd
    · cases hdup
  | setStdin data =>
    have h : s.table.setStdin data = some table := h
    rw [FileDescriptorTable.setStdin, if_pos hpos] at h
    cases h
    rw [FileDescriptorTable.length_set]
  | read fd buf =>
    cases h
    rcases s.table_read fd buf with h | ⟨_, _, _, h⟩
    · rw [h]
    · rw [h, FileDescriptorTable.length_set]
  | write fd buf =>
    cases h
    rcases s.table_write fd buf with h | ⟨_, _, _, h⟩
    · rw [h]
    · rw [h, FileDescriptorTable.length_set]

theorem Reached.length_pos {size : Nat} {table : FileDescriptorTable} (h : Reached size table) :
    0 < table.entries.length := by
  induction h with
  | new => decide
  | call c _ hrun ih => exact Nat.lt_of_lt_of_le ih (run_length ih hrun)

/-- **What a call does to the map**: an `open` adds the least free number, `close` removes one
number, `dup2` changes one, and reads and writes change the file of their own number at most.  A
number that is not in the map is refused, and the table stays as it is. -/
def Maps (size : Nat) (s : Files) : FdCall → Prop
  | openFile path flags =>
    (∀ fd s', s.openFile path flags = (.ok fd, s') → s.table.get fd = none ∧
      (∀ n < fd, s.table.get n ≠ none) ∧
      s'.table.get = Function.update s.table.get fd (some (.file path 0 flags))) ∧
    ∀ e s', s.openFile path flags = (.error e, s') → s'.table = s.table
  | close fd =>
    (s.table.get fd = none → s.close fd = (.error .badFd, s)) ∧
    (s.table.get fd ≠ none → (s.close fd).1 = .ok 0 ∧
      (s.close fd).2.table.get = Function.update s.table.get fd none)
  | dup2 oldFd newFd =>
    (s.table.get oldFd = none → s.table.dup2Vec size oldFd newFd = some (.error .badFd, s.table)) ∧
    ∀ file, s.table.get oldFd = some file →
      newFd < s.table.entries.length ∨ (newFd + 1) * size ≤ ISIZE_MAX →
      ∃ table, s.table.dup2Vec size oldFd newFd = some (.ok newFd, table) ∧
        table.get = Function.update s.table.get newFd (some file) ∧ (oldFd = newFd → table = s.table)
  | setStdin data => ∃ table, s.table.setStdin data = some table ∧
      table.get = Function.update s.table.get 0 (some (.stdin data 0))
  | read fd buf =>
    (s.table.get fd = none → s.read fd buf = (.error .badFd, buf, s)) ∧
    (∀ n, n ≠ fd → (s.read fd buf).2.2.table.get n = s.table.get n) ∧
    ((s.read fd buf).2.2.table.get fd = none ↔ s.table.get fd = none)
  | write fd buf =>
    (s.table.get fd = none → s.write fd buf = (.error .badFd, s)) ∧
    (∀ n, n ≠ fd → (s.write fd buf).2.table.get n = s.table.get n) ∧
    ((s.write fd buf).2.table.get fd = none ↔ s.table.get fd = none)

theorem maps_own {table table' : FileDescriptorTable} {fd : Nat}
    (h : table' = table ∨ ∃ old file, table.get fd = some old ∧ table' = table.set fd (some file)) :
    (∀ n, n ≠ fd → table'.get n = table.get n) ∧ (table'.get fd = none ↔ table.get fd = none) := by
  rcases h with rfl | ⟨old, file, hold, rfl⟩
  · exact ⟨fun _ _ => rfl, Iff.rfl⟩
  · refine ⟨fun n hn => FileDescriptorTable.get_set_of_ne hn, ?_⟩
    rw [FileDescriptorTable.get_set_self (FileDescriptorTable.lt_of_get hold), hold]
    simp

/-- **The table is a map with the least free number first**, in every table that calls lead to. -/
theorem fd_table_map {size : Nat} {table : FileDescriptorTable} (h : Reached size table) (fs : RamFs)
    (c : FdCall) : c.Maps size { fs := fs, table := table } := by
  cases c with
  | openFile path flags =>
    refine ⟨fun fd s' he => ?_, fun e s' he => ?_⟩
    · have hins := Files.openFile_ok he
      obtain ⟨hfree, hleast, hget⟩ := FileDescriptorTable.insert_spec table (.file path 0 flags)
      rw [hins] at hfree hleast hget
      exact ⟨hfree, hleast, hget⟩
    · have hkeep := Files.openFile_error (congrArg Prod.fst he)
      rw [he] at hkeep
      exact congrArg Files.table hkeep
  | close fd =>
    refine ⟨fun hnone => ?_, fun hsome => ?_⟩
    · simp only [Files.close, FileDescriptorTable.close]
      rw [if_pos (by rw [hnone]; rfl)]
    · obtain ⟨file, hfile⟩ := Option.ne_none_iff_exists'.mp hsome
      simp only [Files.close, FileDescriptorTable.close]
      rw [if_neg (by rw [hfile]; simp)]
      exact ⟨rfl, FileDescriptorTable.get_set (FileDescriptorTable.lt_of_get hfile) none⟩
  | dup2 oldFd newFd =>
    refine ⟨fun hnone => ?_, fun file hfile hsize => ⟨(table.dup2 oldFd newFd).2, ?_, ?_, ?_⟩⟩
    · rw [FileDescriptorTable.dup2Vec, hnone]
    · rw [FileDescriptorTable.dup2Vec_eq, if_pos (Or.inr hsize), FileDescriptorTable.dup2, hfile]
    · exact FileDescriptorTable.dup2_spec hfile newFd
    · rintro rfl
      exact FileDescriptorTable.dup2_self hfile
  | setStdin data =>
    refine ⟨table.set 0 (some (.stdin data 0)), if_pos h.length_pos, ?_⟩
    exact FileDescriptorTable.get_set h.length_pos _
  | read fd buf =>
    refine ⟨fun hnone => ?_, maps_own (Files.table_read _ fd buf)⟩
    rw [Files.read, hnone]
  | write fd buf =>
    refine ⟨fun hnone => ?_, maps_own (Files.table_write _ fd buf)⟩
    rw [Files.write, hnone]

/-- After `dup2(1, 5)` and `close(0)` on a new table, with two holes before the end. -/
def holed : FileDescriptorTable where
  entries := [none, some (.stdout []), some (.stderr []), none, none, some (.stdout [])]

theorem reached_holed : Reached 40 holed := by
  have hdup : Reached 40 (FileDescriptorTable.new.dup2 1 5).2 := by
    refine .call (s := FileCall.start) (dup2 1 5) .new ?_
    show (FileDescriptorTable.new.dup2Vec 40 1 5).map Prod.snd = _
    rw [FileDescriptorTable.dup2Vec_eq, if_pos (Or.inr (Or.inr (by decide)))]
    rfl
  refine .call (s := { fs := .new, table := (FileDescriptorTable.new.dup2 1 5).2 }) (close 0) hdup ?_
  decide +kernel

/-- The next file gets the number of standard input. -/
theorem fd_table_map_holed : ∃ s', Files.openFile { fs := .new, table := holed } "/home/a" .CREATE =
    (.ok 0, s') ∧ s'.table.get = Function.update holed.get 0 (some (.file "/home/a" 0 .CREATE)) := by
  have hres : (Files.openFile { fs := .new, table := holed } "/home/a" .CREATE).1 = .ok 0 := by
    decide +kernel
  exact ⟨_, Prod.ext hres rfl,
    ((fd_table_map reached_holed .new (openFile "/home/a" .CREATE)).1 0 _ (Prod.ext hres rfl)).2.2⟩

end FdCall

end Zeronix
