import Zeronix.Fs.Walk
import Zeronix.Syscall.Fd

/-!
# System calls on files

`SyscallTable` of `src/syscall.rs`: the calls on files, with their errors as numbers for the
user.  A call that fails, other than `rename`, leaves the tree and the table of descriptors as
they were (`sys_error_atomic`).
-/

namespace Zeronix

inductive SysError where
  | noSuchSyscall
  | invalidArgument
  | noEntry
  | exists
  | notDir
  | isDir
  | notEmpty
  | badFd
  | permission
  | unsupported
  deriving DecidableEq, Repr

namespace SysError

def errno : SysError → Int
  | noSuchSyscall => -38
  | invalidArgument => -22
  | noEntry => -2
  | «exists» => -17
  | notDir => -20
  | isDir => -21
  | notEmpty => -39
  | badFd => -9
  | permission => -13
  | unsupported => -95

def ofFs : FsError → SysError
  | .invalidPath => invalidArgument
  | .notFound => noEntry
  | .alreadyExists => «exists»
  | .notDirectory => notDir
  | .isDirectory => isDir
  | .directoryNotEmpty => notEmpty

def ofFd : FdError → SysError
  | .badFd => badFd
  | .permission => permission
  | .fs err => ofFs err

end SysError

abbrev SysResult := Except SysError Nat

/-- `map_err(Into::into)`. -/
def sysFd (r : Except FdError Nat) : SysResult := r.mapError SysError.ofFd

/-- `..?; Ok(0)`. -/
def sysFs (r : FsResult Unit) : SysResult :=
  match r with
  | .error e => .error (.ofFs e)
  | .ok () => .ok 0

namespace SyscallTable

def openFile (s : Files) (path : String) (flags : OpenFlags) : SysResult × Files :=
  (sysFd (s.openFile path flags).1, (s.openFile path flags).2)

def read (s : Files) (fd : Nat) (buf : List UInt8) : SysResult × List UInt8 × Files :=
  (sysFd (s.read fd buf).1, (s.read fd buf).2)

def write (s : Files) (fd : Nat) (buf : List UInt8) : SysResult × Files :=
  (sysFd (s.write fd buf).1, (s.write fd buf).2)

def close (s : Files) (fd : Nat) : SysResult × Files :=
  (sysFd (s.close fd).1, (s.close fd).2)

def dup2 (s : Files) (oldFd newFd : Nat) : SysResult × Files :=
  (sysFd (s.dup2 oldFd newFd).1, (s.dup2 oldFd newFd).2)

def unlink (s : Files) (path : String) : SysResult × Files :=
  (sysFs (s.fs.remove path).1, { s with fs := (s.fs.remove path).2 })

def rename (s : Files) (old new : String) : SysResult × Files :=
  (sysFs (s.fs.rename old new).1, { s with fs := (s.fs.rename old new).2 })

def mkdir (s : Files) (path : String) : SysResult × Files :=
  (sysFs (s.fs.mkdir path).1, { s with fs := (s.fs.mkdir path).2 })

end SyscallTable

/-! ### Calls that fail -/

namespace Files

variable {s : Files} {path : String} {flags : OpenFlags} {fd offset : Nat} {buf : List UInt8}
variable {e : FdError}

theorem openFile_error (h : (s.openFile path flags).1 = .error e) :
    (s.openFile path flags).2 = s := by
  simp only [openFile] at h ⊢
  by_cases hc : flags.contains .CREATE = true
  · rw [if_pos hc] at h ⊢
    cases ht : (s.fs.touch path).1 with
    | error e' => simp only [RamFs.touch_error ht]
    | ok u =>
      -- the file is there now, so that the truncation cannot fail
      have hw : ((s.fs.touch path).2.write path []).1 = .ok () := Node.write_of_touch ht []
      simp only [ht] at h
      split at h
      · rename_i hr
        split at hr
        · rw [hw] at hr
          cases hr
        · simp [hc] at hr
      · cases h
  · simp only [if_neg hc, Bool.not_eq_true] at h hc ⊢
    simp only [hc] at h ⊢
    by_cases ht : flags.contains .TRUNC = true
    · simp only [if_pos ht] at h ⊢
      cases hw : (s.fs.write path []).1 with
      | error e' => simp only [RamFs.write_error hw]
      | ok u =>
        rw [hw] at h
        cases h
    · simp only [if_neg ht] at h ⊢
      cases hr : s.fs.read path with
      | error e' => rfl
      | ok data =>
        rw [hr] at h
        cases h

theorem read_error (h : (s.read fd buf).1 = .error e) : (s.read fd buf).2 = (buf, s) := by
  rw [read] at h ⊢
  cases hf : s.table.get fd with
  | none => rfl
  | some file =>
    rw [hf] at h
    cases file with
    | stdin data offset => cases h
    | stdout data => rfl
    | stderr data => rfl
    | file path offset flags =>
      simp only at h ⊢
      by_cases hp : (!flags.contains .READ) = true
      · rw [if_pos hp]
      · rw [if_neg hp] at h ⊢
        cases hr : s.fs.read path with
        | error e' => rfl
        | ok data =>
          rw [hr] at h
          cases h

theorem writeFile_error (h : (s.writeFile fd path offset flags buf).1 = .error e) :
    (s.writeFile fd path offset flags buf).2 = s := by
  rw [writeFile] at h ⊢
  by_cases hp : flags.contains .APPEND = true
  · rw [if_pos hp] at h ⊢
    split at h
    · rename_i e' fs' hw
      have hsame := RamFs.append_error (congrArg Prod.fst hw)
      rw [hw] at hsame
      cases hsame
      rfl
    · cases h
  · rw [if_neg hp] at h ⊢
    split at h
    · rename_i e' fs' hw
      have hsame := RamFs.write_error (congrArg Prod.fst hw)
      rw [hw] at hsame
      cases hsame
      rfl
    · cases h

theorem write_error (h : (s.write fd buf).1 = .error e) : (s.write fd buf).2 = s := by
  rw [write] at h ⊢
  cases hf : s.table.get fd with
  | none => rfl
  | some file =>
    rw [hf] at h
    cases file with
    | stdin data offset => rfl
    | stdout data => cases h
    | stderr data => cases h
    | file path offset flags =>
      simp only at h ⊢
      by_cases hp : (!flags.contains .WRITE) = true
      · rw [if_pos hp]
      · rw [if_neg hp] at h ⊢
        exact writeFile_error h

theorem close_error (h : (s.close fd).1 = .error e) : (s.close fd).2 = s := by
  simp only [close, FileDescriptorTable.close] at h ⊢
  by_cases hf : (s.table.get fd).isNone = true
  · rw [if_pos hf]
  · rw [if_neg hf] at h
    cases h

theorem dup2_error {oldFd newFd : Nat} (h : (s.dup2 oldFd newFd).1 = .error e) :
    (s.dup2 oldFd newFd).2 = s := by
  simp only [dup2, FileDescriptorTable.dup2] at h ⊢
  cases hf : s.table.get oldFd with
  | none => rfl
  | some old =>
    rw [hf] at h
    cases h

end Files

theorem sysFd_error {r : Except FdError Nat} {e : SysError} (h : sysFd r = .error e) :
    ∃ e', r = .error e' := by
  cases r with
  | error e' => exact ⟨e', rfl⟩
  | ok n => cases h

theorem sysFs_error {r : FsResult Unit} {e : SysError} (h : sysFs r = .error e) :
    ∃ e', r = .error e' := by
  cases r with
  | error e' => exact ⟨e', rfl⟩
  | ok n => cases h

namespace SyscallTable

/-- **A call that fails changes nothing**: neither the tree, nor a descriptor, nor the buffer
of a read. -/
theorem sys_error_atomic (s : Files) (path : String) (flags : OpenFlags) (fd newFd : Nat)
    (buf : List UInt8) (e : SysError) :
    ((openFile s path flags).1 = .error e → (openFile s path flags).2 = s) ∧
    ((read s fd buf).1 = .error e → (read s fd buf).2 = (buf, s)) ∧
    ((write s fd buf).1 = .error e → (write s fd buf).2 = s) ∧
    ((close s fd).1 = .error e → (close s fd).2 = s) ∧
    ((dup2 s fd newFd).1 = .error e → (dup2 s fd newFd).2 = s) ∧
    ((unlink s path).1 = .error e → (unlink s path).2 = s) ∧
    ((mkdir s path).1 = .error e → (mkdir s path).2 = s) := by
  refine ⟨fun h => ?_, fun h => ?_, fun h => ?_, fun h => ?_, fun h => ?_, fun h => ?_, fun h => ?_⟩
  · obtain ⟨e', he⟩ := sysFd_error h
    exact Files.openFile_error he
  · obtain ⟨e', he⟩ := sysFd_error h
    exact Files.read_error he
  · obtain ⟨e', he⟩ := sysFd_error h
    exact Files.write_error he
  · obtain ⟨e', he⟩ := sysFd_error h
    exact Files.close_error he
  · obtain ⟨e', he⟩ := sysFd_error h
    exact Files.dup2_error he
  · obtain ⟨e', he⟩ := sysFs_error h
    show { s with fs := (s.fs.remove path).2 } = s
    rw [RamFs.remove_error he]
  · obtain ⟨e', he⟩ := sysFs_error h
    show { s with fs := (s.fs.mkdir path).2 } = s
    rw [RamFs.mkdir_error he]

end SyscallTable

end Zeronix
