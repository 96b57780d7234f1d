import Zeronix.Fs.RamFs

/-!
# File descriptors

`src/syscall/fd.rs`: a table of open files.  An open file is the path it was opened by with a
cursor, or one of the standard streams with its bytes.

A call answers with a result and the state it leaves behind, on the error paths too.  The file
system that the source passes along is part of that state.  Sizes are plain numbers: a slice
has at most `isize::MAX` bytes, so that no sum of a cursor and a length overflows.
-/

namespace Zeronix

structure OpenFlags where
  bits : UInt8
  deriving DecidableEq, Repr

namespace OpenFlags

def READ : OpenFlags := ⟨(1 : UInt8) <<< 0⟩
def WRITE : OpenFlags := ⟨(1 : UInt8) <<< 1⟩
def CREATE : OpenFlags := ⟨(1 : UInt8) <<< 2⟩
def TRUNC : OpenFlags := ⟨(1 : UInt8) <<< 3⟩
def APPEND : OpenFlags := ⟨(1 : UInt8) <<< 4⟩

def empty : OpenFlags := ⟨0⟩

def contains (self other : OpenFlags) : Bool := self.bits &&& other.bits == other.bits

instance : OrOp OpenFlags := ⟨fun a b => ⟨a.bits ||| b.bits⟩⟩

end OpenFlags

inductive FdError where
  | badFd
  | permission
  | fs (err : FsError)
  deriving DecidableEq, Repr

inductive OpenFile where
  | stdin (data : List UInt8) (offset : Nat)
  | stdout (data : List UInt8)
  | stderr (data : List UInt8)
  | file (path : String) (offset : Nat) (flags : OpenFlags)
  deriving DecidableEq, Repr

structure FileDescriptorTable where
  entries : List (Option OpenFile)
  deriving DecidableEq, Repr

namespace FileDescriptorTable

def new : FileDescriptorTable where
  entries := [some (.stdin [] 0), some (.stdout []), some (.stderr [])]

/-- The open file of a descriptor. -/
def get (table : FileDescriptorTable) (fd : Nat) : Option OpenFile := (table.entries[fd]?).join

def set (table : FileDescriptorTable) (fd : Nat) (file : Option OpenFile) : FileDescriptorTable where
  entries := table.entries.set fd file

def stdout (table : FileDescriptorTable) : List UInt8 :=
  match table.get 1 with
  | some (.stdout data) => data
  | _ => []

def stderr (table : FileDescriptorTable) : List UInt8 :=
  match table.get 2 with
  | some (.stderr data) => data
  | _ => []

/-- The first free slot, or a new one at the end. -/
def insert (table : FileDescriptorTable) (file : OpenFile) : Nat × FileDescriptorTable :=
  match table.entries.findIdx? Option.isNone with
  | some fd => (fd, table.set fd (some file))
  | none => (table.entries.length, ⟨table.entries ++ [some file]⟩)

def close (table : FileDescriptorTable) (fd : Nat) : Except FdError Nat × FileDescriptorTable :=
  if (table.get fd).isNone then (.error .badFd, table) else (.ok 0, table.set fd none)

/-- `while entries.len() <= new_fd { entries.push(None) }`. -/
def growTo (table : FileDescriptorTable) (newFd : Nat) : FileDescriptorTable where
  entries := table.entries ++ List.replicate (newFd + 1 - table.entries.length) none

/-- The entry is cloned. -/
def dup2 (table : FileDescriptorTable) (oldFd newFd : Nat) :
    Except FdError Nat × FileDescriptorTable :=
  match table.get oldFd with
  | none => (.error .badFd, table)
  | some old => (.ok newFd, (table.growTo newFd).set newFd (some old))

end FileDescriptorTable

/-! ### Reading and writing -/

/-- The number of bytes copied, and the buffer after. -/
def copyFromOffset (src : List UInt8) (offset : Nat) (dst : List UInt8) : Nat × List UInt8 :=
  if offset ≥ src.length then (0, dst)
  else
    let n := min dst.length (src.length - offset)
    (n, (src.drop offset).take n ++ dst.drop n)

/-- `data.resize(len, 0)` for a longer `len`. -/
def resize (data : List UInt8) (len : Nat) : List UInt8 :=
  data ++ List.replicate (len - data.length) 0

/-- The content that a write without `APPEND` makes of the content `data`. -/
def spliced (data : List UInt8) (offset : Nat) (buf : List UInt8) : List UInt8 :=
  let data := if offset > data.length then resize data offset else data
  let data := if offset + buf.length > data.length then resize data (offset + buf.length) else data
  data.take offset ++ buf ++ data.drop (offset + buf.length)

/-- A file system and a table of descriptors into it. -/
structure Files where
  fs : RamFs
  table : FileDescriptorTable

namespace Files

def openFile (s : Files) (path : String) (flags : OpenFlags) : Except FdError Nat × Files :=
  let (created, fs) := if flags.contains .CREATE then s.fs.touch path else (.ok (), s.fs)
  match created with
  | .error e => (.error (.fs e), { s with fs := fs })
  | .ok () =>
    let (ready, fs) :=
      if flags.contains .TRUNC then fs.write path []
      else if !flags.contains .CREATE then ((fs.read path).map fun _ => (), fs)
      else (.ok (), fs)
    match ready with
    | .error e => (.error (.fs e), { s with fs := fs })
    | .ok () =>
      let (fd, table) := s.table.insert (.file path 0 flags)
      (.ok fd, { fs := fs, table := table })

/-- The answer, the caller's buffer and the state after. -/
def read (s : Files) (fd : Nat) (buf : List UInt8) : Except FdError Nat × List UInt8 × Files :=
  match s.table.get fd with
  | none => (.error .badFd, buf, s)
  | some (.stdin data offset) =>
    let (n, buf) := copyFromOffset data offset buf
    (.ok n, buf, { s with table := s.table.set fd (some (.stdin data (offset + n))) })
  | some (.file path offset flags) =>
    if !flags.contains .READ then (.error .permission, buf, s)
    else match s.fs.read path with
      | .error e => (.error (.fs e), buf, s)
      | .ok data =>
        let (n, buf) := copyFromOffset data offset buf
        (.ok n, buf, { s with table := s.table.set fd (some (.file path (offset + n) flags)) })
  | some (.stdout _) => (.error .permission, buf, s)
  | some (.stderr _) => (.error .permission, buf, s)

/-- A write to a file that was opened with `WRITE`. -/
def writeFile (s : Files) (fd : Nat) (path : String) (offset : Nat) (flags : OpenFlags)
    (buf : List UInt8) : Except FdError Nat × Files :=
  if flags.contains .APPEND then
    match s.fs.append path buf with
    | (.error e, fs) => (.error (.fs e), { s with fs := fs })
    | (.ok (), fs) => (.ok buf.length, { s with fs := fs })
  else
    match s.fs.write path (spliced ((s.fs.read path).toOption.getD []) offset buf) with
    | (.error e, fs) => (.error (.fs e), { s with fs := fs })
    | (.ok (), fs) => (.ok buf.length, {
        fs := fs
        table := s.table.set fd (some (.file path (offset + buf.length) flags)) })

def write (s : Files) (fd : Nat) (buf : List UInt8) : Except FdError Nat × Files :=
  match s.table.get fd with
  | none => (.error .badFd, s)
  | some (.stdout data) =>
    (.ok buf.length, { s with table := s.table.set fd (some (.stdout (data ++ buf))) })
  | some (.stderr data) =>
    (.ok buf.length, { s with table := s.table.set fd (some (.stderr (data ++ buf))) })
  | some (.file path offset flags) =>
    if !flags.contains .WRITE then (.error .permission, s) else s.writeFile fd path offset flags buf
  | some (.stdin _ _) => (.error .permission, s)

def close (s : Files) (fd : Nat) : Except FdError Nat × Files :=
  ((s.table.close fd).1, { s with table := (s.table.close fd).2 })

def dup2 (s : Files) (oldFd newFd : Nat) : Except FdError Nat × Files :=
  ((s.table.dup2 oldFd newFd).1, { s with table := (s.table.dup2 oldFd newFd).2 })

end Files

end Zeronix
