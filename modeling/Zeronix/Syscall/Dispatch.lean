import Zeronix.Syscall.Table
import Zeronix.Task.ProgramSpecs

/-!
# System calls

`src/syscall.rs` from `__syscall_entry` on: what a system call does with the memory of the user,
with its locks and with its stack.  A pointer is an address; an access to an address that is not
mapped is a page fault, which ends in a panic.
-/

namespace Zeronix

open SpinLock

inductive SyscallNumber where
  | Fork
  | Exec
  | Exit
  | WaitPid
  | Read
  | Write
  | Open
  | Close
  | Dup2
  | Unlink
  | Rename
  | Mkdir
  deriving DecidableEq, Repr

/-- `SyscallNumber::X as usize`. -/
def SyscallNumber.val : SyscallNumber → Nat
  | Fork => 1
  | Exec => 2
  | Exit => 3
  | WaitPid => 4
  | Read => 5
  | Write => 6
  | Open => 7
  | Close => 8
  | Dup2 => 9
  | Unlink => 10
  | Rename => 11
  | Mkdir => 12

def MAX_USER_STRING : Nat := 256

/-- The registers that `__syscall_entry` saves. -/
structure UserFrame where
  rsp : Nat
  r11 : Nat
  rcx : Nat
  rbx : Nat
  rbp : Nat
  r12 : Nat
  r13 : Nat
  r14 : Nat
  r15 : Nat
  deriving DecidableEq, Repr

/-- A `syscall` instruction: the number, the arguments and the registers to save. -/
structure Syscall where
  number : Nat
  arg0 : Nat
  arg1 : Nat
  arg2 : Nat
  frame : UserFrame
  deriving DecidableEq, Repr

/-- What `sysretq` goes back with. -/
structure SysReturn where
  rax : Int
  frame : UserFrame
  deriving DecidableEq, Repr

namespace Kernel

/-! ### User memory -/

def load (addr : Nat) : Code UInt8 :=
  .liftOpt fun k => (k.mem (addr % Word.modulus)).map fun b => (b, k)

def store (addr : Nat) (b : UInt8) : Code Unit :=
  .liftOpt fun k => (k.mem (addr % Word.modulus)).map fun _ =>
    ((), { k with mem := Function.update k.mem (addr % Word.modulus) (some b) })

/-- The bytes of a slice `&[u8]`, when they are copied. -/
def loadSlice (ptr : Nat) : Nat → Code (List UInt8)
  | 0 => return []
  | n + 1 => do
    let b ← load ptr
    let bytes ← loadSlice (ptr + 1) n
    return b :: bytes

/-- `dst[..n].copy_from_slice(..)` into a slice `&mut [u8]`. -/
def storeSlice (ptr : Nat) : List UInt8 → Code Unit
  | [] => return ()
  | b :: bytes => do
    store ptr b
    storeSlice (ptr + 1) bytes

/-- The loop of `copy_user_cstr`, with `n` bytes still allowed.  The bytes of a string that is too
long are freed. -/
def cstrLoop (ptr : Nat) : Nat → List UInt8 → Code (Except SysError (List UInt8))
  | 0, _ => do
    useHeap
    return .error .invalidArgument
  | n + 1, bytes => do
    let byte ← load (ptr + bytes.length)
    if byte = 0 then return .ok bytes
    else do
      useHeap
      cstrLoop ptr n (bytes ++ [byte])

def copyUserCstr (ptr : Nat) : Code (Except SysError String) :=
  if ptr = 0 then return .error .invalidArgument
  else do
    match ← cstrLoop ptr MAX_USER_STRING [] with
    | .error e => return .error e
    | .ok bytes =>
      match String.fromUTF8? ⟨bytes.toArray⟩ with
      | none => do
        useHeap
        return .error .invalidArgument
      | some path => return .ok path

/-- `let path = copy_user_cstr(ptr)?; ..`, with the string freed in the end. -/
def withPath (ptr : Nat) (f : String → Code SysResult) : Code SysResult := do
  match ← copyUserCstr ptr with
  | .error e => return .error e
  | .ok path =>
    let r ← f path
    useHeap
    return r

/-! ### The file system and the descriptors -/

def withFs (f : Code SysResult) : Code SysResult :=
  guarded .kernelFs do
    if ← Prog.lift fun k => (k.fs.isSome, k) then f else return .error .unsupported

def withFdTable (f : Code SysResult) : Code SysResult :=
  guarded .kernelFdTable do
    if ← Prog.lift fun k => (k.fdTable.isSome, k) then f else return .error .unsupported

def onFs {β : Type} (f : RamFs → β × RamFs) : Code β :=
  .liftOpt fun k => k.fs.map fun fs => ((f fs).1, { k with fs := some (f fs).2 })

def onTable {β : Type} (f : FileDescriptorTable → β × FileDescriptorTable) : Code β :=
  .liftOpt fun k => k.fdTable.map fun table =>
    ((f table).1, { k with fdTable := some (f table).2 })

def onFiles {β : Type} (f : Files → β × Files) : Code β :=
  .liftOpt fun k => k.fs.bind fun fs => k.fdTable.map fun table =>
    ((f ⟨fs, table⟩).1,
      { k with fs := some (f ⟨fs, table⟩).2.fs, fdTable := some (f ⟨fs, table⟩).2.table })

/-! ### The calls -/

def decodeOpenFlags (raw : Nat) : OpenFlags :=
  let flags := OpenFlags.empty
  let flags := if raw &&& 1 ≠ 0 then flags ||| .READ else flags
  let flags := if raw &&& 2 ≠ 0 then flags ||| .WRITE else flags
  let flags := if raw &&& 4 ≠ 0 then flags ||| .CREATE else flags
  let flags := if raw &&& 8 ≠ 0 then flags ||| .TRUNC else flags
  if raw &&& 16 ≠ 0 then flags ||| .APPEND else flags

def syscallOpen (pathPtr rawFlags : Nat) : Code SysResult :=
  withPath pathPtr fun path =>
    withFs (withFdTable do
      useHeap
      onFiles fun s => SyscallTable.openFile s path (decodeOpenFlags rawFlags))

/-- Only the bytes that were read are stored. -/
def syscallRead (fd bufPtr len : Nat) : Code SysResult :=
  if bufPtr = 0 then return .error .invalidArgument
  else withFs (withFdTable do
    useHeap
    let (r, buf) ← onFiles fun s =>
      let (r, buf, s) := SyscallTable.read s fd (List.replicate len 0)
      ((r, buf), s)
    match r with
    | .error e => return .error e
    | .ok n => do
      storeSlice bufPtr (buf.take n)
      return .ok n)

/-- Whether a write through the descriptor gets as far as its bytes. -/
def copiesFrom (k : Kernel) (fd : Nat) : Bool :=
  match k.fdTable.bind fun table => table.get fd with
  | some (.stdout _) => true
  | some (.stderr _) => true
  | some (.file _ _ flags) => flags.contains .WRITE
  | _ => false

/-- `SyscallTable::write` on a slice of user memory. -/
def tableWrite (fd bufPtr len : Nat) : Code SysResult := do
  useHeap
  if ← Prog.lift fun k => (k.copiesFrom fd, k) then do
    let buf ← loadSlice bufPtr len
    onFiles fun s => SyscallTable.write s fd buf
  else onFiles fun s => SyscallTable.write s fd []

def mirrorConsoleWrite (fd bufPtr len : Nat) : Code Unit :=
  if fd ≠ 1 ∧ fd ≠ 2 then return ()
  else guarded .consoleWrite do
    if ← Prog.lift fun k => (k.consoleHook, k) then do
      let buf ← loadSlice bufPtr len
      Prog.lift fun k => ((), { k with console := k.console ++ buf })
    else return ()

def syscallWrite (fd bufPtr len : Nat) : Code SysResult :=
  if bufPtr = 0 then return .error .invalidArgument
  else do
    match ← withFs (withFdTable (tableWrite fd bufPtr len)) with
    | .error e => return .error e
    | .ok written => do
      mirrorConsoleWrite fd bufPtr written
      return .ok written

/-- `exec_program` of `main.rs`. -/
def execProgram (image : List UInt8) : Code SysResult := do
  match ← spawnElf image with
  | .error _ => return .error .invalidArgument
  | .ok i =>
    let pid ← onSys fun s => s.procs[i]?.map fun p => (p.pid, s)
    return .ok pid

/-- `exec_program.ok_or(SysError::Unsupported)?(&image)` -/
def execImage (image : List UInt8) : Code SysResult := do
  if ← guarded .execProgram (Prog.lift fun k => (k.execHook, k)) then execProgram image
  else return .error .unsupported

/-- The image is freed in the end. -/
def exec (path : String) : Code SysResult := do
  useHeap
  match ← onFs fun fs => (fs.read path, fs) with
  | .error e => return .error (.ofFs e)
  | .ok image => do
    let r ← execImage image
    useHeap
    return r

/-- The guard lives to the end of the `if let`. -/
def syscallExit (status : Nat) : Code SysResult := do
  let enabled ← lock .exitCurrent
  if ← Prog.lift fun k => (k.exitHook, k) then exitCurrent status
  else do
    drop .exitCurrent enabled
    return .error .unsupported

open SyscallNumber in
def dispatch (number arg0 arg1 arg2 : Nat) : Code SysResult :=
  if number = Read.val then syscallRead arg0 arg1 arg2
  else if number = Write.val then syscallWrite arg0 arg1 arg2
  else if number = Open.val then syscallOpen arg0 arg1
  else if number = Close.val then
    withFdTable do
      useHeap
      onTable fun table => (sysFd (table.close arg0).1, (table.close arg0).2)
  else if number = Dup2.val then
    withFdTable do
      useHeap
      onTable fun table => (sysFd (table.dup2 arg0 arg1).1, (table.dup2 arg0 arg1).2)
  else if number = Unlink.val then
    withPath arg0 fun path => withFs do
      useHeap
      onFs fun fs => (sysFs (fs.remove path).1, (fs.remove path).2)
  else if number = Rename.val then
    withPath arg0 fun old => withPath arg1 fun new => withFs do
      useHeap
      onFs fun fs => (sysFs (fs.rename old new).1, (fs.rename old new).2)
  else if number = Mkdir.val then
    withPath arg0 fun path => withFs do
      useHeap
      onFs fun fs => (sysFs (fs.mkdir path).1, (fs.mkdir path).2)
  else if number = Fork.val then return .error .unsupported
  else if number = Exec.val then withPath arg0 fun path => withFs (exec path)
  else if number = Exit.val then syscallExit arg0
  else return .error .noSuchSyscall

/-- `value as isize`. -/
def asIsize (value : Nat) : Int :=
  if value % Word.modulus < Word.modulus / 2 then (value % Word.modulus : Nat)
  else (value % Word.modulus : Nat) - (Word.modulus : Nat)

def syscallDispatch (number arg0 arg1 arg2 : Nat) : Code Int := do
  match ← dispatch number arg0 arg1 arg2 with
  | .ok value => return asIsize value
  | .error err => return err.errno

/-! ### The entry -/

/-- The pushes, from the end of the stack on. -/
def pushFrame (f : UserFrame) : Code Unit :=
  Prog.lift fun k => ((), { k with
    userRsp := f.rsp
    stack := [f.r11, f.rcx, f.rbx, f.rbp, f.r12, f.r13, f.r14, f.r15] })

/-- The pops and the load of the user's stack pointer. -/
def popFrame : Code UserFrame :=
  .liftOpt fun k => match k.stack with
    | [r11, rcx, rbx, rbp, r12, r13, r14, r15] => some ({
        rsp := k.userRsp
        r11 := r11
        rcx := rcx
        rbx := rbx
        rbp := rbp
        r12 := r12
        r13 := r13
        r14 := r14
        r15 := r15 }, k)
    | _ => none

def syscallEntry (c : Syscall) : Code (Option SysReturn) := do
  pushFrame c.frame
  let rax ← syscallDispatch c.number c.arg0 c.arg1 c.arg2
  let frame ← popFrame
  return some { rax := rax, frame := frame }

end Kernel

end Zeronix
