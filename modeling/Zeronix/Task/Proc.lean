import Zeronix.Mem.Page
import Zeronix.Task.ProcLayout
import Zeronix.User.Elf

/-!
# Processes

`src/task/proc.rs`: creating processes and switching between them, on the state of the whole
kernel that this touches.  A `ProcRef`, in the source a pointer to a process that is never
freed, is an index into `procs`.

`none` is a panic.  `spawn_elf` answers an error or the new process, and keeps what it did
before an error.  What `Box::new` and `push_back` need from the heap is not part of the calls: a
heap that grows takes a chunk from the buddy allocator in a step of its own.  The requests of
`add_proc` and `push_ready` stand at the ends of the calls.  That of `init` for the first process
stands at the start, so that a call before which no process runs is two steps, the heap's and its
own.  Register contexts and the interrupt flag are left out.

Page tables, programs and trap frames are written here where they are in physical memory, which is
what the source does as long as its window at `KERNEL_VMA` shows that memory.
-/

namespace Zeronix

open Mapper Page

def KERNEL_STACK_ORDER : Nat := 2
def KERNEL_STACK_SIZE : Nat := (1 <<< KERNEL_STACK_ORDER) * PAGE_SIZE
def USER_STACK_ORDER : Nat := 1
def USER_STACK_SIZE : Nat := (1 <<< USER_STACK_ORDER) * PAGE_SIZE

inductive ProcState where
  | Ready
  | Running
  | Blocked
  | Exited
  deriving DecidableEq, Repr

inductive ProcKind where
  | Kernel
  | User
  deriving DecidableEq, Repr

inductive SpawnError where
  | BadElf
  | ProgramTooLarge
  | NoMemory
  deriving DecidableEq, Repr

structure Proc where
  pid : Nat
  state : ProcState
  pagetable : Nat
  kstackPhys : Nat
  kstackTop : Nat
  kind : ProcKind
  ticksLeft : Nat
  entry : Option Nat
  trapFrame : Option Nat
  userCodePhys : Option Nat
  userStackPhys : Option Nat
  deriving DecidableEq, Repr

/-- The statics of the kernel that the calls below read and write, with the chunks that the
heap was given and the two registers that a switch loads. -/
structure System where
  pm : PhysMem
  kernelPml4 : Nat
  ring0StackTop : Nat
  procs : List Proc
  readyQueue : List Nat
  nextPid : Nat
  current : Option Nat
  chunks : List Nat
  cr3 : Nat
  rsp0 : Nat

/-! ### Trap frames -/

namespace TrapFrame

def USER_DATA_SELECTOR : Nat := 0x18 ||| 3
def USER_CODE_SELECTOR : Nat := 0x20 ||| 3

/-- `size_of::<TrapFrame>()`. -/
def SIZE : Nat := 160

/-- `TrapFrame::new_user`, word by word. -/
def newUser (rip rsp : Nat) : List Nat :=
  List.replicate 15 0 ++ [rip, USER_CODE_SELECTOR, 0x202, rsp, USER_DATA_SELECTOR]

/-- Words stored one after the other. -/
def write (m : Memory) (a : Nat) : List Nat → Memory
  | [] => m
  | w :: ws => write (m.store a w) (a + 8) ws

end TrapFrame

namespace System

/-! ### Bookkeeping -/

/-- `NEXT_PID.fetch_add(1)`, which wraps. -/
def fetchPid (s : System) : Nat × System :=
  (s.nextPid, { s with nextPid := (s.nextPid + 1) % Word.modulus })

def setState (s : System) (i : Nat) (state : ProcState) : System :=
  { s with procs := s.procs.modify i fun p => { p with state := state } }

def pushReady (s : System) (i : Nat) : System :=
  let s := s.setState i .Ready
  { s with readyQueue := s.readyQueue ++ [i] }

/-- `Box::leak(Box::new(proc))` and `push_ready`. -/
def addProc (s : System) (p : Proc) : Nat × System :=
  (s.procs.length, { s with procs := s.procs ++ [p] }.pushReady s.procs.length)

def kernelPml4? (s : System) : Option Nat := if s.kernelPml4 = 0 then none else some s.kernelPml4

def init (s : System) : Option System :=
  if s.current.isSome then some s
  else s.kernelPml4?.map fun pagetable =>
    { s with
      procs := s.procs ++ [{
        pid := 0
        state := .Running
        pagetable := pagetable
        kstackPhys := 0
        kstackTop := s.ring0StackTop
        kind := .Kernel
        ticksLeft := DEFAULT_TIME_SLICE_TICKS
        entry := none
        trapFrame := none
        userCodePhys := none
        userStackPhys := none }]
      current := some s.procs.length }

/-! ### Kernel tasks -/

/-- The virtual address of the end of a kernel stack. -/
def kstackTop (kstackPhys : Nat) : Option Nat :=
  (physToVirt kstackPhys).bind fun virt => Word.add virt KERNEL_STACK_SIZE

/-- `spawn_kernel` once the stack is there. -/
def startKernel (s : System) (pid entry kstackPhys : Nat) : Option (Nat × System) := do
  let top ← kstackTop kstackPhys
  let pagetable ← s.kernelPml4?
  return s.addProc {
    pid := pid
    state := .Ready
    pagetable := pagetable
    kstackPhys := kstackPhys
    kstackTop := top
    kind := .Kernel
    ticksLeft := DEFAULT_TIME_SLICE_TICKS
    entry := some entry
    trapFrame := none
    userCodePhys := none
    userStackPhys := none }

def spawnKernel (s : System) (entry : Nat) : Option (Nat × System) := do
  let s ← s.init
  let (pid, s) := s.fetchPid
  match ← s.pm.buddy.allocate KERNEL_STACK_ORDER with
  | (none, _) => none
  | (some kstackPhys, b) =>
    let s := { s with pm := { s.pm with buddy := b } }
    s.startKernel pid entry kstackPhys

/-! ### User tasks -/

def mapBootdataIdentity (pm : PhysMem) (pagetable : Nat) : Option PhysMem := do
  let stop ← alignUp BOOTDATA_END PAGE_SIZE
  (pageSteps (alignDown BOOTDATA_START PAGE_SIZE) stop).foldlM
    (fun pm addr => mapIntoPageTable pm pagetable addr addr
      (EntryFlags.PRESENT ||| EntryFlags.WRITABLE ||| EntryFlags.NX)) pm

def mapUserStackPage (pm : PhysMem) (pagetable virt phys : Nat) : Option PhysMem :=
  mapIntoPageTable pm pagetable virt phys
    (EntryFlags.PRESENT ||| EntryFlags.WRITABLE ||| EntryFlags.USER ||| EntryFlags.NX)

/-- The loop runs over the pages of the stack; `spawn_user` has the same loop in its text. -/
def mapUserStack (pm : PhysMem) (pagetable stackTop stackPhys : Nat) : Option PhysMem := do
  let stackBottom ← Word.sub stackTop USER_STACK_SIZE
  (List.range (1 <<< USER_STACK_ORDER)).foldlM
    (fun pm i => mapUserStackPage pm pagetable (stackBottom + i * PAGE_SIZE)
      (stackPhys + i * PAGE_SIZE)) pm

/-- One block of the given order. -/
def allocBlock (pm : PhysMem) (order : Nat) : Option (Option Nat × PhysMem) :=
  (pm.buddy.allocate order).map fun (addr, b) => (addr, { pm with buddy := b })

/-- The kernel stack, the code page and the user stack, in this order; the first request that
fails ends it. -/
def allocBlocks (pm : PhysMem) : Option (Option (Nat × Nat × Nat) × PhysMem) := do
  match ← allocBlock pm KERNEL_STACK_ORDER with
  | (none, pm) => some (none, pm)
  | (some kstackPhys, pm) =>
    match ← allocBlock pm 0 with
    | (none, pm) => some (none, pm)
    | (some codePhys, pm) =>
      match ← allocBlock pm USER_STACK_ORDER with
      | (none, pm) => some (none, pm)
      | (some ustackPhys, pm) => some (some (kstackPhys, codePhys, ustackPhys), pm)

/-- Clear the code page and copy the program to its start. -/
def writeCode (pm : PhysMem) (codePhys : Nat) (code : List UInt8) : Option PhysMem :=
  (physToVirt codePhys).map fun _ =>
    { pm with mem := (pm.mem.fill codePhys PAGE_SIZE 0).copy codePhys code }

/-- The new process, from its trap frame on. -/
def startUser (s : System) (pid pagetable kstackPhys codePhys ustackPhys rip stackTop : Nat) :
    Option (Nat × System) := do
  let top ← kstackTop kstackPhys
  let trapFrame ← Word.sub top TrapFrame.SIZE
  let m := TrapFrame.write s.pm.mem (kstackPhys + KERNEL_STACK_SIZE - TrapFrame.SIZE)
    (TrapFrame.newUser rip stackTop)
  return { s with pm := { s.pm with mem := m } }.addProc {
    pid := pid
    state := .Ready
    pagetable := pagetable
    kstackPhys := kstackPhys
    kstackTop := top
    kind := .User
    ticksLeft := DEFAULT_TIME_SLICE_TICKS
    entry := none
    trapFrame := some trapFrame
    userCodePhys := some codePhys
    userStackPhys := some ustackPhys }

/-- Map the program at `virt` and the stack, and start the process. -/
def loadUser (s : System) (pid pagetable : Nat) (blocks : Nat × Nat × Nat) (code : List UInt8)
    (virt rip stackTop : Nat) : Option (Nat × System) := do
  let (kstackPhys, codePhys, ustackPhys) := blocks
  let pm ← writeCode s.pm codePhys code
  let pm ← mapIntoPageTable pm pagetable virt codePhys (EntryFlags.PRESENT ||| EntryFlags.USER)
  let pm ← mapUserStack pm pagetable stackTop ustackPhys
  let s := { s with pm := pm }
  s.startUser pid pagetable kstackPhys codePhys ustackPhys rip stackTop

/-- The page table of a new process, with the boot data that every process keeps. -/
def newPageTable (s : System) : Option (Nat × PhysMem) := do
  let (pagetable, pm) ← createUserPageTable s.pm s.kernelPml4
  let pm ← mapBootdataIdentity pm pagetable
  return (pagetable, pm)

/-- An empty program is replaced by `jmp $`. -/
def userCode (code : List UInt8) : List UInt8 := if code.isEmpty then [0xeb, 0xfe] else code

/-- `spawn_user` once the page table is there. -/
def spawnUserWith (s : System) (pid codeBase stackTop pagetable : Nat) (code : List UInt8) :
    Option (Nat × System) := do
  match ← allocBlocks s.pm with
  | (none, _) => none
  | (some blocks, pm) =>
    let s := { s with pm := pm }
    s.loadUser pid pagetable blocks (userCode code) codeBase codeBase stackTop

def spawnUser (s : System) (code : List UInt8) : Option (Nat × System) := do
  let s ← s.init
  if code.length > PAGE_SIZE then none
  else
    let (pid, s) := s.fetchPid
    let codeBase ← userCodeBase pid
    let stackTop ← userStackTop pid
    let (pagetable, pm) ← s.newPageTable
    let s := { s with pm := pm }
    s.spawnUserWith pid codeBase stackTop pagetable code

/-- `spawn_elf` once the page table is there. -/
def spawnElfWith (s : System) (pid stackTop pagetable : Nat) (image : List UInt8)
    (parsed : Elf.ParsedElf) : Option (Except SpawnError Nat × System) := do
  match ← allocBlocks s.pm with
  | (none, pm) => some (.error .NoMemory, { s with pm := pm })
  | (some blocks, pm) =>
    let s := { s with pm := pm }
    (s.loadUser pid pagetable blocks
      ((image.drop parsed.load.offset).take parsed.load.fileSize) parsed.load.virtAddr
      parsed.entry stackTop).map fun (i, s) => (.ok i, s)

/-- `spawn_elf` for an image that was parsed. -/
def spawnParsed (s : System) (image : List UInt8) (parsed : Elf.ParsedElf) :
    Option (Except SpawnError Nat × System) := do
  if parsed.load.fileSize > PAGE_SIZE ∨ parsed.load.memSize > PAGE_SIZE then
    some (.error .ProgramTooLarge, s)
  else
    let (pid, s) := s.fetchPid
    let stackTop ← userStackTop pid
    let (pagetable, pm) ← s.newPageTable
    let s := { s with pm := pm }
    s.spawnElfWith pid stackTop pagetable image parsed

def spawnElf (s : System) (image : List UInt8) : Option (Except SpawnError Nat × System) := do
  let s ← s.init
  match ← Elf.parse image with
  | .error _ => some (.error .BadElf, s)
  | .ok parsed => s.spawnParsed image parsed

/-! ### Switching -/

/-- The second half of `schedule`: `next` runs, and its stack and page table are loaded. -/
def switchTo (s : System) (next : Nat) : Option System := do
  let p ← s.procs[next]?
  return { s with
    procs := s.procs.modify next fun p =>
      { p with state := .Running, ticksLeft := DEFAULT_TIME_SLICE_TICKS }
    current := some next
    rsp0 := p.kstackTop
    cr3 := p.pagetable &&& ADDR_MASK }

/-- A process that still runs goes to the end of the queue. -/
def requeue (s : System) (old : Nat) : Option System := do
  let p ← s.procs[old]?
  if p.state = .Running then some (s.pushReady old) else some s

def schedule (s : System) : Option System :=
  match s.readyQueue with
  | [] => some s
  | next :: rest =>
    let s := { s with readyQueue := rest }
    match s.current with
    | none => none
    | some old => if old = next then some s else (s.requeue old).bind (·.switchTo next)

def yieldNow (s : System) : Option System := s.schedule

def exitCurrent (s : System) : Option System :=
  match s.current with
  | none => s.schedule
  | some i => (s.setState i .Exited).schedule

def onTimerTick (s : System) : Option System :=
  match s.current with
  | none => some s
  | some i => do
    let p ← s.procs[i]?
    let (ticks, expired) := consumeTick p.ticksLeft DEFAULT_TIME_SLICE_TICKS
    let s := { s with procs := s.procs.modify i fun p => { p with ticksLeft := ticks } }
    if expired then s.schedule else some s

/-! ### The heap -/

/-- `grow_heap`: a chunk from the buddy allocator, or nothing. -/
def growHeap (s : System) : Option System :=
  (allocBlock s.pm CHUNK_ORDER).map fun
    | (none, pm) => { s with pm := pm }
    | (some phys, pm) => { s with pm := pm, chunks := phys :: s.chunks }

end System

end Zeronix
