import Zeronix.Lock.SpinLock
import Zeronix.Syscall.Fd
import Zeronix.Task.Scheduler

/-!
# Processes, with their locks

The calls of `src/task/proc.rs` that system calls and the timer make, one operation after the
other: what `System` does in one piece is here divided where the source takes and drops a lock,
reads or writes the interrupt flag, or switches.

What the free list of the heap answers is left open: `heapWork` gives, each time the heap is
used, how often each request has to grow the heap.
-/

namespace Zeronix

open Page SpinLock

/-- The statics of the kernel.  A hook is the function that `kernel_main` registers, or none.
`mem` is what loads and stores through the pointers of a user find at an address, where an access to
`none` faults.  The kernel's own accesses are not made through it: that the window at `KERNEL_VMA`
shows every frame a second time, and that the files, the descriptors and the heap lie there, is
left out.
`userRsp` and `stack` are `__SYSCALL_USER_RSP` and the words on `__SYSCALL_STACK`. -/
structure Kernel where
  sys : System
  fs : Option RamFs
  fdTable : Option FileDescriptorTable
  consoleHook : Bool
  execHook : Bool
  exitHook : Bool
  console : List UInt8
  mem : Nat → Option UInt8
  heapWork : Nat → List Nat
  heapTurn : Nat
  userRsp : Nat
  stack : List Nat

/-- A thread is a process, given by its index. -/
abbrev Code (α : Type) := Prog Kernel Lock Nat α

namespace Kernel

def setSys (k : Kernel) (s : System) : Kernel := { k with sys := s }

def onSys {β : Type} (f : System → Option (β × System)) : Code β :=
  .liftOpt fun k => (f k.sys).map fun r => (r.1, k.setSys r.2)

def onPm {β : Type} (f : PhysMem → Option (β × PhysMem)) : Code β :=
  onSys fun s => (f s.pm).map fun r => (r.1, { s with pm := r.2 })

/-! ### The flag -/

def interruptsEnabled : Code Bool := .readFlag .ret

def disableInterrupts : Code Unit := .setFlag false (.ret ())

def enableInterrupts : Code Unit := .setFlag true (.ret ())

/-- `if interrupts_were_enabled { enable_interrupts() }`. -/
def restoreInterrupts (enabled : Bool) : Code Unit :=
  if enabled then enableInterrupts else .ret ()

/-! ### The heap -/

def growHeap : Code Unit :=
  guarded .buddyAllocator (onSys fun s => s.growHeap.map fun s => ((), s))

/-- One `alloc` or `dealloc`, which grows the heap `n` times. -/
def heapRequest (n : Nat) : Code Unit :=
  guarded .heap (.each (fun _ => growHeap) (List.range n))

/-- The requests of one operation on a collection. -/
def useHeap : Code Unit := do
  let requests ← Prog.lift fun k => (k.heapWork k.heapTurn, { k with heapTurn := k.heapTurn + 1 })
  Prog.each heapRequest requests

/-! ### Creating processes -/

def createUserPageTable : Code Nat :=
  guarded .buddyAllocator (onSys fun s =>
    (Page.createUserPageTable s.pm s.kernelPml4).map fun r => (r.1, { s with pm := r.2 }))

def mapIntoPageTable (pml4 virt phys : Nat) (flags : EntryFlags) : Code Unit :=
  guarded .buddyAllocator (onPm fun pm =>
    (Page.mapIntoPageTable pm pml4 virt phys flags).map fun pm => ((), pm))

def mapBootdataIdentity (pagetable : Nat) : Code Unit :=
  match alignUp BOOTDATA_END PAGE_SIZE with
  | none => .stop
  | some stop => .each (fun addr => mapIntoPageTable pagetable addr addr
      (EntryFlags.PRESENT ||| EntryFlags.WRITABLE ||| EntryFlags.NX))
      (pageSteps (alignDown BOOTDATA_START PAGE_SIZE) stop)

def mapUserStack (pagetable stackTop stackPhys : Nat) : Code Unit :=
  match Word.sub stackTop USER_STACK_SIZE with
  | none => .stop
  | some stackBottom => .each (fun i => mapIntoPageTable pagetable (stackBottom + i * PAGE_SIZE)
      (stackPhys + i * PAGE_SIZE)
      (EntryFlags.PRESENT ||| EntryFlags.WRITABLE ||| EntryFlags.USER ||| EntryFlags.NX))
      (List.range (1 <<< USER_STACK_ORDER))

/-- `Box::new` and `push_ready`.  The new process is nobody else's before it is in the queue. -/
def addProc (p : Proc) : Code Nat := do
  useHeap
  guarded .readyQueue do
    useHeap
    Prog.lift fun k => ((k.sys.addProc p).1, k.setSys (k.sys.addProc p).2)

/-- The trap frame and the process. -/
def startUser (pid pagetable kstackPhys codePhys ustackPhys rip stackTop : Nat) : Code Nat :=
  match System.kstackTop kstackPhys with
  | none => .stop
  | some top =>
    match Word.sub top TrapFrame.SIZE with
    | none => .stop
    | some trapFrame => do
      onPm fun pm => some ((), { pm with
        mem := TrapFrame.write pm.mem (kstackPhys + KERNEL_STACK_SIZE - TrapFrame.SIZE)
          (TrapFrame.newUser rip stackTop) })
      addProc {
        pid := pid
        state := .Ready
        pagetable := pagetable
        kstackPhys := kstackPhys
        kstackTop := top
        kind := .User
        ticksLeft := DEFAULT_TIME_SLICE_TICKS
        entry := none
        trapFrame := some trapFrame
        userCodePhys := some codePhys
        userStackPhys := some ustackPhys }

/-- `spawn_elf` for an image of the right size. -/
def spawnParsed (image : List UInt8) (parsed : Elf.ParsedElf) : Code (Except SpawnError Nat) := do
  let pid ← onSys fun s => some s.fetchPid
  match userStackTop pid with
  | none => .stop
  | some stackTop => do
    let pagetable ← createUserPageTable
    mapBootdataIdentity pagetable
    match ← guarded .buddyAllocator (onPm System.allocBlocks) with
    | none => return .error .NoMemory
    | some (kstackPhys, codePhys, ustackPhys) => do
      onPm fun pm => (System.writeCode pm codePhys
        ((image.drop parsed.load.offset).take parsed.load.fileSize)).map fun pm => ((), pm)
      mapIntoPageTable pagetable parsed.load.virtAddr codePhys (EntryFlags.PRESENT ||| EntryFlags.USER)
      mapUserStack pagetable stackTop ustackPhys
      let i ← startUser pid pagetable kstackPhys codePhys ustackPhys parsed.entry stackTop
      return .ok i

def spawnElf (image : List UInt8) : Code (Except SpawnError Nat) := do
  onSys fun s => s.init.map fun s => ((), s)
  match Elf.parse image with
  | none => .stop
  | some (.error _) => return .error .BadElf
  | some (.ok parsed) =>
    if parsed.load.fileSize > PAGE_SIZE ∨ parsed.load.memSize > PAGE_SIZE then
      return .error .ProgramTooLarge
    else spawnParsed image parsed

/-! ### Switching -/

def currentProc : Code Nat := onSys fun s => s.current.map fun i => (i, s)

/-- `queue.pop_front()`. -/
def popFront : Code (Option Nat) :=
  Prog.lift fun k => (k.sys.readyQueue.head?,
    k.setSys { k.sys with readyQueue := k.sys.readyQueue.tail })

/-- A process that still runs goes to the end of the queue. -/
def requeue (old : Nat) : Code Unit := do
  let state ← onSys fun s => s.procs[old]?.map fun p => (p.state, s)
  if state = .Running then do
    Prog.lift fun k => ((), k.setSys (k.sys.setState old .Ready))
    guarded .readyQueue do
      useHeap
      Prog.lift fun k => ((), k.setSys { k.sys with readyQueue := k.sys.readyQueue ++ [old] })
  else return ()

def schedule : Code Unit := do
  let enabled ← interruptsEnabled
  disableInterrupts
  match ← guarded .readyQueue popFront with
  | none => restoreInterrupts enabled
  | some next => do
    let old ← currentProc
    if old = next then restoreInterrupts enabled
    else do
      requeue old
      onSys fun s => (s.switchTo next).map fun s => ((), s)
      Prog.switch next (.ret ())
      restoreInterrupts enabled

/-- It does not return. -/
def exitCurrent {α : Type} (_status : Nat) : Code α := do
  disableInterrupts
  Prog.lift fun k => ((), match k.sys.current with
    | none => k
    | some i => k.setSys (k.sys.setState i .Exited))
  schedule
  enableInterrupts
  Prog.idle

/-- Whether the time slice of the current process is over. -/
def consumeTick : Code Bool :=
  onSys fun s => match s.current with
    | none => some (false, s)
    | some i => s.procs[i]?.map fun p =>
      let (ticks, expired) := Zeronix.consumeTick p.ticksLeft DEFAULT_TIME_SLICE_TICKS
      (expired, { s with procs := s.procs.modify i fun p => { p with ticksLeft := ticks } })

def onTimerTick : Code Unit := do
  if ← consumeTick then schedule else return ()

/-- `__irq_handler` for the timer.  The tick counter and the controller are left out. -/
def timerHandler : Code Unit := onTimerTick

end Kernel

end Zeronix
