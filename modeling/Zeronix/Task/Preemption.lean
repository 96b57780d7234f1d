import Zeronix.Task.Context
import Mathlib.Logic.Relation

/-!
# Preemption

Tasks on one CPU with their kernel stacks: the timer interrupts what runs, the handler may switch
to another task, and a task that was switched from goes on after `__switch_context` when another
one switches to it.

The assembly is run as it is written.  Compiled code is a parameter (`Compiled`): any code that
keeps to the calling convention, stays below the stack pointer it was entered with, and leaves the
stacks of the other tasks and all contexts alone (`Compiled.Abi`).
-/

namespace Zeronix

open Gpr

/-! ### The model -/

/-- Where the tasks have their kernel stacks and contexts.  A user task has a trap frame, at the
end of its kernel stack. -/
structure TaskLayout (T : Type) where
  lo : T → Nat
  hi : T → Nat
  ctx : T → UInt64
  kstackTop : T → UInt64
  trapFrame : T → Option Frame
  hi_lt : ∀ t, hi t < 2 ^ 64
  ctx_le : ∀ t, (ctx t).toNat + Context.SIZE ≤ 2 ^ 64
  stack_stack : ∀ t t', t ≠ t' → hi t ≤ lo t' ∨ hi t' ≤ lo t
  ctx_ctx : ∀ t t', t ≠ t' → (ctx t).toNat + Context.SIZE ≤ (ctx t').toNat ∨
    (ctx t').toNat + Context.SIZE ≤ (ctx t).toNat
  ctx_stack : ∀ t t', (ctx t).toNat + Context.SIZE ≤ lo t' ∨ hi t' ≤ (ctx t).toNat
  user_top : ∀ t, (trapFrame t).isSome → (kstackTop t).toNat = hi t
  user_size : ∀ t, (trapFrame t).isSome → lo t + KERNEL_STACK_SIZE = hi t
  user_align : ∀ t, (trapFrame t).isSome → hi t % 16 = 0

namespace TaskLayout

variable {T : Type} (L : TaskLayout T)

/-- `kstack_top - size_of::<TrapFrame>()`. -/
def trapAddr (t : T) : UInt64 := L.kstackTop t - 160

def InStack (t : T) (x : Nat) : Prop := L.lo t ≤ x ∧ x < L.hi t

def InContext (t : T) (x : Nat) : Prop :=
  (L.ctx t).toNat ≤ x ∧ x < (L.ctx t).toNat + Context.SIZE

/-- What code of the task `t` leaves alone that was entered with the stack pointer `sp`. -/
def Confined (t : T) (sp : Nat) (m m' : Memory) : Prop :=
  ∀ x, (L.InStack t x ∧ sp ≤ x) ∨ (∃ t', t' ≠ t ∧ L.InStack t' x) ∨ (∃ t', L.InContext t' x) →
    m'.bytes x = m.bytes x

end TaskLayout

/-- Compiled code that a task runs: `__irq_handler` from its entry to its return, or up to the
entry of `__switch_context`; from the return of `__switch_context` to the return of
`__irq_handler`; and `user_task_bootstrap` up to the entry of `__enter_user`. -/
structure Compiled (T : Type) where
  returns : T → Core → Core → Prop
  calls : T → Core → Core → Prop
  resumes : T → Core → Core → Prop
  starts : T → Core → Core → Prop

/-- What a function that was entered in `s` has kept when it has returned, in `s'`. -/
def Core.Returned (s s' : Core) : Prop :=
  s'.context = { s.context with rsp := s.rsp + 8, rip := s'.rip } ∧ s'.rsp0 = s.rsp0

/-- The calling convention.  The handler keeps the registers of a context also across a call that
keeps them and the stack of the caller. -/
structure Compiled.Abi {T : Type} (k : Compiled T) (L : TaskLayout T) : Prop where
  returns : ∀ t s s', k.returns t s s' → s.Returned s' ∧ L.Confined t s.rsp.toNat s.mem s'.mem
  calls : ∀ t s s₁, k.calls t s s₁ → L.lo t ≤ s₁.rsp.toNat ∧ s₁.rsp.toNat + 8 ≤ s.rsp.toNat ∧
    L.Confined t s.rsp.toNat s.mem s₁.mem
  resumes : ∀ t s s₁ s₂ s₃, k.calls t s s₁ →
    s₂.context = { s₁.context with rsp := s₁.rsp + 8, rip := s₂.rip } →
    (∀ x, s₁.rsp.toNat + 8 ≤ x → x < L.hi t → s₂.mem.bytes x = s₁.mem.bytes x) →
    k.resumes t s₂ s₃ →
    s₃.context = { s.context with rsp := s.rsp + 8, rip := s₃.rip } ∧ s₃.rsp0 = s₂.rsp0 ∧
      L.Confined t s.rsp.toNat s₂.mem s₃.mem
  starts : ∀ t s s', k.starts t s s' → s'.rsp0 = s.rsp0 ∧ L.Confined t s.rsp.toNat s.mem s'.mem

/-- Where the CPU is: in the code of the current task, at the entry of the handler, back in the
stub, after the jump of `__switch_context`, behind its `ret` in the handler, or at the entry of
`__enter_user`. -/
inductive Pc where
  | code
  | handler
  | stub
  | jumped
  | back
  | entering
  deriving DecidableEq

/-- A task that was interrupted has the registers that it had then. -/
inductive Status where
  | fresh
  | active
  | interrupted (f : Frame)
  | gone

structure TaskMachine (T : Type) where
  core : Core
  current : T
  pc : Pc
  status : T → Status

namespace TaskMachine

variable {T : Type} [DecidableEq T]

def setStatus (m : TaskMachine T) (s : Status) : T → Status := Function.update m.status m.current s

/-- `schedule` has set the stack of the next task and calls `__switch_context(old, next)`. -/
def switchCall (L : TaskLayout T) (s : Core) (old next : T) : Core :=
  { (s.setGpr rdi (L.ctx old)).setGpr rsi (L.ctx next) with rsp0 := L.kstackTop next }

variable (sym : Symbols) (L : TaskLayout T) (k : Compiled T)

/-- There is room on the kernel stack for an interrupt. -/
def Room (m : TaskMachine T) : Prop :=
  if m.core.userMode then (L.trapFrame m.current).isSome = true
  else L.lo m.current + 512 ≤ m.core.rsp.toNat ∧ m.core.rsp.toNat ≤ L.hi m.current

/-- The code of the current task does what it likes to the registers and to memory that is not a
stack of another task or a context. -/
def Runs (m : TaskMachine T) (s : Core) : Prop :=
  s.rsp0 = m.core.rsp0 ∧ L.Confined m.current (L.hi m.current) m.core.mem s.mem

inductive Step (m : TaskMachine T) : TaskMachine T → Prop
  | run (s : Core) : m.pc = .code → m.Runs L s → Step m { m with core := s }
  | tick : m.pc = .code → m.core.rflags &&& 0x200 ≠ 0 → m.Room L →
      Step m { m with
        core := (m.core.interrupt KERNEL_CODE_SELECTOR sym.irqStub).run (irqStubEntry sym IRQ_BASE)
        pc := .handler
        status := m.setStatus (.interrupted m.core.frame) }
  | ret (s : Core) : m.pc = .handler → k.returns m.current m.core s →
      Step m { m with core := s, pc := .stub }
  | switch (next : T) (s : Core) : m.pc = .handler → next ≠ m.current → m.status next ≠ .gone →
      k.calls m.current m.core s →
      Step m { m with
        core := (switchCall L s m.current next).run (switchContext sym)
        current := next
        pc := .jumped }
  | yield (next : T) (s : Core) : m.pc = .code → next ≠ m.current → m.status next ≠ .gone →
      m.Runs L s →
      Step m { m with
        core := (switchCall L s m.current next).run (switchContext sym)
        current := next
        pc := .jumped }
  | exit (next : T) (s : Core) : m.pc = .code → next ≠ m.current → m.status next ≠ .gone →
      m.Runs L s →
      Step m {
        core := (switchCall L s m.current next).run (switchContext sym)
        current := next
        pc := .jumped
        status := m.setStatus .gone }
  | back (f : Frame) : m.pc = .jumped → m.core.rip = sym.switchReturn →
      m.status m.current = .interrupted f →
      Step m { m with core := m.core.exec .ret, pc := .back }
  | backCode : m.pc = .jumped → m.core.rip = sym.switchReturn → m.status m.current = .active →
      Step m { m with core := m.core.exec .ret, pc := .code }
  | start (s : Core) : m.pc = .jumped → m.core.rip = sym.userTaskBootstrap →
      k.starts m.current m.core s →
      Step m { m with core := s.setGpr rdi (L.trapAddr m.current), pc := .entering }
  | startKernel : m.pc = .jumped → m.core.rip = sym.kernelTaskBootstrap →
      Step m { m with pc := .code, status := m.setStatus .active }
  | resume (s : Core) : m.pc = .back → k.resumes m.current m.core s →
      Step m { m with core := s, pc := .stub }
  | leave : m.pc = .stub →
      Step m { m with
        core := m.core.run irqStubExit
        pc := .code
        status := m.setStatus .active }
  | enter : m.pc = .entering →
      Step m { m with
        core := m.core.run enterUser
        pc := .code
        status := m.setStatus .active }

abbrev Steps : TaskMachine T → TaskMachine T → Prop := Relation.ReflTransGen (Step sym L k)

/-- The context that a task is created with. -/
def newContext (t : T) : Context where
  r15 := 0
  r14 := 0
  r13 := 0
  r12 := 0
  rbx := 0
  rbp := 0
  rsp := (if (L.trapFrame t).isSome then L.trapAddr t else L.kstackTop t) &&& ~~~15
  rip := if (L.trapFrame t).isSome then sym.userTaskBootstrap else sym.kernelTaskBootstrap

/-- One task runs, and the others have been created. -/
structure Booted (m : TaskMachine T) : Prop where
  pc : m.pc = .code
  rsp0 : m.core.rsp0 = L.kstackTop m.current
  current : m.status m.current = .active
  fresh : ∀ t, t ≠ m.current → m.status t = .fresh ∧
    Spells m.core.mem (L.ctx t).toNat (newContext sym L t).words ∧
    ∀ f, L.trapFrame t = some f → Spells m.core.mem (L.trapAddr t).toNat f.trapWords

end TaskMachine

end Zeronix
