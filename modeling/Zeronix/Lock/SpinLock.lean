import Zeronix.Lib.Cpu

/-!
# Spin locks

`src/lock/spin_lock.rs`, with the locks of the kernel.  A guard remembers whether interrupts were
enabled when the lock was taken, and gives that back when it is dropped.

The kernel takes its locks in one order (`Lock.rank`), so that code that takes locks from a rank
on never waits for one that it holds itself (`quiet_guarded`).
-/

namespace Zeronix

inductive Lock where
  | exitCurrent
  | kernelFs
  | consoleWrite
  | kernelFdTable
  | execProgram
  | readyQueue
  | heap
  | buddyAllocator
  deriving DecidableEq, Repr

/-- A lock is only ever taken while the locks held have smaller ranks. -/
def Lock.rank : Lock → Nat
  | exitCurrent => 0
  | kernelFs => 1
  | consoleWrite => 1
  | kernelFdTable => 2
  | execProgram => 2
  | readyQueue => 3
  | heap => 4
  | buddyAllocator => 5

namespace SpinLock

variable {σ T α : Type}

/-- The answer is the guard's `interrupts_were_enabled`. -/
def lock (l : Lock) : Prog σ Lock T Bool :=
  .readFlag fun enabled => .setFlag false (.acquire l (.ret enabled))

def drop (l : Lock) (interruptsWereEnabled : Bool) : Prog σ Lock T Unit :=
  .release l (if interruptsWereEnabled then .setFlag true (.ret ()) else .ret ())

/-- A scope with a guard. -/
def guarded (l : Lock) (body : Prog σ Lock T α) : Prog σ Lock T α :=
  (lock l).bind fun enabled => body.bind fun a => (drop l enabled).bind fun _ => .ret a

theorem along_guarded {P : Cpu σ Lock → Op σ Lock T → Prop} {R : Cpu σ Lock → Cpu σ Lock → Prop}
    {Q : α → Cpu σ Lock → Prop} {later : σ → σ → Prop} {l : Lock} {body : Prog σ Lock T α}
    {s : Cpu σ Lock} (hP : ∀ s op, Calm later s op → P s op) (hflag : s.flag = false)
    (hfree : l ∉ s.held)
    (h : body.Along P R (fun a s' => s'.flag = false ∧ s'.held = l :: s.held ∧
      Q a { s' with held := s.held }) { s with held := l :: s.held }) :
    (guarded l body).Along P R Q s := by
  rw [guarded, Prog.along_bind, lock]
  refine ⟨hP _ _ hflag, hP _ _ ⟨hflag, rfl⟩, hP _ _ ⟨rfl, hfree⟩, fun _ => ?_⟩
  show Prog.Along P R Q _ _
  rw [Prog.along_bind, hflag]
  rw [hflag] at h
  refine h.mono (fun _ _ hp => hp) fun a s' ⟨hflag', hheld', hQ⟩ => ?_
  refine ⟨hP _ _ hflag', ?_⟩
  show Q a { s' with held := s'.held.erase l }
  rw [hheld', List.erase_cons_head]
  exact hQ

/-- **A scope with a guard is quiet** when its lock comes before those of its body. -/
theorem quiet_guarded {later rel : σ → σ → Prop} {r : Nat} {l : Lock} {body : Prog σ Lock T α}
    (hr : r ≤ l.rank) (h : Quiet Lock.rank later rel (l.rank + 1) body) :
    Quiet Lock.rank later rel r (guarded l body) := by
  intro s R Q hflag hheld hQ
  have hfree : l ∉ s.held := fun hl => by
    have := hheld l hl
    omega
  refine along_guarded (fun _ _ hc => hc) hflag hfree ?_
  refine h _ R _ hflag (fun l' hl' => ?_) fun a d hd => ⟨hflag, rfl, hQ a d hd⟩
  rcases List.mem_cons.mp hl' with rfl | hl'
  · omega
  · have := hheld l' hl'
    omega

end SpinLock

end Zeronix
