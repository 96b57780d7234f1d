import Zeronix.Lock.SpinLock

/-!
# Guards of spin locks

The code of `src/lock/spin_lock.rs` as it works on the `locked` bits: a compare and exchange in a
loop, or once, and a guard that saves the interrupt flag it found.  The locks are any set `L`.

A run takes and drops guards in last-in-first-out order.  The saved flags then form a stack
(`Stacked`): the guard at the bottom has the flag from before the run, and all others saved a clear
one, so that only the bottom guard sets the flag again (`Inv`, `Inv.call`).

The kernel's programs take a lock in one operation (`SpinLock.lock`); `lock_refines` and
`drop_refines` are the connection.
-/

namespace Zeronix

/-- The `locked` bits of the locks; the code works on nothing else but the interrupt flag. -/
abbrev LockCode (L : Type) := Prog (L → Bool) Empty Empty

abbrev LockCpu (L : Type) := Cpu (L → Bool) Empty

/-- `SpinLockGuard`. -/
structure SpinLockGuard (L : Type) where
  lock : L
  interruptsWereEnabled : Bool

namespace SpinLockCode

variable {L : Type} [DecidableEq L]

/-- `compare_exchange(false, true)` of the bit of one lock, and whether it was clear. -/
def compareExchange (l : L) (locked : L → Bool) : Bool × (L → Bool) :=
  if locked l then (false, locked) else (true, Function.update locked l true)

/-- The `loop` of `lock`, for some rounds; it is left by the compare and exchange only. -/
def spin (l : L) : Nat → LockCode L Unit
  | 0 => .stop
  | n + 1 => .act (compareExchange l) fun ok => if ok then .ret () else spin l n

def lock (rounds : Nat) (l : L) : LockCode L (SpinLockGuard L) :=
  .readFlag fun enabled => .setFlag false ((spin l rounds).bind fun _ => .ret ⟨l, enabled⟩)

/-- `none` is `Err(())`. -/
def tryLock (l : L) : LockCode L (Option (SpinLockGuard L)) :=
  .readFlag fun enabled => .setFlag false (.act (compareExchange l) fun ok =>
    if ok then .ret (some ⟨l, enabled⟩)
    else if enabled then .setFlag true (.ret none) else .ret none)

def unlock (l : L) : LockCode L Unit :=
  .act (fun locked => ((), Function.update locked l false)) .ret

def drop (g : SpinLockGuard L) : LockCode L Unit :=
  (unlock g.lock).bind fun _ =>
    if g.interruptsWereEnabled then .setFlag true (.ret ()) else .ret ()

theorem compareExchange_free {l : L} {locked : L → Bool} (hl : locked l = false) :
    compareExchange l locked = (true, Function.update locked l true) := by
  rw [compareExchange, if_neg (by simp [hl])]

theorem compareExchange_held {l : L} {locked : L → Bool} (hl : locked l = true) :
    compareExchange l locked = (false, locked) := by
  rw [compareExchange, if_pos hl]

end SpinLockCode

/-! ### Runs -/

inductive LockCall (L : Type) where
  | lock (l : L)
  | tryLock (l : L)
  | drop

namespace LockCall

variable {L : Type} [DecidableEq L] (rounds : Nat)

/-- A call with the live guards, the youngest first; `drop` drops that one. -/
def code : LockCall L → List (SpinLockGuard L) → LockCode L (List (SpinLockGuard L))
  | lock l, guards => (SpinLockCode.lock rounds l).bind fun g => .ret (g :: guards)
  | tryLock l, guards => (SpinLockCode.tryLock l).bind fun g => .ret (g.toList ++ guards)
  | drop, [] => .ret []
  | drop, g :: guards => (SpinLockCode.drop g).bind fun _ => .ret guards

def script : List (LockCall L) → List (SpinLockGuard L) → LockCode L (List (SpinLockGuard L))
  | [], guards => .ret guards
  | call :: calls, guards => (call.code rounds guards).bind (script calls)

/-- No lock that is held is locked again, and a guard is there to be dropped. -/
def Allowed : LockCall L → List (SpinLockGuard L) → Prop
  | lock l, guards => ∀ g ∈ guards, g.lock ≠ l
  | tryLock _, _ => True
  | drop, guards => guards ≠ []

/-- Each call is allowed with the guards that the calls before it have left. -/
def WellNested : List (LockCall L) → List (SpinLockGuard L) → LockCpu L → Prop
  | [], _, _ => True
  | call :: calls, guards, s => call.Allowed guards ∧ ∀ n guards' s',
      (call.code rounds guards).run n s = (.ret guards', s') → WellNested calls guards' s'

theorem WellNested.cons {rounds n : Nat} {call : LockCall L} {calls : List (LockCall L)}
    {guards guards' : List (SpinLockGuard L)} {s s' : LockCpu L} (h : call.Allowed guards)
    (hrun : (call.code rounds guards).run n s = (.ret guards', s'))
    (hrest : WellNested rounds calls guards' s') : WellNested rounds (call :: calls) guards s := by
  refine ⟨h, fun n' guards₂ s₂ hrun' => ?_⟩
  obtain ⟨rfl, rfl⟩ := Prog.run_unique hrun hrun'
  exact hrest

end LockCall

namespace SpinLockCode

variable {L : Type}

/-- While a lock is held, interrupts are masked. -/
def Masked (s : LockCpu L) : Prop := ∀ l, s.data l = true → s.flag = false

/-- The interrupt flag with these guards, `enabled` without any. -/
def flagWith (enabled : Bool) : List (SpinLockGuard L) → Bool
  | [] => enabled
  | _ :: _ => false

/-- Each guard saved the flag as it was with the guards below it. -/
def Stacked (enabled : Bool) : List (SpinLockGuard L) → Prop
  | [] => True
  | g :: guards => g.interruptsWereEnabled = flagWith enabled guards ∧ Stacked enabled guards

structure Inv (enabled : Bool) (guards : List (SpinLockGuard L)) (s : LockCpu L) : Prop where
  flag : s.flag = flagWith enabled guards
  stacked : Stacked enabled guards
  nodup : (guards.map SpinLockGuard.lock).Nodup
  locked : ∀ l, s.data l = true ↔ ∃ g ∈ guards, g.lock = l

variable {enabled : Bool} {guards : List (SpinLockGuard L)} {g : SpinLockGuard L} {s : LockCpu L}
variable {l : L}

theorem Inv.masked (h : Inv enabled guards s) : Masked s := by
  intro l hl
  obtain ⟨g, hg, -⟩ := (h.locked l).mp hl
  rw [h.flag]
  cases guards with
  | nil => cases hg
  | cons g' guards => rfl

variable [DecidableEq L]

theorem Inv.push (h : Inv enabled guards s) (hl : s.data l = false) :
    Inv enabled (⟨l, s.flag⟩ :: guards)
      { s with flag := false, data := Function.update s.data l true } := by
  refine ⟨rfl, ⟨h.flag, h.stacked⟩, ?_, fun l' => ?_⟩
  · rw [List.map_cons, List.nodup_cons]
    refine ⟨fun hmem => ?_, h.nodup⟩
    obtain ⟨g, hg, hlock⟩ := List.mem_map.mp hmem
    rw [(h.locked l).mpr ⟨g, hg, hlock⟩] at hl
    cases hl
  · by_cases heq : l' = l
    · subst heq
      simp
    · simp only [Function.update_of_ne heq, h.locked l', List.mem_cons, exists_eq_or_imp]
      exact (or_iff_right (Ne.symm heq)).symm

theorem Inv.pop (h : Inv enabled (g :: guards) s) :
    Inv enabled guards
      { s with flag := g.interruptsWereEnabled, data := Function.update s.data g.lock false } := by
  obtain ⟨hnot, hnodup⟩ := List.nodup_cons.mp (List.map_cons ▸ h.nodup)
  refine ⟨h.stacked.1, h.stacked.2, hnodup, fun l => ?_⟩
  by_cases heq : l = g.lock
  · subst heq
    simp only [Function.update_self, Bool.false_eq_true, false_iff]
    rintro ⟨g', hg', hlock⟩
    exact hnot (List.mem_map.mpr ⟨g', hg', hlock⟩)
  · simp only [Function.update_of_ne heq, h.locked l, List.mem_cons, exists_eq_or_imp]
    exact or_iff_right (Ne.symm heq)

/-! ### One call -/

theorem returns_lock (h : Inv enabled guards s) (hl : s.data l = false) (rounds : Nat) :
    (lock (rounds + 1) l).Returns Masked (fun g s' => Inv enabled (g :: guards) s') s := by
  refine ⟨h.masked, h.masked, fun _ _ => rfl, ?_⟩
  simp only [compareExchange_free hl]
  exact ⟨fun _ _ => rfl, h.push hl⟩

theorem returns_tryLock (h : Inv enabled guards s) :
    (tryLock l).Returns Masked (fun g s' => Inv enabled (g.toList ++ guards) s') s := by
  refine ⟨h.masked, h.masked, fun _ _ => rfl, ?_⟩
  cases hl : s.data l with
  | false =>
    simp only [compareExchange_free hl]
    exact ⟨fun _ _ => rfl, h.push hl⟩
  | true =>
    have hflag : s.flag = false := h.masked l hl
    simp only [compareExchange_held hl, hflag]
    refine ⟨fun _ _ => rfl, ?_⟩
    rw [← hflag]
    exact h

theorem returns_drop (h : Inv enabled (g :: guards) s) :
    (drop g).Returns Masked (fun _ s' => Inv enabled guards s') s := by
  have hpop := h.pop
  refine ⟨h.masked, ?_⟩
  obtain ⟨locked, held, flag⟩ := s
  obtain rfl : flag = false := h.flag
  cases hsaved : g.interruptsWereEnabled with
  | false =>
    rw [hsaved] at hpop
    exact ⟨hpop.masked, hpop⟩
  | true =>
    rw [hsaved] at hpop
    exact ⟨fun _ _ => rfl, hpop.masked, hpop⟩

/-- **One call keeps the invariant**, and interrupts masked while a lock is held. -/
theorem Inv.call (h : Inv enabled guards s) {call : LockCall L} (hallowed : call.Allowed guards)
    (rounds : Nat) :
    (call.code (rounds + 1) guards).Returns Masked (Inv enabled) s := by
  cases call with
  | lock l =>
    have hl : s.data l = false := by
      rw [← Bool.not_eq_true, h.locked l]
      rintro ⟨g, hg, hlock⟩
      exact hallowed g hg hlock
    exact .bind ((returns_lock h hl rounds).mono fun g s' h' => ⟨h'.masked, h'⟩)
  | tryLock l => exact .bind ((returns_tryLock h).mono fun g s' h' => ⟨h'.masked, h'⟩)
  | drop =>
    cases guards with
    | nil => exact absurd rfl hallowed
    | cons g guards => exact .bind ((returns_drop h).mono fun _ s' h' => ⟨h'.masked, h'⟩)

/-- **A run of calls.** -/
theorem Inv.script (h : Inv enabled guards s) {calls : List (LockCall L)} {rounds : Nat}
    (hnested : LockCall.WellNested (rounds + 1) calls guards s) :
    (LockCall.script (rounds + 1) calls guards).Returns Masked (Inv enabled) s := by
  induction calls generalizing guards s with
  | nil => exact ⟨h.masked, h⟩
  | cons call calls ih =>
    obtain ⟨hallowed, hrest⟩ := hnested
    refine .bind ((h.call hallowed rounds).reached.mono ?_)
    rintro guards' s' ⟨h', n, hrun⟩
    exact ih h' (hrest n guards' s' hrun)

theorem spin_held {α : Type} (hl : s.data l = true) (f : Unit → LockCode L α) (rounds n : Nat)
    (a : α) : (((spin l rounds).bind f).run n s).1 ≠ .ret a := by
  induction rounds generalizing n with
  | zero => cases n <;> nofun
  | succ rounds ih =>
    cases n with
    | zero => nofun
    | succ n =>
      simp only [spin, Prog.bind, Prog.run, compareExchange_held hl]
      exact ih n

theorem tryLock_held (hl : s.data l = true) : ∃ n, (tryLock l).run n s = (.ret none, s) := by
  have hheld := compareExchange_held hl
  obtain ⟨locked, held, flag⟩ := s
  cases flag with
  | false => exact ⟨3, by simp [tryLock, Prog.run, hheld]⟩
  | true => exact ⟨4, by simp [tryLock, Prog.run, hheld]⟩

/-- **Interrupts are masked while a guard is held.**  From any state with all locks free, along any
well-nested run: a lock that is held has the flag clear at every operation; a live guard has the
flag clear, and without one it is as it was at the start; the `locked` bits are those of the live
guards; and a `try_lock` of a lock that is held changes nothing.  The run returns: each `lock`
leaves its loop in the first round. -/
theorem guards_mask_interrupts (s : LockCpu L) (hfree : ∀ l, s.data l = false)
    (calls : List (LockCall L)) (rounds : Nat)
    (hnested : LockCall.WellNested (rounds + 1) calls [] s) :
    (∀ k, Masked ((LockCall.script (rounds + 1) calls []).run k s).2) ∧
    ∃ n guards s', (LockCall.script (rounds + 1) calls []).run n s = (.ret guards, s') ∧
      (guards ≠ [] → s'.flag = false) ∧ (guards = [] → s'.flag = s.flag) ∧
      (∀ l, s'.data l = true ↔ ∃ g ∈ guards, g.lock = l) ∧
      ∀ l, s'.data l = true → ∃ k, (tryLock l).run k s' = (.ret none, s') := by
  have hstart : Inv s.flag [] s := by
    refine ⟨rfl, trivial, List.nodup_nil, fun l => ?_⟩
    simp [hfree l]
  have hrun := hstart.script hnested
  obtain ⟨n, guards, s', hend, h⟩ := hrun.run
  refine ⟨hrun.along, n, guards, s', hend, fun hne => ?_, ?_, h.locked, fun l hl => tryLock_held hl⟩
  · rw [h.flag]
    cases guards with
    | nil => exact absurd rfl hne
    | cons g guards => rfl
  · rintro rfl
    exact h.flag

/-- The heap's lock, a failing `try_lock` of it, the lock of the buddy allocator inside, and both
guards dropped: interrupts are enabled again. -/
theorem guards_mask_interrupts_nested : ∃ n s',
    (LockCall.script 1 [.lock Lock.heap, .tryLock Lock.heap, .lock Lock.buddyAllocator, .drop, .drop]
      []).run n ⟨fun _ => false, [], true⟩ = (.ret [], s') ∧ s'.flag = true := by
  have hnested : LockCall.WellNested 1
      [.lock Lock.heap, .tryLock Lock.heap, .lock Lock.buddyAllocator, .drop, .drop] []
      ⟨fun _ => false, [], true⟩ :=
    .cons (n := 3) (by nofun) rfl <| .cons (n := 3) trivial rfl <|
      .cons (n := 3) (by simp [LockCall.Allowed]) rfl <| .cons (n := 1) (by nofun) rfl <|
      .cons (n := 2) (by nofun) rfl trivial
  obtain ⟨-, n, guards, s', hrun, -, hflag, -⟩ :=
    guards_mask_interrupts _ (fun _ => rfl) _ 0 hnested
  obtain ⟨rfl, rfl⟩ := Prog.run_unique hrun (show Prog.run 12 _ _ = _ from rfl)
  exact ⟨n, _, hrun, hflag rfl⟩

/-! ### The kernel's locks -/

section Kernel

variable {σ T : Type} {c : LockCpu Lock} {m : Cpu σ Lock} {kernelLock : Lock}

/-- The bits are those of the locks that a machine of the kernel holds. -/
structure Agrees (c : LockCpu Lock) (m : Cpu σ Lock) : Prop where
  flag : c.flag = m.flag
  locked : ∀ l, c.data l = decide (l ∈ m.held)
  nodup : m.held.Nodup

/-- **Taking a lock in one operation** is what the loop does when the lock is free. -/
theorem lock_refines (h : Agrees c m) (hfree : kernelLock ∉ m.held) (rounds : Nat) :
    ∃ g c' m', (lock (rounds + 1) kernelLock).run 3 c = (.ret g, c') ∧
      (SpinLock.lock kernelLock : Prog σ Lock T Bool).run 3 m =
        (.ret g.interruptsWereEnabled, m') ∧ Agrees c' m' := by
  have hbit := compareExchange_free (show c.data kernelLock = false by simp [h.locked, hfree])
  refine ⟨⟨kernelLock, c.flag⟩,
    { c with flag := false, data := Function.update c.data kernelLock true },
    { m with flag := false, held := kernelLock :: m.held }, ?_, ?_, rfl, fun l => ?_, ?_⟩
  · simp [lock, spin, Prog.run, Prog.bind, hbit]
  · simp [SpinLock.lock, Prog.run, hfree, h.flag]
  · by_cases heq : l = kernelLock
    · subst heq
      simp
    · simp [h.locked l, heq]
  · exact List.nodup_cons.mpr ⟨hfree, h.nodup⟩

theorem lock_waits (h : Agrees c m) (hheld : kernelLock ∈ m.held) (rounds n : Nat) :
    (∀ g, ((lock rounds kernelLock).run n c).1 ≠ .ret g) ∧
      ∀ enabled, ((SpinLock.lock kernelLock : Prog σ Lock T Bool).run n m).1 ≠ .ret enabled := by
  have hbit : c.data kernelLock = true := by rw [h.locked, decide_eq_true hheld]
  constructor
  · intro g hret
    rcases n with _ | _ | n
    · cases hret
    · cases hret
    · exact spin_held (s := { c with flag := false }) hbit _ rounds n g hret
  · intro enabled hret
    rcases n with _ | _ | _ | n
    · cases hret
    · cases hret
    · cases hret
    · simp only [SpinLock.lock, Prog.run, if_pos hheld] at hret
      cases hret

/-- **Dropping a guard.** -/
theorem drop_refines (h : Agrees c m) (g : SpinLockGuard Lock) :
    ∃ c' m', (drop g).run 2 c = (.ret (), c') ∧
      (SpinLock.drop g.lock g.interruptsWereEnabled : Prog σ Lock T Unit).run 2 m = (.ret (), m') ∧
      Agrees c' m' := by
  refine ⟨{ c with
      data := Function.update c.data g.lock false, flag := g.interruptsWereEnabled || c.flag },
    { m with held := m.held.erase g.lock, flag := g.interruptsWereEnabled || m.flag }, ?_, ?_,
    by rw [h.flag], fun l => ?_, h.nodup.erase _⟩
  · cases hsaved : g.interruptsWereEnabled <;>
      simp [drop, unlock, Prog.run, Prog.bind, hsaved]
  · cases hsaved : g.interruptsWereEnabled <;> simp [SpinLock.drop, Prog.run]
  · by_cases heq : l = g.lock
    · subst heq
      simp [h.nodup.not_mem_erase]
    · simp [h.locked l, heq, List.mem_erase_of_ne heq]

end Kernel

end SpinLockCode

end Zeronix
