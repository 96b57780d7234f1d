import Mathlib.Logic.Function.Basic
import Mathlib.Logic.Relation
import Mathlib.Tactic.Common

/-!
# One CPU: threads, spin locks and an interrupt flag

`Prog` is the code of a kernel on a single CPU, one operation after the other: actions on its
data, the interrupt flag, spin locks, and the switch to another thread.  A `Machine` runs such
code for its threads.  In user mode a thread calls into the kernel, and a timer interrupts
whatever runs while the flag is set.

`Prog.Along` says that something holds at every point that a program comes by when nothing
interrupts it; `Spec` collects what has to be shown of the programs of a machine, and
`Spec.Inv.steps` is the invariant that follows for all its runs.
-/

namespace Zeronix

/-- Programs over data `σ`, locks `L` and threads `T` with a result in `α`.  `stop` is a panic
and `idle` the loop that halts and waits for interrupts: nothing follows either. -/
inductive Prog (σ L T α : Type) : Type 1 where
  | ret (a : α)
  | stop
  | idle
  | act {β : Type} (f : σ → β × σ) (k : β → Prog σ L T α)
  | readFlag (k : Bool → Prog σ L T α)
  | setFlag (b : Bool) (k : Prog σ L T α)
  | acquire (l : L) (k : Prog σ L T α)
  | release (l : L) (k : Prog σ L T α)
  | switch (t : T) (k : Prog σ L T α)

/-- The operation that a program does next, as far as it is of interest.  `act` has the data
after it. -/
inductive Op (σ L T : Type) where
  | plain
  | idle
  | act (d : σ)
  | setFlag (b : Bool)
  | acquire (l : L)
  | switch (t : T)

/-- The thread that is switched to. -/
def Op.target {σ L T : Type} : Op σ L T → Option T
  | switch t => some t
  | _ => none

theorem Op.eq_switch {σ L T : Type} {o : Op σ L T} {t : T} (h : o.target = some t) :
    o = .switch t := by
  cases o with
  | switch t' =>
    cases h
    rfl
  | _ => cases h

/-- What the programs work on. -/
@[ext]
structure Cpu (σ L : Type) where
  data : σ
  held : List L
  flag : Bool

namespace Prog

variable {σ L T α β : Type}

def bind (p : Prog σ L T α) (f : α → Prog σ L T β) : Prog σ L T β :=
  match p with
  | ret a => f a
  | stop => stop
  | idle => idle
  | act g k => act g fun b => (k b).bind f
  | readFlag k => readFlag fun b => (k b).bind f
  | setFlag b k => setFlag b (k.bind f)
  | acquire l k => acquire l (k.bind f)
  | release l k => release l (k.bind f)
  | switch t k => switch t (k.bind f)

instance : Monad (Prog σ L T) where
  pure := ret
  bind := bind

/-- An action by itself. -/
def lift (f : σ → β × σ) : Prog σ L T β := act f ret

/-- An action that may panic. -/
def liftOpt (f : σ → Option (β × σ)) : Prog σ L T β :=
  act (fun s => match f s with
    | none => (none, s)
    | some (b, s) => (some b, s)) fun
    | none => stop
    | some b => ret b

/-- A loop over a list. -/
def each (f : β → Prog σ L T Unit) : List β → Prog σ L T Unit
  | [] => ret ()
  | b :: bs => (f b).bind fun _ => each f bs

def op (d : σ) : Prog σ L T α → Op σ L T
  | idle => .idle
  | act f _ => .act (f d).2
  | setFlag b _ => .setFlag b
  | acquire l _ => .acquire l
  | switch t _ => .switch t
  | _ => .plain

theorem eq_idle_of_op {p : Prog σ L T α} {d : σ} (h : p.op d = .idle) : p = .idle := by
  cases p with
  | idle => rfl
  | _ => cases h

/-- At most `n` operations, up to a switch, a lock that is held, or the end. -/
def run [DecidableEq L] : Nat → Prog σ L T α → Cpu σ L → Prog σ L T α × Cpu σ L
  | n + 1, act f k, s => run n (k (f s.data).1) { s with data := (f s.data).2 }
  | n + 1, readFlag k, s => run n (k s.flag) s
  | n + 1, setFlag b k, s => run n k { s with flag := b }
  | n + 1, acquire l k, s =>
    if l ∈ s.held then (acquire l k, s) else run n k { s with held := l :: s.held }
  | n + 1, release l k, s => run n k { s with held := s.held.erase l }
  | _, p, s => (p, s)

/-! ### Points along a program -/

section Along

variable [DecidableEq L] (P : Cpu σ L → Op σ L T → Prop) (R : Cpu σ L → Cpu σ L → Prop)

/-- `P` holds at every point of a run without interrupts, and `Q` at its end.  The run ends at a
lock that is held.  After a switch it goes on in any state that `R` relates to the one before. -/
def Along (Q : α → Cpu σ L → Prop) : Prog σ L T α → Cpu σ L → Prop
  | ret a, s => Q a s
  | stop, s => P s .plain
  | idle, s => P s .idle
  | act f k, s => P s (.act (f s.data).2) ∧ Along Q (k (f s.data).1) { s with data := (f s.data).2 }
  | readFlag k, s => P s .plain ∧ Along Q (k s.flag) s
  | setFlag b k, s => P s (.setFlag b) ∧ Along Q k { s with flag := b }
  | acquire l k, s => P s (.acquire l) ∧ (l ∉ s.held → Along Q k { s with held := l :: s.held })
  | release l k, s => P s .plain ∧ Along Q k { s with held := s.held.erase l }
  | switch t k, s => P s (.switch t) ∧ ∀ s', R s s' → Along Q k s'

variable {P R}

theorem Along.op {Q : α → Cpu σ L → Prop} {p : Prog σ L T α} {s : Cpu σ L} (h : Along P R Q p s)
    (hret : ∀ a, p ≠ ret a) : P s (p.op s.data) := by
  cases p with
  | ret a => exact absurd rfl (hret a)
  | stop => exact h
  | idle => exact h
  | act f k => exact h.1
  | readFlag k => exact h.1
  | setFlag b k => exact h.1
  | acquire l k => exact h.1
  | release l k => exact h.1
  | switch t k => exact h.1

/-- **Programs in sequence.** -/
theorem along_bind {Q : β → Cpu σ L → Prop} (p : Prog σ L T α) (f : α → Prog σ L T β)
    (s : Cpu σ L) : Along P R Q (p.bind f) s ↔ Along P R (fun a => Along P R Q (f a)) p s := by
  induction p generalizing s with
  | ret a => rfl
  | stop => rfl
  | idle => rfl
  | act g k ih => exact and_congr_right fun _ => ih _ _
  | readFlag k ih => exact and_congr_right fun _ => ih _ _
  | setFlag b k ih => exact and_congr_right fun _ => ih _
  | acquire l k ih => exact and_congr_right fun _ => imp_congr_right fun _ => ih _
  | release l k ih => exact and_congr_right fun _ => ih _
  | switch t k ih => exact and_congr_right fun _ => forall₂_congr fun s' _ => ih s'

theorem along_do {Q : β → Cpu σ L → Prop} (p : Prog σ L T α) (f : α → Prog σ L T β)
    (s : Cpu σ L) : Along P R Q (p >>= f) s ↔ Along P R (fun a => Along P R Q (f a)) p s :=
  along_bind p f s

theorem along_lift {Q : β → Cpu σ L → Prop} (f : σ → β × σ) (s : Cpu σ L) :
    Along P R Q (lift f) s ↔
      P s (.act (f s.data).2) ∧ Q (f s.data).1 { s with data := (f s.data).2 } := Iff.rfl

/-- An action that may panic: it suffices to look at the case in which it does not. -/
theorem along_liftOpt {Q : β → Cpu σ L → Prop} {f : σ → Option (β × σ)} {s : Cpu σ L}
    (hnone : f s.data = none → P s (.act s.data) ∧ P s .plain)
    (hsome : ∀ b d, f s.data = some (b, d) → P s (.act d) ∧ Q b { s with data := d }) :
    Along P R Q (liftOpt f) s := by
  cases h : f s.data with
  | none =>
    simp only [liftOpt, Along, h]
    exact hnone h
  | some r =>
    simp only [liftOpt, Along, h]
    exact hsome r.1 r.2 h

theorem Along.mono {P' : Cpu σ L → Op σ L T → Prop} {Q Q' : α → Cpu σ L → Prop} {p : Prog σ L T α}
    {s : Cpu σ L} (h : Along P R Q p s) (hP : ∀ s op, P s op → P' s op)
    (hQ : ∀ a s, Q a s → Q' a s) : Along P' R Q' p s := by
  induction p generalizing s with
  | ret a => exact hQ a s h
  | stop => exact hP _ _ h
  | idle => exact hP _ _ h
  | act g k ih => exact ⟨hP _ _ h.1, ih _ h.2⟩
  | readFlag k ih => exact ⟨hP _ _ h.1, ih _ h.2⟩
  | setFlag b k ih => exact ⟨hP _ _ h.1, ih h.2⟩
  | acquire l k ih => exact ⟨hP _ _ h.1, fun hl => ih (h.2 hl)⟩
  | release l k ih => exact ⟨hP _ _ h.1, ih h.2⟩
  | switch t k ih => exact ⟨hP _ _ h.1, fun s' hs' => ih (h.2 s' hs')⟩

end Along

/-! ### Programs that return -/

section Returns

variable (P : Cpu σ L → Prop)

/-- The program returns by itself, with `Q` at its end, and `P` holds all the way. -/
def Returns (Q : α → Cpu σ L → Prop) : Prog σ L T α → Cpu σ L → Prop
  | ret a, s => P s ∧ Q a s
  | act f k, s => P s ∧ Returns Q (k (f s.data).1) { s with data := (f s.data).2 }
  | readFlag k, s => P s ∧ Returns Q (k s.flag) s
  | setFlag b k, s => P s ∧ Returns Q k { s with flag := b }
  | _, _ => False

variable {P} {Q : α → Cpu σ L → Prop} {p : Prog σ L T α} {s : Cpu σ L}

theorem Returns.mono {Q' : α → Cpu σ L → Prop} (h : Returns P Q p s)
    (hQ : ∀ a s, Q a s → Q' a s) : Returns P Q' p s := by
  induction p generalizing s with
  | ret a => exact ⟨h.1, hQ a s h.2⟩
  | act f k ih => exact ⟨h.1, ih _ h.2⟩
  | readFlag k ih => exact ⟨h.1, ih _ h.2⟩
  | setFlag b k ih => exact ⟨h.1, ih h.2⟩
  | _ => exact h.elim

/-- Programs in sequence. -/
theorem Returns.bind {Q : β → Cpu σ L → Prop} {f : α → Prog σ L T β}
    (h : Returns P (fun a => Returns P Q (f a)) p s) : Returns P Q (p.bind f) s := by
  induction p generalizing s with
  | ret a => exact h.2
  | act g k ih => exact ⟨h.1, ih _ h.2⟩
  | readFlag k ih => exact ⟨h.1, ih _ h.2⟩
  | setFlag b k ih => exact ⟨h.1, ih h.2⟩
  | _ => exact h.elim

variable [DecidableEq L]

/-- `P` holds after any number of operations. -/
theorem Returns.along (h : Returns P Q p s) (n : Nat) : P (p.run n s).2 := by
  induction p generalizing s n with
  | ret a => cases n <;> exact h.1
  | act f k ih =>
    cases n with
    | zero => exact h.1
    | succ n => exact ih _ h.2 n
  | readFlag k ih =>
    cases n with
    | zero => exact h.1
    | succ n => exact ih _ h.2 n
  | setFlag b k ih =>
    cases n with
    | zero => exact h.1
    | succ n => exact ih h.2 n
  | _ => exact h.elim

/-- The run ends. -/
theorem Returns.run (h : Returns P Q p s) : ∃ n a s', p.run n s = (.ret a, s') ∧ Q a s' := by
  induction p generalizing s with
  | ret a => exact ⟨0, a, s, rfl, h.2⟩
  | act f k ih =>
    obtain ⟨n, a, s', hrun, hQ⟩ := ih _ h.2
    exact ⟨n + 1, a, s', hrun, hQ⟩
  | readFlag k ih =>
    obtain ⟨n, a, s', hrun, hQ⟩ := ih _ h.2
    exact ⟨n + 1, a, s', hrun, hQ⟩
  | setFlag b k ih =>
    obtain ⟨n, a, s', hrun, hQ⟩ := ih h.2
    exact ⟨n + 1, a, s', hrun, hQ⟩
  | _ => exact h.elim

/-- The end of a run is reached by it. -/
theorem Returns.reached (h : Returns P Q p s) :
    Returns P (fun a s' => Q a s' ∧ ∃ n, p.run n s = (.ret a, s')) p s := by
  induction p generalizing s with
  | ret a => exact ⟨h.1, h.2, 0, rfl⟩
  | act f k ih => exact ⟨h.1, (ih _ h.2).mono fun a s' ⟨hQ, n, hrun⟩ => ⟨hQ, n + 1, hrun⟩⟩
  | readFlag k ih => exact ⟨h.1, (ih _ h.2).mono fun a s' ⟨hQ, n, hrun⟩ => ⟨hQ, n + 1, hrun⟩⟩
  | setFlag b k ih => exact ⟨h.1, (ih h.2).mono fun a s' ⟨hQ, n, hrun⟩ => ⟨hQ, n + 1, hrun⟩⟩
  | _ => exact h.elim

/-- A program that has returned does nothing more. -/
theorem run_of_ret {n : Nat} {a : α} {s' : Cpu σ L} (h : p.run n s = (.ret a, s')) (k : Nat) :
    p.run (n + k) s = (.ret a, s') := by
  induction n generalizing p s with
  | zero =>
    obtain ⟨rfl, rfl⟩ := Prod.mk.inj (show (p, s) = (.ret a, s') by cases p <;> exact h)
    cases k <;> rfl
  | succ n ih =>
    rw [Nat.add_right_comm]
    cases p with
    | act f q => exact ih h
    | readFlag q => exact ih h
    | setFlag b q => exact ih h
    | release l q => exact ih h
    | acquire l q =>
      rw [run] at h ⊢
      split at h
      · cases h
      · rename_i hl
        rw [if_neg hl]
        exact ih h
    | _ => exact h

/-- A program that returns, and another one behind it. -/
theorem run_bind_of_ret {f : α → Prog σ L T β} {n : Nat} {a : α} {s' : Cpu σ L}
    (h : p.run n s = (.ret a, s')) (k : Nat) : ∃ n', (p.bind f).run n' s = (f a).run k s' := by
  induction n generalizing p s with
  | zero =>
    obtain ⟨rfl, rfl⟩ := Prod.mk.inj (show (p, s) = (.ret a, s') by cases p <;> exact h)
    exact ⟨k, rfl⟩
  | succ n ih =>
    cases p with
    | ret b =>
      cases h
      exact ⟨k, rfl⟩
    | act g q =>
      obtain ⟨n', hn'⟩ := ih h
      exact ⟨n' + 1, hn'⟩
    | readFlag q =>
      obtain ⟨n', hn'⟩ := ih h
      exact ⟨n' + 1, hn'⟩
    | setFlag b q =>
      obtain ⟨n', hn'⟩ := ih h
      exact ⟨n' + 1, hn'⟩
    | release l q =>
      obtain ⟨n', hn'⟩ := ih h
      exact ⟨n' + 1, hn'⟩
    | acquire l q =>
      rw [run] at h
      split at h
      · cases h
      · rename_i hl
        obtain ⟨n', hn'⟩ := ih h
        exact ⟨n' + 1, (if_neg hl).trans hn'⟩
    | stop => cases h
    | idle => cases h
    | switch t q => cases h

/-- What holds at the end of a program holds of what it returns. -/
theorem Along.run {P : Cpu σ L → Op σ L T → Prop} {R : Cpu σ L → Cpu σ L → Prop}
    (h : Along P R Q p s) {n : Nat} {a : α} {s' : Cpu σ L} (hrun : p.run n s = (.ret a, s')) :
    Q a s' := by
  induction n generalizing p s with
  | zero =>
    obtain ⟨rfl, rfl⟩ := Prod.mk.inj (show (p, s) = (.ret a, s') by cases p <;> exact hrun)
    exact h
  | succ n ih =>
    cases p with
    | ret b =>
      cases hrun
      exact h
    | act g q => exact ih h.2 hrun
    | readFlag q => exact ih h.2 hrun
    | setFlag b q => exact ih h.2 hrun
    | release l q => exact ih h.2 hrun
    | acquire l q =>
      rw [Prog.run] at hrun
      split at hrun
      · cases hrun
      · rename_i hl
        exact ih (h.2 hl) hrun
    | stop => cases hrun
    | idle => cases hrun
    | switch t q => cases hrun

theorem run_unique {n n' : Nat} {a a' : α} {s₁ s₂ : Cpu σ L} (h : p.run n s = (.ret a, s₁))
    (h' : p.run n' s = (.ret a', s₂)) : a = a' ∧ s₁ = s₂ := by
  have heq := run_of_ret h n'
  rw [Nat.add_comm, run_of_ret h' n] at heq
  cases heq
  exact ⟨rfl, rfl⟩

end Returns

end Prog

/-! ### Quiet programs -/

section Quiet

variable {σ L T α β : Type} [DecidableEq L]

/-- Nothing but actions along `later` and locks that are free, with the flag clear. -/
def Calm (later : σ → σ → Prop) (s : Cpu σ L) : Op σ L T → Prop
  | .plain => s.flag = false
  | .act d => s.flag = false ∧ later s.data d
  | .acquire l => s.flag = false ∧ l ∉ s.held
  | .setFlag b => s.flag = false ∧ b = false
  | .idle => False
  | .switch _ => False

variable (rank : L → Nat) (later rel : σ → σ → Prop)

/-- The program takes locks of rank `r` and above only, gives them back, and moves the data
along `rel`. -/
def Quiet (r : Nat) (p : Prog σ L T α) : Prop :=
  ∀ (s : Cpu σ L) (R : Cpu σ L → Cpu σ L → Prop) (Q : α → Cpu σ L → Prop), s.flag = false →
    (∀ l ∈ s.held, rank l < r) → (∀ a d, rel s.data d → Q a { s with data := d }) →
    p.Along (Calm later) R Q s

variable {rank later rel} {r : Nat}

theorem Quiet.mono {r' : Nat} {p : Prog σ L T α} (h : Quiet rank later rel r p) (hr : r' ≤ r) :
    Quiet rank later rel r' p :=
  fun s R Q hflag hheld => h s R Q hflag fun l hl => Nat.lt_of_lt_of_le (hheld l hl) hr

theorem Quiet.weaken {rel' : σ → σ → Prop} {p : Prog σ L T α} (h : Quiet rank later rel r p)
    (hrel : ∀ d d', rel d d' → rel' d d') : Quiet rank later rel' r p :=
  fun s R Q hflag hheld hQ => h s R Q hflag hheld fun a d hd => hQ a d (hrel _ _ hd)

theorem Quiet.stop : Quiet rank later rel r (.stop : Prog σ L T α) := fun _ _ _ hflag _ _ => hflag

theorem Quiet.ite {c : Prop} [Decidable c] {p q : Prog σ L T α}
    (hp : c → Quiet rank later rel r p) (hq : ¬ c → Quiet rank later rel r q) :
    Quiet rank later rel r (if c then p else q) := by
  by_cases hc : c
  · rw [if_pos hc]
    exact hp hc
  · rw [if_neg hc]
    exact hq hc

theorem Quiet.lift {f : σ → β × σ} (hlater : ∀ d, later d (f d).2) (hf : ∀ d, rel d (f d).2) :
    Quiet rank later rel r (Prog.lift f : Prog σ L T β) :=
  fun s _ _ hflag _ hQ => ⟨⟨hflag, hlater s.data⟩, hQ _ _ (hf s.data)⟩

theorem Quiet.liftOpt {f : σ → Option (β × σ)} (hrefl : ∀ d, later d d)
    (hlater : ∀ d b d', f d = some (b, d') → later d d')
    (hf : ∀ d b d', f d = some (b, d') → rel d d') :
    Quiet rank later rel r (Prog.liftOpt f : Prog σ L T β) := by
  intro s R Q hflag hheld hQ
  cases h : f s.data with
  | none =>
    simp only [Prog.liftOpt, Prog.Along, h]
    exact ⟨⟨hflag, hrefl _⟩, hflag⟩
  | some bd =>
    simp only [Prog.liftOpt, Prog.Along, h]
    exact ⟨⟨hflag, hlater _ _ _ h⟩, hQ bd.1 bd.2 (hf _ _ _ h)⟩

variable (hrefl : ∀ d, rel d d) (htrans : ∀ d d' d'', rel d d' → rel d' d'' → rel d d'')

include hrefl in
theorem Quiet.ret (a : α) : Quiet rank later rel r (.ret a : Prog σ L T α) :=
  fun s _ _ _ _ hQ => hQ a s.data (hrefl s.data)

include htrans in
theorem Quiet.bind {p : Prog σ L T α} {f : α → Prog σ L T β} (hp : Quiet rank later rel r p)
    (hf : ∀ a, Quiet rank later rel r (f a)) : Quiet rank later rel r (p.bind f) := by
  intro s R Q hflag hheld hQ
  rw [Prog.along_bind]
  refine hp s R _ hflag hheld fun a d hd => ?_
  exact hf a _ R Q hflag hheld fun b d' hd' => hQ b d' (htrans _ _ _ hd hd')

include hrefl htrans in
theorem Quiet.each {f : β → Prog σ L T Unit} (hf : ∀ b, Quiet rank later rel r (f b))
    (bs : List β) : Quiet rank later rel r (Prog.each f bs) := by
  induction bs with
  | nil => exact .ret hrefl ()
  | cons b bs ih => exact .bind htrans (hf b) fun _ => ih

end Quiet

/-! ### The machine -/

/-- Where a thread is: in user mode, or at a point of the kernel's code.  The code ends with
`none` when it returns from an interrupt, and with `some` when it returns from a call. -/
inductive Control (σ L T ρ : Type) : Type 1 where
  | user
  | code (p : Prog σ L T (Option ρ))

/-- `call` is the call that a thread has made and not returned from. -/
structure Machine (σ L T ρ C : Type) : Type 1 where
  cpu : Cpu σ L
  running : T
  control : T → Control σ L T ρ
  call : T → Option C

namespace Machine

variable {σ L T ρ C : Type} [DecidableEq L] [DecidableEq T]

/-- The running thread goes on at `p`. -/
def goto (m : Machine σ L T ρ C) (cpu : Cpu σ L) (p : Prog σ L T (Option ρ)) : Machine σ L T ρ C :=
  { m with cpu := cpu, control := Function.update m.control m.running (.code p) }

variable (irq : Prog σ L T Unit) (enter : C → Prog σ L T (Option ρ))
variable (allowed : Cpu σ L → C → Prop)

/-- One operation, a call, an interrupt or a return.  A lock that is held is waited for. -/
inductive Step (m : Machine σ L T ρ C) : Machine σ L T ρ C → Prop
  | call (c : C) : m.control m.running = .user → allowed m.cpu c →
      Step m { m.goto { m.cpu with flag := false } (enter c) with
        call := Function.update m.call m.running (some c) }
  | tick : m.control m.running = .user → m.cpu.flag = true →
      Step m (m.goto { m.cpu with flag := false } (irq.bind fun _ => .ret none))
  | tickCode (p : Prog σ L T (Option ρ)) : m.control m.running = .code p → m.cpu.flag = true →
      Step m (m.goto { m.cpu with flag := false } (irq.bind fun _ => .setFlag true p))
  | act {β : Type} (f : σ → β × σ) (k : β → Prog σ L T (Option ρ)) :
      m.control m.running = .code (.act f k) →
      Step m (m.goto { m.cpu with data := (f m.cpu.data).2 } (k (f m.cpu.data).1))
  | readFlag (k : Bool → Prog σ L T (Option ρ)) : m.control m.running = .code (.readFlag k) →
      Step m (m.goto m.cpu (k m.cpu.flag))
  | setFlag (b : Bool) (k : Prog σ L T (Option ρ)) : m.control m.running = .code (.setFlag b k) →
      Step m (m.goto { m.cpu with flag := b } k)
  | acquire (l : L) (k : Prog σ L T (Option ρ)) : m.control m.running = .code (.acquire l k) →
      l ∉ m.cpu.held → Step m (m.goto { m.cpu with held := l :: m.cpu.held } k)
  | release (l : L) (k : Prog σ L T (Option ρ)) : m.control m.running = .code (.release l k) →
      Step m (m.goto { m.cpu with held := m.cpu.held.erase l } k)
  | switch (t : T) (k : Prog σ L T (Option ρ)) : m.control m.running = .code (.switch t k) →
      Step m { m.goto m.cpu k with running := t }
  | leave (r : Option ρ) : m.control m.running = .code (.ret r) →
      Step m { m with
        cpu := { m.cpu with flag := true }
        control := Function.update m.control m.running .user
        call := Function.update m.call m.running none }

/-- Any number of steps. -/
abbrev Steps : Machine σ L T ρ C → Machine σ L T ρ C → Prop :=
  Relation.ReflTransGen (Step irq enter allowed)

/-- The operation that the running thread does next, in the kernel. -/
def op (m : Machine σ L T ρ C) : Option (Op σ L T) :=
  match m.control m.running with
  | .user => none
  | .code p => some (p.op m.cpu.data)

variable {irq enter allowed}

omit [DecidableEq L] in
theorem goto_goto (m : Machine σ L T ρ C) (cpu cpu' : Cpu σ L) (p p' : Prog σ L T (Option ρ)) :
    (m.goto cpu p).goto cpu' p' = m.goto cpu' p' := by
  simp only [goto, Function.update_idem]

omit [DecidableEq L] in
theorem control_goto (m : Machine σ L T ρ C) (cpu : Cpu σ L) (p : Prog σ L T (Option ρ)) :
    (m.goto cpu p).control (m.goto cpu p).running = .code p := Function.update_self ..

omit [DecidableEq L] in
theorem op_goto (m : Machine σ L T ρ C) (cpu : Cpu σ L) (p : Prog σ L T (Option ρ)) :
    (m.goto cpu p).op = some (p.op cpu.data) := by
  rw [op, control_goto]
  rfl

/-- The running thread can do the operations of its code. -/
theorem steps_run (m : Machine σ L T ρ C) (n : Nat) (p : Prog σ L T (Option ρ)) (cpu : Cpu σ L) :
    (m.goto cpu p).Steps irq enter allowed (m.goto (p.run n cpu).2 (p.run n cpu).1) := by
  induction n generalizing p cpu with
  | zero => exact .refl
  | succ n ih =>
    cases p with
    | act f k =>
      refine .head (.act f k (control_goto ..)) ?_
      rw [goto_goto]
      exact ih _ _
    | readFlag k =>
      refine .head (.readFlag k (control_goto ..)) ?_
      rw [goto_goto]
      exact ih _ _
    | setFlag b k =>
      refine .head (.setFlag b k (control_goto ..)) ?_
      rw [goto_goto]
      exact ih _ _
    | acquire l k =>
      by_cases hl : l ∈ cpu.held
      · simp only [Prog.run, if_pos hl]
        exact .refl
      · simp only [Prog.run, if_neg hl]
        refine .head (.acquire l k (control_goto ..) hl) ?_
        rw [goto_goto]
        exact ih _ _
    | release l k =>
      refine .head (.release l k (control_goto ..)) ?_
      rw [goto_goto]
      exact ih _ _
    | _ => exact .refl

variable (irq enter allowed) in
/-- A call, and the first operations of its code. -/
theorem exists_run_call {m : Machine σ L T ρ C} {c : C} (hu : m.control m.running = .user)
    (hc : allowed m.cpu c) (n : Nat) :
    ∃ m', m.Steps irq enter allowed m' ∧ m'.cpu = ((enter c).run n { m.cpu with flag := false }).2 ∧
      m'.op = some (((enter c).run n { m.cpu with flag := false }).1.op m'.cpu.data) ∧
      m'.call m'.running = some c := by
  let called : Machine σ L T ρ C :=
    { m with call := Function.update m.call m.running (some c) }
  exact ⟨_, .head (.call c hu hc) (steps_run called n _ _), rfl, op_goto ..,
    Function.update_self ..⟩

variable (irq enter allowed) in
/-- An interrupt, and the first operations of its code. -/
theorem exists_run_tick {m : Machine σ L T ρ C} (hu : m.control m.running = .user)
    (hflag : m.cpu.flag = true) (n : Nat) :
    ∃ m', m.Steps irq enter allowed m' ∧
      m'.cpu = ((irq.bind fun _ => .ret (none : Option ρ)).run n { m.cpu with flag := false }).2 ∧
      m'.op = some (((irq.bind fun _ => .ret (none : Option ρ)).run n
        { m.cpu with flag := false }).1.op m'.cpu.data) :=
  ⟨_, .head (.tick hu hflag) (steps_run m n _ _), rfl, op_goto ..⟩

/-- Only an action changes the data. -/
theorem Step.data {m m' : Machine σ L T ρ C} (h : m.Step irq enter allowed m') :
    m'.cpu.data = m.cpu.data ∨ m.op = some (.act m'.cpu.data) := by
  cases h with
  | act f k hp =>
    right
    rw [op, hp]
    rfl
  | _ => exact .inl rfl

/-- Only a switch changes the thread that runs. -/
theorem Step.running {m m' : Machine σ L T ρ C} (h : m.Step irq enter allowed m') :
    m'.running = m.running ∨ m.op = some (.switch m'.running) := by
  cases h with
  | switch t k hp =>
    right
    rw [op, hp]
    rfl
  | _ => exact .inl rfl

end Machine

/-! ### Invariants of machines -/

/-- What is to hold of the running thread `t` in its call: `user` in user mode, `point` at each
point of its code, `done` when the code ends.  A thread that was switched from in one state and
is switched to in another finds `resume`, and `waits` holds of it meanwhile.  All actions move
the data along `later`. -/
structure Spec (σ L T ρ C : Type) where
  user : T → Cpu σ L → Prop
  point : T → Option C → Cpu σ L → Op σ L T → Prop
  resume : T → Cpu σ L → Cpu σ L → Prop
  done : T → Option C → Option ρ → Cpu σ L → Prop
  waits : T → Option C → σ → Prop
  later : σ → σ → Prop

namespace Spec

variable {σ L T ρ C : Type} [DecidableEq L] [DecidableEq T] (S : Spec σ L T ρ C)

def Along (t : T) (c : Option C) (p : Prog σ L T (Option ρ)) (s : Cpu σ L) : Prop :=
  p.Along (S.point t c) (S.resume t) (S.done t c) s

/-- The invariant: the running thread is at a good point, and any other will be when it is
switched to. -/
structure Inv (m : Machine σ L T ρ C) : Prop where
  running : match m.control m.running with
    | .user => S.user m.running m.cpu ∧ m.call m.running = none
    | .code p => S.Along m.running (m.call m.running) p m.cpu
  waiting : ∀ t, t ≠ m.running → S.waits t (m.call t) m.cpu.data ∧
    ∃ p s₀, m.control t = .code p ∧ S.later s₀.data m.cpu.data ∧
      ∀ s, S.resume t s₀ s → S.Along t (m.call t) p s

variable (irq : Prog σ L T Unit) (enter : C → Prog σ L T (Option ρ))
variable (allowed : Cpu σ L → C → Prop)

/-- What is to be shown of the programs of a machine.  In its code the flag is set at `idle`
only, so that no other code is interrupted. -/
structure Met : Prop where
  call : ∀ t s c, S.user t s → allowed s c → S.Along t (some c) (enter c) { s with flag := false }
  tick : ∀ t s, S.user t s → S.Along t none (irq.bind fun _ => .ret none) { s with flag := false }
  tickIdle : ∀ t c s, S.point t c s .idle → s.flag = true →
    S.Along t c (irq.bind fun _ => .setFlag true .idle) { s with flag := false }
  flag : ∀ t c s op, S.point t c s op → s.flag = true → op = .idle
  flagDone : ∀ t c r s, S.done t c r s → s.flag = false
  done : ∀ t c r s, S.done t c r s → S.user t { s with flag := true }
  act : ∀ t c s d, S.point t c s (.act d) → S.later s.data d
  refl : ∀ d, S.later d d
  trans : ∀ d d' d'', S.later d d' → S.later d' d'' → S.later d d''
  waits : ∀ t c d d', S.waits t c d → S.later d d' → S.waits t c d'
  leave : ∀ t c s t', S.point t c s (.switch t') → t' ≠ t ∧ S.waits t c s.data
  switch : ∀ t c s t' s₀, S.point t c s (.switch t') → S.later s₀.data s.data → S.resume t' s₀ s

variable {S irq enter allowed}

/-- The running thread goes on, and the others wait for it. -/
theorem Inv.goto (hS : S.Met irq enter allowed) {m : Machine σ L T ρ C} {cpu : Cpu σ L}
    {p : Prog σ L T (Option ρ)} (hi : S.Inv m) (hlater : S.later m.cpu.data cpu.data)
    (h : S.Along m.running (m.call m.running) p cpu) : S.Inv (m.goto cpu p) := by
  refine ⟨?_, fun t ht => ?_⟩
  · simp only [Machine.goto, Function.update_self]
    exact h
  · have ht' : t ≠ m.running := ht
    obtain ⟨hw, p', s₀, hp', hs₀, hp⟩ := hi.waiting t ht
    refine ⟨hS.waits _ _ _ _ hw hlater, p', s₀, ?_, hS.trans _ _ _ hs₀ hlater, hp⟩
    simp only [Machine.goto, Function.update_of_ne ht']
    exact hp'

omit [DecidableEq T] in
theorem Inv.code {m : Machine σ L T ρ C} {p : Prog σ L T (Option ρ)} (hi : S.Inv m)
    (hp : m.control m.running = .code p) : S.Along m.running (m.call m.running) p m.cpu := by
  have h := hi.running
  rw [hp] at h
  exact h

omit [DecidableEq T] in
theorem Inv.point {m : Machine σ L T ρ C} {o : Op σ L T} (hi : S.Inv m) (ho : m.op = some o)
    (hne : o ≠ .plain) : S.point m.running (m.call m.running) m.cpu o := by
  cases hp : m.control m.running with
  | user =>
    rw [Machine.op, hp] at ho
    cases ho
  | code p =>
    rw [Machine.op, hp] at ho
    cases ho
    refine Prog.Along.op (hi.code hp) ?_
    rintro a rfl
    exact hne rfl

omit [DecidableEq T] in
/-- In the code the flag is set at `idle` only. -/
theorem Inv.eq_idle (hS : S.Met irq enter allowed) {m : Machine σ L T ρ C}
    {p : Prog σ L T (Option ρ)} (hi : S.Inv m) (hp : m.control m.running = .code p)
    (hflag : m.cpu.flag = true) : p = .idle := by
  have h := hi.code hp
  cases p with
  | ret a =>
    have hdone := hS.flagDone _ _ _ _ h
    rw [hflag] at hdone
    cases hdone
  | _ => exact Prog.eq_idle_of_op (hS.flag _ _ _ _ (Prog.Along.op h (by simp)) hflag)

omit [DecidableEq T] in
theorem Inv.idle_of_flag (hS : S.Met irq enter allowed) {m : Machine σ L T ρ C} {c : C}
    (hi : S.Inv m) (hc : m.call m.running = some c) (hflag : m.cpu.flag = true) :
    S.point m.running (m.call m.running) m.cpu .idle := by
  cases hp : m.control m.running with
  | user =>
    have h := hi.running
    rw [hp, hc] at h
    cases h.2
  | code p =>
    have hidle := hi.eq_idle hS hp hflag
    subst hidle
    exact hi.code hp

/-- **A step keeps the invariant.** -/
theorem Inv.step (hS : S.Met irq enter allowed) {m m' : Machine σ L T ρ C} (hi : S.Inv m)
    (hstep : m.Step irq enter allowed m') : S.Inv m' := by
  cases hstep with
  | call c huser hc =>
    have h := hi.running
    rw [huser] at h
    have hcall := hS.call m.running m.cpu c h.1 hc
    refine ⟨?_, fun t ht => ?_⟩
    · simp only [Machine.goto, Function.update_self]
      exact hcall
    · have ht' : t ≠ m.running := ht
      obtain ⟨hw, p, s₀, hp, hs₀, hs⟩ := hi.waiting t ht
      simp only [Machine.goto, Function.update_of_ne ht']
      exact ⟨hw, p, s₀, hp, hs₀, hs⟩
  | tick huser hflag =>
    have h := hi.running
    rw [huser] at h
    refine hi.goto hS (hS.refl _) ?_
    rw [h.2]
    exact hS.tick m.running m.cpu h.1
  | tickCode p hp hflag =>
    have hidle := hi.eq_idle hS hp hflag
    subst hidle
    exact hi.goto hS (hS.refl _) (hS.tickIdle _ _ _ (hi.code hp) hflag)
  | act f k hp => exact hi.goto hS (hS.act _ _ _ _ (hi.code hp).1) (hi.code hp).2
  | readFlag k hp => exact hi.goto hS (hS.refl _) (hi.code hp).2
  | setFlag b k hp => exact hi.goto hS (hS.refl _) (hi.code hp).2
  | acquire l k hp hl => exact hi.goto hS (hS.refl _) ((hi.code hp).2 hl)
  | release l k hp => exact hi.goto hS (hS.refl _) (hi.code hp).2
  | switch t k hp =>
    have h := hi.code hp
    obtain ⟨hne, hwaits⟩ := hS.leave _ _ _ _ h.1
    refine ⟨?_, fun t' ht' => ?_⟩
    · obtain ⟨_, p, s₀, hp', hs₀, hs⟩ := hi.waiting t hne
      simp only [Machine.goto, Function.update_of_ne hne, hp']
      exact hs _ (hS.switch _ _ _ _ _ h.1 hs₀)
    · by_cases heq : t' = m.running
      · subst heq
        refine ⟨hwaits, k, m.cpu, ?_, hS.refl _, h.2⟩
        simp only [Machine.goto, Function.update_self]
      · obtain ⟨hw, p, s₀, hp', hs₀, hs⟩ := hi.waiting t' heq
        refine ⟨hw, p, s₀, ?_, hs₀, hs⟩
        simp only [Machine.goto, Function.update_of_ne heq]
        exact hp'
  | leave r hp =>
    have h := hi.code hp
    refine ⟨?_, fun t ht => ?_⟩
    · simp only [Function.update_self]
      exact ⟨hS.done _ _ _ _ h, trivial⟩
    · have ht' : t ≠ m.running := ht
      obtain ⟨hw, p, s₀, hp', hs₀, hs⟩ := hi.waiting t ht
      simp only [Function.update_of_ne ht']
      exact ⟨hw, p, s₀, hp', hs₀, hs⟩

/-- **The invariant holds in all runs.** -/
theorem Inv.steps (hS : S.Met irq enter allowed) {m m' : Machine σ L T ρ C} (hi : S.Inv m)
    (hrun : m.Steps irq enter allowed m') : S.Inv m' := by
  induction hrun with
  | refl => exact hi
  | tail _ hstep ih => exact ih.step hS hstep

end Spec

end Zeronix
