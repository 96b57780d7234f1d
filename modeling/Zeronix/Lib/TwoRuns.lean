import Zeronix.Lib.Cpu

/-!
# Two runs of a program

`Prog.finish` is a run without interrupts, up to the end of the program, a switch, or a lock that
is held.  `Prog.Alike R` says that two runs from data related by `R` end in the same way with data
that is still related: what `R` does not compare has no influence on anything else.
-/

namespace Zeronix

/-- The end of a run: `wait` is a lock that is held. -/
inductive End (L T α : Type) where
  | ret (a : α)
  | stop
  | idle
  | wait (l : L)
  | switch (t : T)
  deriving DecidableEq

/-- The same but for the data, which is related. -/
structure Cpu.Alike {σ L : Type} (R : σ → σ → Prop) (s s' : Cpu σ L) : Prop where
  data : R s.data s'.data
  held : s'.held = s.held
  flag : s'.flag = s.flag

namespace Prog

variable {σ L T α β : Type} [DecidableEq L]

def finish : Prog σ L T α → Cpu σ L → End L T α × Cpu σ L
  | ret a, s => (.ret a, s)
  | stop, s => (.stop, s)
  | idle, s => (.idle, s)
  | act f k, s => (k (f s.data).1).finish { s with data := (f s.data).2 }
  | readFlag k, s => (k s.flag).finish s
  | setFlag b k, s => k.finish { s with flag := b }
  | acquire l k, s =>
    if l ∈ s.held then (.wait l, s) else k.finish { s with held := l :: s.held }
  | release l k, s => k.finish { s with held := s.held.erase l }
  | switch t _, s => (.switch t, s)

/-- What comes after a run that has ended. -/
def andThen (r : End L T α × Cpu σ L) (f : α → Prog σ L T β) : End L T β × Cpu σ L :=
  match r.1 with
  | .ret a => (f a).finish r.2
  | .stop => (.stop, r.2)
  | .idle => (.idle, r.2)
  | .wait l => (.wait l, r.2)
  | .switch t => (.switch t, r.2)

theorem finish_bind (p : Prog σ L T α) (f : α → Prog σ L T β) (s : Cpu σ L) :
    (p.bind f).finish s = andThen (p.finish s) f := by
  induction p generalizing s with
  | ret a => rfl
  | stop => rfl
  | idle => rfl
  | act g k ih => exact ih _ _
  | readFlag k ih => exact ih _ _
  | setFlag b k ih => exact ih _
  | acquire l k ih =>
    simp only [bind, finish]
    by_cases hl : l ∈ s.held
    · simp only [if_pos hl]
      rfl
    · simp only [if_neg hl]
      exact ih _
  | release l k ih => exact ih _
  | switch t k => rfl

/-! ### Results -/

/-- The result of a run, if there is one, is in `V`. -/
def Gives (V : α → Prop) (p : Prog σ L T α) : Prop := ∀ s a, (p.finish s).1 = .ret a → V a

namespace Gives

theorem any (p : Prog σ L T α) : Gives (fun _ => True) p := fun _ _ _ => trivial

theorem ret {V : α → Prop} {a : α} (h : V a) : Gives V (.ret a : Prog σ L T α) := by
  intro s b hb
  cases hb
  exact h

theorem liftOpt {V : β → Prop} {f : σ → Option (β × σ)} (hf : ∀ d b d', f d = some (b, d') → V b) :
    Gives V (Prog.liftOpt f : Prog σ L T β) := by
  intro s b hb
  cases hd : f s.data with
  | none =>
    simp only [Prog.liftOpt, finish, hd] at hb
    cases hb
  | some r =>
    simp only [Prog.liftOpt, finish, hd] at hb
    cases hb
    exact hf _ _ _ hd

theorem bind {U : α → Prop} {V : β → Prop} {p : Prog σ L T α} {f : α → Prog σ L T β}
    (hp : Gives U p) (hf : ∀ a, U a → Gives V (f a)) : Gives V (p >>= f) := by
  intro s b hb
  change ((p.bind f).finish s).1 = .ret b at hb
  rw [finish_bind, andThen] at hb
  cases hend : (p.finish s).1 with
  | ret a =>
    rw [hend] at hb
    exact hf a (hp s a hend) _ b hb
  | _ =>
    rw [hend] at hb
    cases hb

end Gives

/-! ### Two runs -/

/-- Two runs from related data end in the same way, with related data. -/
def Alike (R : σ → σ → Prop) (p : Prog σ L T α) : Prop :=
  ∀ s s', Cpu.Alike R s s' →
    (p.finish s').1 = (p.finish s).1 ∧ Cpu.Alike R (p.finish s).2 (p.finish s').2

namespace Alike

variable {R : σ → σ → Prop}

theorem ret (a : α) : Alike R (.ret a : Prog σ L T α) := fun _ _ h => ⟨rfl, h⟩

theorem stop : Alike R (.stop : Prog σ L T α) := fun _ _ h => ⟨rfl, h⟩

theorem idle : Alike R (.idle : Prog σ L T α) := fun _ _ h => ⟨rfl, h⟩

theorem readFlag {k : Bool → Prog σ L T α} (hk : ∀ b, Alike R (k b)) : Alike R (.readFlag k) := by
  intro s s' h
  simp only [finish, h.flag]
  exact hk _ s s' h

theorem setFlag (b : Bool) {k : Prog σ L T α} (hk : Alike R k) : Alike R (.setFlag b k) :=
  fun _ _ h => hk _ _ ⟨h.data, h.held, rfl⟩

theorem acquire (l : L) {k : Prog σ L T α} (hk : Alike R k) : Alike R (.acquire l k) := by
  intro s s' h
  simp only [finish, h.held]
  by_cases hl : l ∈ s.held
  · simp only [if_pos hl]
    exact ⟨trivial, h⟩
  · simp only [if_neg hl]
    exact hk _ _ ⟨h.data, rfl, h.flag⟩

theorem release (l : L) {k : Prog σ L T α} (hk : Alike R k) : Alike R (.release l k) := by
  intro s s' h
  refine hk _ _ ⟨h.data, ?_, h.flag⟩
  rw [h.held]

theorem switch (t : T) (k : Prog σ L T α) : Alike R (.switch t k) := fun _ _ h => ⟨rfl, h⟩

theorem ite {c : Prop} [Decidable c] {p q : Prog σ L T α} (hp : c → Alike R p)
    (hq : ¬ c → Alike R q) : Alike R (if c then p else q) := by
  by_cases hc : c
  · rw [if_pos hc]
    exact hp hc
  · rw [if_neg hc]
    exact hq hc

theorem lift {f : σ → β × σ} (hf : ∀ d d', R d d' → (f d').1 = (f d).1 ∧ R (f d).2 (f d').2) :
    Alike R (Prog.lift f : Prog σ L T β) := by
  intro s s' h
  obtain ⟨hr, hd⟩ := hf _ _ h.data
  exact ⟨congrArg End.ret hr, hd, h.held, h.flag⟩

/-- An action that may panic does so in both runs or in neither. -/
theorem liftOpt {f : σ → Option (β × σ)}
    (hf : ∀ d d', R d d' → f d = none ∧ f d' = none ∨
      ∃ b e e', f d = some (b, e) ∧ f d' = some (b, e') ∧ R e e') :
    Alike R (Prog.liftOpt f : Prog σ L T β) := by
  intro s s' h
  rcases hf _ _ h.data with ⟨hd, hd'⟩ | ⟨b, e, e', hd, hd', he⟩
  · simp only [Prog.liftOpt, finish, hd, hd']
    exact ⟨trivial, h⟩
  · simp only [Prog.liftOpt, finish, hd, hd']
    exact ⟨trivial, he, h.held, h.flag⟩

theorem bindOf {V : α → Prop} {p : Prog σ L T α} {f : α → Prog σ L T β} (hp : Alike R p)
    (hV : Gives V p) (hf : ∀ a, V a → Alike R (f a)) : Alike R (p >>= f) := by
  intro s s' h
  obtain ⟨hend, hs⟩ := hp s s' h
  show ((p.bind f).finish s').1 = ((p.bind f).finish s).1 ∧
    Cpu.Alike R ((p.bind f).finish s).2 ((p.bind f).finish s').2
  rw [finish_bind, finish_bind, andThen, andThen, hend]
  cases hret : (p.finish s).1 with
  | ret a => exact hf a (hV s a hret) _ _ hs
  | _ => exact ⟨rfl, hs⟩

theorem bind {p : Prog σ L T α} {f : α → Prog σ L T β} (hp : Alike R p)
    (hf : ∀ a, Alike R (f a)) : Alike R (p >>= f) := bindOf hp (Gives.any p) fun a _ => hf a

theorem each {f : β → Prog σ L T Unit} (hf : ∀ b, Alike R (f b)) (bs : List β) :
    Alike R (Prog.each f bs) := by
  induction bs with
  | nil => exact .ret ()
  | cons b bs ih => exact .bind (hf b) fun _ => ih

end Alike

end Prog

end Zeronix
