import Mathlib.Data.List.Basic
import Mathlib.Algebra.BigOperators.Group.List.Basic
import Mathlib.Algebra.GroupWithZero.Nat

/-!
# Lists of extents

An extent is a start and a size; a list of them, in order of the starts and with no two
touching, is the list of the maximal runs of the addresses it covers.  `insertMerge` puts
an extent into such a list and joins it with the neighbours it touches: the result covers
what was covered before and the new extent (`covered_insertMerge`), and no two of its
extents touch (`Separated.insertMerge`).
-/

namespace Extents

/-- `x` is one of the addresses of the extent. -/
def Has (b : Nat × Nat) (x : Nat) : Prop := b.1 ≤ x ∧ x < b.1 + b.2

def Covered (l : List (Nat × Nat)) (x : Nat) : Prop := ∃ b ∈ l, Has b x

def total (l : List (Nat × Nat)) : Nat := (l.map Prod.snd).sum

/-- In order, and no two touch. -/
def Separated (l : List (Nat × Nat)) : Prop := l.Pairwise fun a b => a.1 + a.2 < b.1

/-- The two extents share no address. -/
def Apart (a b : Nat × Nat) : Prop := a.1 + a.2 ≤ b.1 ∨ b.1 + b.2 ≤ a.1

instance (a b : Nat × Nat) : Decidable (Apart a b) := inferInstanceAs (Decidable (_ ∨ _))

/-- Put an extent in front, joined with the first one if it ends where that starts. -/
def consMerge (b : Nat × Nat) : List (Nat × Nat) → List (Nat × Nat)
  | [] => [b]
  | c :: l => if b.1 + b.2 = c.1 then (b.1, b.2 + c.2) :: l else b :: c :: l

/-- Put an extent in its place, joined with the neighbours it touches. -/
def insertMerge (b : Nat × Nat) : List (Nat × Nat) → List (Nat × Nat)
  | [] => [b]
  | c :: l =>
    if b.1 ≤ c.1 then consMerge b (c :: l)
    else if c.1 + c.2 = b.1 then consMerge (c.1, c.2 + b.2) l
    else c :: insertMerge b l

/-- Put an extent between two lists, joined with the neighbours it touches. -/
def joinBetween (l₁ : List (Nat × Nat)) (b : Nat × Nat) (l₂ : List (Nat × Nat)) :
    List (Nat × Nat) :=
  match l₁.getLast? with
  | none => consMerge b l₂
  | some p =>
    if p.1 + p.2 = b.1 then l₁.dropLast ++ consMerge (p.1, p.2 + b.2) l₂ else l₁ ++ consMerge b l₂

@[simp] theorem covered_nil (x : Nat) : ¬ Covered [] x := by
  rintro ⟨b, hb, _⟩
  cases hb

@[simp] theorem covered_cons (b : Nat × Nat) (l : List (Nat × Nat)) (x : Nat) :
    Covered (b :: l) x ↔ Has b x ∨ Covered l x := by
  simp [Covered]

@[simp] theorem covered_append (l₁ l₂ : List (Nat × Nat)) (x : Nat) :
    Covered (l₁ ++ l₂) x ↔ Covered l₁ x ∨ Covered l₂ x := by
  simp only [Covered, List.mem_append, or_and_right, exists_or]

@[simp] theorem total_nil : total [] = 0 := rfl

@[simp] theorem total_cons (b : Nat × Nat) (l : List (Nat × Nat)) :
    total (b :: l) = b.2 + total l := by
  simp [total]

@[simp] theorem total_append (l₁ l₂ : List (Nat × Nat)) :
    total (l₁ ++ l₂) = total l₁ + total l₂ := by
  simp [total]

/-- Two extents that touch cover what their join covers. -/
theorem has_join {a b : Nat × Nat} (h : a.1 + a.2 = b.1) (x : Nat) :
    Has (a.1, a.2 + b.2) x ↔ Has a x ∨ Has b x := by
  simp only [Has]
  omega

theorem covered_consMerge (b : Nat × Nat) (l : List (Nat × Nat)) (x : Nat) :
    Covered (consMerge b l) x ↔ Has b x ∨ Covered l x := by
  cases l with
  | nil => simp [consMerge]
  | cons c l =>
    rw [consMerge]
    split
    · rename_i h
      rw [covered_cons, covered_cons, has_join h, or_assoc]
    · rw [covered_cons]

theorem covered_insertMerge (b : Nat × Nat) (l : List (Nat × Nat)) (x : Nat) :
    Covered (insertMerge b l) x ↔ Has b x ∨ Covered l x := by
  induction l with
  | nil => simp [insertMerge]
  | cons c l ih =>
    rw [insertMerge]
    split
    · exact covered_consMerge b (c :: l) x
    · split
      · rename_i h
        rw [covered_consMerge, has_join h, covered_cons, or_assoc, or_left_comm]
      · rw [covered_cons, ih, covered_cons, or_left_comm]

/-- The extent lies in one of those that result. -/
theorem exists_consMerge (b : Nat × Nat) (l : List (Nat × Nat)) :
    ∃ d ∈ consMerge b l, d.1 = b.1 ∧ b.1 + b.2 ≤ d.1 + d.2 := by
  cases l with
  | nil => exact ⟨b, List.mem_singleton_self b, rfl, Nat.le_refl _⟩
  | cons c l =>
    rw [consMerge]
    split
    · exact ⟨(b.1, b.2 + c.2), List.mem_cons_self, rfl, by simp only; omega⟩
    · exact ⟨b, List.mem_cons_self, rfl, Nat.le_refl _⟩

theorem exists_insertMerge (b : Nat × Nat) (l : List (Nat × Nat)) :
    ∃ d ∈ insertMerge b l, d.1 ≤ b.1 ∧ b.1 + b.2 ≤ d.1 + d.2 := by
  induction l with
  | nil => exact ⟨b, List.mem_singleton_self b, Nat.le_refl _, Nat.le_refl _⟩
  | cons c l ih =>
    rw [insertMerge]
    split
    · obtain ⟨d, hd, hstart, hend⟩ := exists_consMerge b (c :: l)
      exact ⟨d, hd, Nat.le_of_eq hstart, hend⟩
    · split
      · obtain ⟨d, hd, hstart, hend⟩ := exists_consMerge (c.1, c.2 + b.2) l
        simp only at hstart hend
        exact ⟨d, hd, by omega, by omega⟩
      · obtain ⟨d, hd, hstart, hend⟩ := ih
        exact ⟨d, List.mem_cons_of_mem c hd, hstart, hend⟩

theorem total_consMerge (b : Nat × Nat) (l : List (Nat × Nat)) :
    total (consMerge b l) = b.2 + total l := by
  cases l with
  | nil => rfl
  | cons c l =>
    rw [consMerge]
    split
    · simp only [total_cons]
      omega
    · rw [total_cons]

theorem total_insertMerge (b : Nat × Nat) (l : List (Nat × Nat)) :
    total (insertMerge b l) = b.2 + total l := by
  induction l with
  | nil => rfl
  | cons c l ih =>
    rw [insertMerge]
    split
    · exact total_consMerge b (c :: l)
    · split
      · rw [total_consMerge, total_cons]
        omega
      · rw [total_cons, ih, total_cons]
        omega

/-- A property kept by joining holds of every extent after an insertion. -/
theorem forall_insertMerge {P : Nat × Nat → Prop}
    (hjoin : ∀ a b : Nat × Nat, a.1 + a.2 = b.1 → P a → P b → P (a.1, a.2 + b.2))
    {b : Nat × Nat} {l : List (Nat × Nat)} (hb : P b) (hl : ∀ c ∈ l, P c) :
    ∀ c ∈ insertMerge b l, P c := by
  have hcons : ∀ {b : Nat × Nat} {l : List (Nat × Nat)}, P b → (∀ c ∈ l, P c) →
      ∀ c ∈ consMerge b l, P c := by
    intro b l hb hl c hc
    cases l with
    | nil =>
      obtain rfl : c = b := by simpa [consMerge] using hc
      exact hb
    | cons d l =>
      rw [consMerge] at hc
      split at hc
      · rename_i h
        rcases List.mem_cons.mp hc with hc | hc
        · rw [hc]
          exact hjoin b d h hb (hl d (by simp))
        · exact hl c (by simp [hc])
      · rcases List.mem_cons.mp hc with hc | hc
        · rw [hc]
          exact hb
        · exact hl c hc
  induction l with
  | nil => exact hcons (l := []) hb hl
  | cons d l ih =>
    intro c hc
    have hl' : ∀ c ∈ l, P c := fun c hc => hl c (by simp [hc])
    rw [insertMerge] at hc
    split at hc
    · exact hcons hb hl c hc
    · split at hc
      · rename_i h
        exact hcons (hjoin d b h (hl d (by simp)) hb) hl' c hc
      · rcases List.mem_cons.mp hc with hc | hc
        · rw [hc]
          exact hl d (by simp)
        · exact ih hl' c hc

theorem Separated.consMerge {b : Nat × Nat} {l : List (Nat × Nat)} (h : Separated l)
    (hb : ∀ c ∈ l, b.1 + b.2 ≤ c.1) (hpos : ∀ c ∈ l, 0 < c.2) : Separated (consMerge b l) := by
  cases l with
  | nil => exact List.pairwise_singleton _ _
  | cons d l =>
    obtain ⟨hd, hl⟩ := List.pairwise_cons.mp h
    have hbd := hb d (by simp)
    have hdp := hpos d (by simp)
    rw [Extents.consMerge]
    split
    · rename_i he
      refine List.pairwise_cons.mpr ⟨fun c hc => ?_, hl⟩
      have := hd c hc
      simp only
      omega
    · rename_i hne
      refine List.pairwise_cons.mpr ⟨fun c hc => ?_, h⟩
      rcases List.mem_cons.mp hc with hc | hc
      · rw [hc]
        omega
      · have := hd c hc
        omega

/-- **Inserting keeps a list separated**, when the new extent is disjoint from the others. -/
theorem Separated.insertMerge {b : Nat × Nat} {l : List (Nat × Nat)} (h : Separated l)
    (hpos : ∀ c ∈ l, 0 < c.2) (hbpos : 0 < b.2) (hb : ∀ c ∈ l, Apart b c) :
    Separated (insertMerge b l) := by
  induction l with
  | nil => exact List.pairwise_singleton _ _
  | cons d l ih =>
    obtain ⟨hd, hl⟩ := List.pairwise_cons.mp h
    have hdp := hpos d (by simp)
    have hbd := hb d (by simp)
    have hpos' : ∀ c ∈ l, 0 < c.2 := fun c hc => hpos c (by simp [hc])
    have hb' : ∀ c ∈ l, Apart b c := fun c hc => hb c (by simp [hc])
    rw [Extents.insertMerge]
    split
    · rename_i hle
      refine h.consMerge (fun c hc => ?_) hpos
      have hbd' : b.1 + b.2 ≤ d.1 := by
        rcases hbd with hbd | hbd <;> omega
      rcases List.mem_cons.mp hc with hc | hc
      · rw [hc]
        exact hbd'
      · have := hd c hc
        omega
    · rename_i hlt
      split
      · rename_i he
        refine Separated.consMerge hl (fun c hc => ?_) hpos'
        have h1 := hd c hc
        have h2 := hpos' c hc
        rcases hb' c hc with h3 | h3
        · simp only
          omega
        · omega
      · rename_i hne
        refine List.pairwise_cons.mpr ⟨?_, ih hl hpos' hb'⟩
        have hbd' : d.1 + d.2 < b.1 := by
          rcases hbd with hbd | hbd <;> omega
        -- every extent of the result starts at `b` or at an extent of `l`
        intro c hc
        have hall : ∀ c ∈ Extents.insertMerge b l, d.1 + d.2 < c.1 :=
          forall_insertMerge (P := fun c => d.1 + d.2 < c.1) (fun _ _ _ ha _ => ha) hbd' hd
        exact hall c hc

/-- Inserting between the extents that start lower and those that start higher. -/
theorem insertMerge_append {b : Nat × Nat} {l₁ l₂ : List (Nat × Nat)}
    (h₁ : ∀ c ∈ l₁, c.1 < b.1) (h₂ : ∀ c ∈ l₂, b.1 ≤ c.1) (hsep : Separated l₁)
    (hpos : ∀ c ∈ l₁, 0 < c.2) :
    insertMerge b (l₁ ++ l₂) = joinBetween l₁ b l₂ := by
  induction l₁ with
  | nil =>
    cases l₂ with
    | nil => rfl
    | cons c l₂ => simp [insertMerge, joinBetween, h₂ c (by simp)]
  | cons d l₁ ih =>
    have hd := h₁ d (by simp)
    obtain ⟨hdl, hsep'⟩ := List.pairwise_cons.mp hsep
    rw [List.cons_append, insertMerge, if_neg (by omega)]
    cases l₁ with
    | nil =>
      simp only [List.nil_append, joinBetween, List.getLast?_singleton, List.dropLast_singleton]
      split
      · rfl
      · rw [List.singleton_append]
        congr 1
        simpa [joinBetween] using ih (by simp) List.Pairwise.nil (by simp)
    | cons e l₁ =>
      have he := hdl e (by simp)
      have he' := h₁ e (by simp)
      have hep := hpos e (by simp)
      rw [if_neg (by omega), ih (fun c hc => h₁ c (by simp [hc])) hsep'
        (fun c hc => hpos c (by simp [hc])), joinBetween, joinBetween, List.getLast?_cons_cons]
      cases hlast : (e :: l₁).getLast? with
      | none => simp at hlast
      | some p =>
        simp only
        split
        · rw [List.dropLast_cons_cons, List.cons_append]
        · rfl

end Extents
