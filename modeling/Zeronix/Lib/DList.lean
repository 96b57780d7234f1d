import Mathlib.Data.List.Basic
import Mathlib.Data.List.Nodup

/-!
# Doubly linked lists

A doubly linked list is threaded through a pair of link functions `nx` and `pv`, and a
sequence is what its nodes spell.  `Seg nx pv before l after` says that the nodes of `l`
are linked in order, that the first one points back to `before` and the last one on to
`after`; a whole list is a segment from `none` to `none`.

`seg_append` splits a segment at any place.  With `Seg.congr`, which moves a segment to
other link functions that agree on its nodes, it gives the two edits: a node pushed in
front (`Seg.push`) and a node taken out of the middle (`Seg.remove`).
-/

namespace DList

variable {α : Type*} {nx pv nx' pv' : α → Option α}

/-- `l` is linked in order between `before` and `after`. -/
def Seg (nx pv : α → Option α) (before : Option α) : List α → Option α → Prop
  | [], _ => True
  | x :: l, after => pv x = before ∧ nx x = l.head?.or after ∧ Seg nx pv (some x) l after

@[simp] theorem seg_nil {before after : Option α} : Seg nx pv before [] after := trivial

theorem seg_cons {before after : Option α} {x : α} {l : List α} :
    Seg nx pv before (x :: l) after ↔
      pv x = before ∧ nx x = l.head?.or after ∧ Seg nx pv (some x) l after := Iff.rfl

theorem Seg.congr {before after : Option α} {l : List α} (h : Seg nx pv before l after)
    (hnx : ∀ x ∈ l, nx' x = nx x) (hpv : ∀ x ∈ l, pv' x = pv x) : Seg nx' pv' before l after := by
  induction l generalizing before with
  | nil => trivial
  | cons x l ih =>
    obtain ⟨h1, h2, h3⟩ := h
    refine ⟨(hpv x (by simp)).trans h1, (hnx x (by simp)).trans h2, ?_⟩
    exact ih h3 (fun y hy => hnx y (List.mem_cons_of_mem x hy))
      (fun y hy => hpv y (List.mem_cons_of_mem x hy))

/-- **A segment splits at any place**: each half is a segment that meets the other. -/
theorem seg_append {before after : Option α} {l₁ l₂ : List α} :
    Seg nx pv before (l₁ ++ l₂) after ↔
      Seg nx pv before l₁ (l₂.head?.or after) ∧ Seg nx pv (l₁.getLast?.or before) l₂ after := by
  induction l₁ generalizing before with
  | nil => simp
  | cons x l ih =>
    rw [List.cons_append, seg_cons, seg_cons, ih, and_assoc, and_assoc]
    have hhead : (l ++ l₂).head?.or after = l.head?.or (l₂.head?.or after) := by
      cases l <;> simp
    have hlast : (x :: l).getLast?.or before = l.getLast?.or (some x) := by
      cases l with
      | nil => simp
      | cons y l => simp [List.getLast?_cons]
    rw [hhead, hlast]

theorem Seg.links {x : α} {l₁ l₂ : List α} (h : Seg nx pv none (l₁ ++ x :: l₂) none) :
    pv x = l₁.getLast? ∧ nx x = l₂.head? := by
  obtain ⟨_, h2⟩ := seg_append.mp h
  obtain ⟨h3, h4, _⟩ := h2
  exact ⟨by simpa using h3, by simpa using h4⟩

variable [DecidableEq α]

theorem Seg.change_before {before before' after : Option α} {l : List α}
    (h : Seg nx pv before l after) (hnx : ∀ x ∈ l, nx' x = nx x)
    (hpv : ∀ x ∈ l, pv' x = if l.head? = some x then before' else pv x) (hnd : l.Nodup) :
    Seg nx' pv' before' l after := by
  cases l with
  | nil => trivial
  | cons x l =>
    obtain ⟨_, h2, h3⟩ := h
    obtain ⟨hx, _⟩ := List.nodup_cons.mp hnd
    refine ⟨by simpa using hpv x (by simp), (hnx x (by simp)).trans h2, ?_⟩
    refine h3.congr (fun y hy => hnx y (List.mem_cons_of_mem x hy)) (fun y hy => ?_)
    have hne : ¬ x = y := fun he => hx (he ▸ hy)
    simpa [hne] using hpv y (List.mem_cons_of_mem x hy)

theorem Seg.change_after {before after after' : Option α} {l : List α}
    (h : Seg nx pv before l after) (hpv : ∀ x ∈ l, pv' x = pv x)
    (hnx : ∀ x ∈ l, nx' x = if l.getLast? = some x then after' else nx x) (hnd : l.Nodup) :
    Seg nx' pv' before l after' := by
  induction l generalizing before with
  | nil => trivial
  | cons x l ih =>
    obtain ⟨h1, h2, h3⟩ := h
    obtain ⟨hx, hnd'⟩ := List.nodup_cons.mp hnd
    refine ⟨(hpv x (by simp)).trans h1, ?_, ?_⟩
    · have hx' := hnx x (by simp)
      cases l with
      | nil => simpa using hx'
      | cons y l =>
        have hlast : ¬ (x :: y :: l).getLast? = some x := by
          rw [List.getLast?_cons_cons]
          intro he
          exact hx (List.mem_of_getLast? he)
        rw [if_neg hlast] at hx'
        simpa using hx'.trans h2
    · refine ih h3 (fun y hy => hpv y (List.mem_cons_of_mem x hy)) (fun y hy => ?_) hnd'
      have hy' := hnx y (List.mem_cons_of_mem x hy)
      cases l with
      | nil => simp at hy
      | cons z l => rwa [List.getLast?_cons_cons] at hy'

/-! ### Whole lists -/

/-- **Push.**  A new node in front of a list, with the old first node linked back to it. -/
theorem Seg.push {x : α} {l : List α} (h : Seg nx pv none l none) (hnd : l.Nodup)
    (hx : nx' x = l.head?) (hx' : pv' x = none) (hnx : ∀ y ∈ l, nx' y = nx y)
    (hpv : ∀ y ∈ l, pv' y = if l.head? = some y then some x else pv y) :
    Seg nx' pv' none (x :: l) none :=
  ⟨hx', by simpa using hx, h.change_before hnx hpv hnd⟩

/-- **Remove.**  A node leaves the list when its neighbours are linked to each other. -/
theorem Seg.remove {x : α} {l₁ l₂ : List α} (h : Seg nx pv none (l₁ ++ x :: l₂) none)
    (hnd : (l₁ ++ x :: l₂).Nodup)
    (hnx : ∀ y ∈ l₁ ++ l₂, nx' y = if l₁.getLast? = some y then l₂.head? else nx y)
    (hpv : ∀ y ∈ l₁ ++ l₂, pv' y = if l₂.head? = some y then l₁.getLast? else pv y) :
    Seg nx' pv' none (l₁ ++ l₂) none := by
  obtain ⟨hs1, hs2⟩ := seg_append.mp h
  obtain ⟨_, _, hs3⟩ := hs2
  obtain ⟨hnd1, hnd2, hdis⟩ := List.nodup_append.mp hnd
  have hnd3 : l₂.Nodup := (List.nodup_cons.mp hnd2).2
  have hdis' : ∀ y ∈ l₁, y ∉ l₂ := fun y hy hy' =>
    hdis y hy y (List.mem_cons_of_mem x hy') rfl
  refine seg_append.mpr ⟨?_, ?_⟩
  · refine hs1.change_after (fun y hy => ?_) (fun y hy => ?_) hnd1
    · rw [hpv y (by simp [hy]), if_neg]
      exact fun he => hdis' y hy (List.mem_of_head? he)
    · simpa using hnx y (by simp [hy])
  · refine hs3.change_before (fun y hy => ?_) (fun y hy => ?_) hnd3
    · rw [hnx y (by simp [hy]), if_neg]
      exact fun he => hdis' y (List.mem_of_getLast? he) hy
    · simpa using hpv y (by simp [hy])

end DList
