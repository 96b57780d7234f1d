import Mathlib.Data.Nat.Bitwise
import Mathlib.Algebra.Order.Ring.Nat
import Mathlib.Order.Basic
import Mathlib.Tactic.Ring

/-!
# Tilings by dyadic blocks

The dyadic block of order `o` around `x` is the set of `y` with `y / 2 ^ o = x / 2 ^ o`.
Two dyadic blocks are nested or disjoint, so a family of disjoint coloured blocks can be
kept as a function: a `Tiling` gives each number the order and the colour of the block it
lies in, and `Consistent` says that a block's numbers agree on it.  Disjointness is then
no separate condition: a number has one order, hence one block.

`Consistent.overlay` replaces the blocks inside one dyadic block by others; splitting
and merging are both of this form.

A tiling is `Coalesced` in a colour below order `M` when no two buddies of that colour
have the same order below `M`.  `Coalesced.le_order` says such a tiling has no block
smaller than it could be: wherever a whole dyadic block of order at most `M` has the
colour, the tiling's own block is at least as large.  So the coloured set determines
the blocks (`Coalesced.eq_of_same_support`).
-/

namespace Dyadic

/-! ### Blocks -/

/-- Being in one block of order `o` persists at larger orders. -/
theorem div_eq_of_le {o o' x y : Nat} (h : o ≤ o') (hxy : x / 2 ^ o = y / 2 ^ o) :
    x / 2 ^ o' = y / 2 ^ o' := by
  obtain ⟨k, rfl⟩ := Nat.exists_eq_add_of_le h
  rw [pow_add, ← Nat.div_div_eq_div_mul, ← Nat.div_div_eq_div_mul, hxy]

/-- The block around a multiple of `2 ^ o` is the interval that starts there. -/
theorem div_eq_iff {o p x : Nat} (hp : 2 ^ o ∣ p) :
    x / 2 ^ o = p / 2 ^ o ↔ p ≤ x ∧ x < p + 2 ^ o := by
  obtain ⟨c, rfl⟩ := hp
  have hpos : 0 < 2 ^ o := Nat.two_pow_pos o
  rw [Nat.mul_div_cancel_left c hpos, Nat.div_eq_iff hpos, Nat.mul_comm c]
  omega

theorem div_add_lt {o p i : Nat} (hp : 2 ^ o ∣ p) (hi : i < 2 ^ o) :
    (p + i) / 2 ^ o = p / 2 ^ o := (div_eq_iff hp).mpr ⟨by omega, by omega⟩

/-- Two multiples of `2 ^ o` in one block of order `o` are equal. -/
theorem eq_of_dvd_of_div_eq {o p q : Nat} (hp : 2 ^ o ∣ p) (hq : 2 ^ o ∣ q)
    (h : p / 2 ^ o = q / 2 ^ o) : p = q := by
  rw [← Nat.div_mul_cancel hp, ← Nat.div_mul_cancel hq, h]

/-- The only multiple of `2 ^ o` in a block of order `o` is its start. -/
theorem dvd_iff_eq {o p x : Nat} (hp : 2 ^ o ∣ p) (h : x / 2 ^ o = p / 2 ^ o) :
    2 ^ o ∣ x ↔ x = p := by
  constructor
  · intro hx
    exact eq_of_dvd_of_div_eq hx hp h
  · rintro rfl
    exact hp

theorem dvd_blockStart (o x : Nat) : 2 ^ o ∣ x / 2 ^ o * 2 ^ o := Dvd.intro_left _ rfl

theorem blockStart_div (o x : Nat) : x / 2 ^ o * 2 ^ o / 2 ^ o = x / 2 ^ o :=
  Nat.mul_div_cancel _ (Nat.two_pow_pos o)

/-! ### Buddies -/

theorem xor_one_cases (c : Nat) :
    (c % 2 = 0 ∧ c ^^^ 1 = c + 1) ∨ (c % 2 = 1 ∧ c ^^^ 1 = c - 1) := by
  rcases Nat.mod_two_eq_zero_or_one c with h | h
  · exact Or.inl ⟨h, Nat.xor_one_of_even (Nat.even_iff.mpr h)⟩
  · exact Or.inr ⟨h, Nat.xor_one_of_odd (Nat.odd_iff.mpr h)⟩

/-- The buddy's block number: flip the lowest bit. -/
theorem xor_two_pow_eq {o p : Nat} (hp : 2 ^ o ∣ p) :
    p ^^^ 2 ^ o = (p / 2 ^ o ^^^ 1) * 2 ^ o := by
  obtain ⟨c, rfl⟩ := hp
  rw [Nat.mul_div_cancel_left c (Nat.two_pow_pos o), Nat.mul_comm (2 ^ o) c,
    ← Nat.shiftLeft_eq, ← Nat.shiftLeft_eq, Nat.shiftLeft_xor_distrib, Nat.one_shiftLeft]

theorem xor_two_pow_div {o p : Nat} (hp : 2 ^ o ∣ p) : (p ^^^ 2 ^ o) / 2 ^ o = p / 2 ^ o ^^^ 1 := by
  rw [xor_two_pow_eq hp, Nat.mul_div_cancel _ (Nat.two_pow_pos o)]

theorem dvd_xor_two_pow {o p : Nat} (hp : 2 ^ o ∣ p) : 2 ^ o ∣ p ^^^ 2 ^ o := by
  rw [xor_two_pow_eq hp]
  exact Dvd.intro_left _ rfl

/-- A block's buddy is right after it or right before it. -/
theorem xor_two_pow_cases {o p : Nat} (hp : 2 ^ o ∣ p) :
    p ^^^ 2 ^ o = p + 2 ^ o ∨ p = (p ^^^ 2 ^ o) + 2 ^ o := by
  rw [xor_two_pow_eq hp]
  obtain ⟨c, rfl⟩ := hp
  rw [Nat.mul_div_cancel_left c (Nat.two_pow_pos o), Nat.mul_comm (2 ^ o) c]
  rcases xor_one_cases c with ⟨_, he⟩ | ⟨hodd, he⟩
  · rw [he, Nat.succ_mul]
    exact Or.inl rfl
  · obtain ⟨d, rfl⟩ : ∃ d, c = d + 1 := ⟨c - 1, by omega⟩
    rw [he, Nat.succ_mul]
    exact Or.inr rfl

/-- The buddy of a block that starts a larger one follows it. -/
theorem xor_two_pow_of_dvd {o k p : Nat} (hk : o < k) (hp : 2 ^ k ∣ p) :
    p ^^^ 2 ^ o = p + 2 ^ o := by
  have h1 : 2 ^ (o + 1) ∣ p := (pow_dvd_pow 2 hk).trans hp
  have ho : 2 ^ o ∣ p := (pow_dvd_pow 2 (by omega)).trans hp
  obtain ⟨c, rfl⟩ := h1
  rw [xor_two_pow_eq ho, pow_succ, Nat.mul_assoc, Nat.mul_div_cancel_left _ (Nat.two_pow_pos o)]
  rcases xor_one_cases (2 * c) with ⟨_, h⟩ | ⟨h, _⟩
  · rw [h]; ring
  · omega

/-- A block and its buddy together are the block of the next order around either. -/
theorem div_succ_eq_iff {o x y : Nat} :
    y / 2 ^ (o + 1) = x / 2 ^ (o + 1) ↔
      y / 2 ^ o = x / 2 ^ o ∨ y / 2 ^ o = x / 2 ^ o ^^^ 1 := by
  rw [pow_succ, ← Nat.div_div_eq_div_mul, ← Nat.div_div_eq_div_mul]
  generalize x / 2 ^ o = a, y / 2 ^ o = b
  rcases xor_one_cases a with ⟨hm, he⟩ | ⟨hm, he⟩
  · rw [he]; omega
  · rw [he]; omega

/-- The lower of two buddies starts the block of the next order. -/
theorem min_xor_two_pow {o p : Nat} (hp : 2 ^ o ∣ p) :
    min p (p ^^^ 2 ^ o) = p / 2 ^ (o + 1) * 2 ^ (o + 1) := by
  rw [xor_two_pow_eq hp]
  obtain ⟨c, rfl⟩ := hp
  have hpos : 0 < 2 ^ o := Nat.two_pow_pos o
  rw [Nat.mul_div_cancel_left c hpos, pow_succ, ← Nat.div_div_eq_div_mul,
    Nat.mul_div_cancel_left c hpos, Nat.mul_comm (2 ^ o) c, Nat.mul_min_mul_right]
  rw [Nat.mul_comm (2 ^ o) 2, ← Nat.mul_assoc]
  congr 1
  rcases xor_one_cases c with ⟨hm, he⟩ | ⟨hm, he⟩
  · rw [he]; omega
  · rw [he]; omega

/-! ### Tilings -/

variable {κ : Type*}

/-- The order and colour of the block each number lies in. -/
abbrev Tiling (κ : Type*) := Nat → Option (Nat × κ)

namespace Tiling

/-- All numbers of a block carry the block's order and colour. -/
def Consistent (t : Tiling κ) : Prop :=
  ∀ x o c, t x = some (o, c) → ∀ y, y / 2 ^ o = x / 2 ^ o → t y = some (o, c)

/-- Replace what `t` says on the block of order `o` around `p`. -/
def overlay (t : Tiling κ) (o p : Nat) (u : Tiling κ) : Tiling κ :=
  fun x => if x / 2 ^ o = p / 2 ^ o then u x else t x

theorem overlay_of_mem {t u : Tiling κ} {o p x : Nat} (h : x / 2 ^ o = p / 2 ^ o) :
    t.overlay o p u x = u x := if_pos h

theorem overlay_of_not_mem {t u : Tiling κ} {o p x : Nat} (h : ¬ x / 2 ^ o = p / 2 ^ o) :
    t.overlay o p u x = t x := if_neg h

/-- **Replacing the blocks inside one block keeps a tiling consistent**, when no old block
that meets it is larger and the new ones tile it. -/
theorem Consistent.overlay {t u : Tiling κ} (ht : t.Consistent) {o p : Nat}
    (hin : ∀ x, x / 2 ^ o = p / 2 ^ o → ∀ o' c, t x = some (o', c) → o' ≤ o)
    (hu : ∀ x, x / 2 ^ o = p / 2 ^ o → ∀ o' c, u x = some (o', c) →
      o' ≤ o ∧ ∀ y, y / 2 ^ o' = x / 2 ^ o' → u y = some (o', c)) :
    (t.overlay o p u).Consistent := by
  intro x o' c hx y hy
  by_cases hxp : x / 2 ^ o = p / 2 ^ o
  · rw [overlay_of_mem hxp] at hx
    obtain ⟨hle, hall⟩ := hu x hxp o' c hx
    rw [overlay_of_mem ((div_eq_of_le hle hy).trans hxp)]
    exact hall y hy
  · rw [overlay_of_not_mem hxp] at hx
    have hty := ht x o' c hx y hy
    -- were `y` inside, its block would be inside too, and `x` is in that block
    have hyp : ¬ y / 2 ^ o = p / 2 ^ o := fun hyp =>
      hxp ((div_eq_of_le (hin y hyp o' c hty) hy).symm.trans hyp)
    rw [overlay_of_not_mem hyp]
    exact hty

/-- No two buddies of colour `c` have the same order below `M`. -/
def Coalesced (t : Tiling κ) (M : Nat) (c : κ) : Prop :=
  ∀ x y o, o < M → y / 2 ^ o = x / 2 ^ o ^^^ 1 → t x = some (o, c) → t y ≠ some (o, c)

/-- In a coalesced tiling a wholly coloured dyadic block lies in one block. -/
theorem Coalesced.le_order {t : Tiling κ} {M : Nat} {c : κ} (hc : t.Coalesced M c)
    (ht : t.Consistent) {k x : Nat} (hk : k ≤ M)
    (hall : ∀ y, y / 2 ^ k = x / 2 ^ k → ∃ o, t y = some (o, c)) :
    ∃ o, k ≤ o ∧ t x = some (o, c) := by
  -- the orders that occur in the block have a least one; it cannot be below `k`
  classical
  have hne : ∃ m, ∃ y, y / 2 ^ k = x / 2 ^ k ∧ t y = some (m, c) := by
    obtain ⟨o, ho⟩ := hall x rfl
    exact ⟨o, x, rfl, ho⟩
  obtain ⟨y, hyk, hy⟩ := Nat.find_spec hne
  set m := Nat.find hne with hm
  have hmin : ∀ z o, z / 2 ^ k = x / 2 ^ k → t z = some (o, c) → m ≤ o := fun z o hz hzo =>
    Nat.find_min' hne ⟨z, hz, hzo⟩
  rcases Nat.lt_or_ge m k with hlt | hge
  · exfalso
    -- the buddy of `y`'s block is inside the block too, and has the same order
    let z := (y / 2 ^ m ^^^ 1) * 2 ^ m
    have hz : z / 2 ^ m = y / 2 ^ m ^^^ 1 := Nat.mul_div_cancel _ (Nat.two_pow_pos m)
    have hzy : z / 2 ^ (m + 1) = y / 2 ^ (m + 1) := div_succ_eq_iff.mpr (Or.inr hz)
    have hzk : z / 2 ^ k = x / 2 ^ k := (div_eq_of_le hlt hzy).trans hyk
    obtain ⟨o, ho⟩ := hall z hzk
    have hmo := hmin z o hzk ho
    rcases Nat.lt_or_ge m o with h | h
    · have := ht z o c ho y (div_eq_of_le h hzy.symm)
      rw [hy] at this
      simp only [Option.some.injEq, Prod.mk.injEq, and_true] at this
      omega
    · have hom : o = m := by omega
      exact hc y z m (by omega) hz hy (hom ▸ ho)
  · obtain ⟨o, ho⟩ := hall x rfl
    exact ⟨o, le_trans hge (hmin x o rfl ho), ho⟩

/-- **The coloured set determines the blocks of a coalesced tiling.** -/
theorem Coalesced.eq_of_same_support {t u : Tiling κ} {M : Nat} {c : κ}
    (ht : t.Consistent) (hu : u.Consistent) (htc : t.Coalesced M c) (huc : u.Coalesced M c)
    (htM : ∀ x o, t x = some (o, c) → o ≤ M) (huM : ∀ x o, u x = some (o, c) → o ≤ M)
    (hsame : ∀ x, (∃ o, t x = some (o, c)) ↔ ∃ o, u x = some (o, c)) (x o : Nat) :
    t x = some (o, c) ↔ u x = some (o, c) := by
  have key : ∀ {t u : Tiling κ}, t.Consistent → u.Consistent → t.Coalesced M c →
      (∀ x o, u x = some (o, c) → o ≤ M) →
      (∀ x, (∃ o, u x = some (o, c)) → ∃ o, t x = some (o, c)) →
      ∀ {o}, u x = some (o, c) → ∃ o', o ≤ o' ∧ t x = some (o', c) := by
    intro t u ht hu htc huM hsub o ho
    exact htc.le_order ht (huM x o ho) fun y hy => hsub y ⟨o, hu x o c ho y hy⟩
  constructor
  · intro h
    obtain ⟨o', hle, h'⟩ := key hu ht huc htM (fun x => (hsame x).mp) h
    obtain ⟨o'', hle', h''⟩ := key ht hu htc huM (fun x => (hsame x).mpr) h'
    rw [h] at h''
    simp only [Option.some.injEq, Prod.mk.injEq, and_true] at h''
    obtain rfl : o' = o := by omega
    exact h'
  · intro h
    obtain ⟨o', hle, h'⟩ := key ht hu htc huM (fun x => (hsame x).mpr) h
    obtain ⟨o'', hle', h''⟩ := key hu ht huc htM (fun x => (hsame x).mp) h'
    rw [h] at h''
    simp only [Option.some.injEq, Prod.mk.injEq, and_true] at h''
    obtain rfl : o' = o := by omega
    exact h'

end Tiling

end Dyadic
