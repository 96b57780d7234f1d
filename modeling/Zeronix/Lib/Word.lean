import Mathlib.Data.Nat.Bitwise
import Mathlib.Algebra.Order.Ring.Nat
import Mathlib.Tactic.Ring

/-!
# 64-bit machine words

A machine word is a natural number below `2 ^ 64`.  The operators that can leave
that range come in the three forms a program has them in: `add`, `sub` and `mul`
answer `none` where the checked operator overflows, `saturatingAdd` stops at the
largest word, and `not` is the complement inside the word.

`and_not_two_pow` reads the usual mask as division, which is the form the arithmetic of the
proofs works in.
-/

namespace Word

/-- One more than the largest word. -/
def modulus : Nat := 2 ^ 64

/-- Addition that reports overflow. -/
def add (x y : Nat) : Option Nat := if x + y < modulus then some (x + y) else none

/-- Subtraction that reports underflow. -/
def sub (x y : Nat) : Option Nat := if y ≤ x then some (x - y) else none

/-- Multiplication that reports overflow. -/
def mul (x y : Nat) : Option Nat := if x * y < modulus then some (x * y) else none

/-- Addition that stops at the largest word. -/
def saturatingAdd (x y : Nat) : Nat := min (x + y) (modulus - 1)

/-- The bitwise complement inside the word. -/
def not (x : Nat) : Nat := modulus - 1 - x

/-- The number of zero bits below the lowest set bit among the first `w`; `w` when there
is none. -/
def trailingZerosIn : Nat → Nat → Nat
  | 0, _ => 0
  | w + 1, n => if n % 2 = 1 then 0 else trailingZerosIn w (n / 2) + 1

/-- `trailing_zeros` of a word: `64` at zero. -/
def trailingZeros (n : Nat) : Nat := trailingZerosIn 64 n

/-- `leading_zeros` of a word: `64` at zero. -/
def leadingZeros (n : Nat) : Nat := if n = 0 then 64 else 63 - Nat.log2 n

/-! ### The checked operators -/

@[simp] theorem add_eq_some {x y z : Nat} : add x y = some z ↔ x + y < modulus ∧ z = x + y := by
  unfold add
  split <;> simp_all [eq_comm]

@[simp] theorem sub_eq_some {x y z : Nat} : sub x y = some z ↔ y ≤ x ∧ z = x - y := by
  unfold sub
  split <;> simp_all [eq_comm]

@[simp] theorem mul_eq_some {x y z : Nat} : mul x y = some z ↔ x * y < modulus ∧ z = x * y := by
  unfold mul
  split <;> simp_all [eq_comm]

/-! ### Masks -/

theorem testBit_not_two_pow_sub_one {k : Nat} (hk : k ≤ 64) (i : Nat) :
    (not (2 ^ k - 1)).testBit i = (decide (k ≤ i) && decide (i < 64)) := by
  have hle : 2 ^ k - 1 < 2 ^ 64 := by
    have := Nat.pow_le_pow_right (show 0 < 2 by omega) hk
    have := Nat.two_pow_pos k
    omega
  have hnot : not (2 ^ k - 1) = 2 ^ 64 - (2 ^ k - 1 + 1) := by
    unfold not modulus
    omega
  rw [hnot, Nat.testBit_two_pow_sub_succ hle, Nat.testBit_two_pow_sub_one]
  rcases Nat.lt_or_ge i k with h | h
  · simp [h, Nat.not_le.mpr h]
  · simp [h, Nat.not_lt.mpr h]

theorem and_not_two_pow {x k : Nat} (hx : x < modulus) (hk : k ≤ 64) :
    x &&& not (2 ^ k - 1) = x / 2 ^ k * 2 ^ k := by
  apply Nat.eq_of_testBit_eq
  intro i
  rw [Nat.testBit_and, testBit_not_two_pow_sub_one hk, Nat.mul_comm, Nat.testBit_two_pow_mul,
    Nat.testBit_div_two_pow]
  by_cases hki : k ≤ i
  · rw [Nat.sub_add_cancel hki]
    by_cases hi : i < 64
    · simp [hki, hi]
    · have hz : x.testBit i = false := by
        apply Nat.testBit_lt_two_pow
        exact lt_of_lt_of_le hx (Nat.pow_le_pow_right (by omega) (by omega))
      simp [hz]
  · simp [hki]

/-! ### Counting zeros -/

theorem le_trailingZerosIn : ∀ (w n k : Nat), k ≤ w → (k ≤ trailingZerosIn w n ↔ 2 ^ k ∣ n) := by
  intro w
  induction w with
  | zero =>
    intro n k hk
    obtain rfl : k = 0 := by omega
    simp
  | succ w ih =>
    intro n k hk
    rw [trailingZerosIn]
    cases k with
    | zero => simp
    | succ k =>
      split
      · rename_i hodd
        constructor
        · intro h; omega
        · intro h
          have h2 : 2 ∣ n := Dvd.dvd.trans (dvd_pow_self 2 (by omega)) h
          omega
      · rename_i heven
        have hn : n = 2 * (n / 2) := by omega
        rw [Nat.add_le_add_iff_right, ih (n / 2) k (by omega), pow_succ, Nat.mul_comm (2 ^ k) 2]
        conv_rhs => rw [hn]
        exact (Nat.mul_dvd_mul_iff_left (by omega)).symm

theorem le_trailingZeros {n k : Nat} (hk : k ≤ 64) : k ≤ trailingZeros n ↔ 2 ^ k ∣ n :=
  le_trailingZerosIn 64 n k hk

end Word
