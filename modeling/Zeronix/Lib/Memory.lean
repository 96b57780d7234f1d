import Mathlib.Data.Nat.ModEq
import Mathlib.Tactic.Ring

/-!
# Byte memory with word access

A memory is a function from addresses to bytes, read and written here in little-endian
words of eight bytes.  It keeps the addresses of the words that were stored, so that one
can say not only what a program leaves behind but also where it wrote.  Ranges of bytes that
are set or copied at once are not part of that record.

`Memory.Wrote W m m'` says that `m'` is reached from `m` by stores at addresses of `W`
only.  It composes (`Wrote.trans`) and frames: a word that no address of `W` overlaps
reads as before (`Wrote.load_eq`).
-/

structure Memory where
  bytes : Nat → UInt8
  stores : List Nat

namespace Memory

/-- The number the `n` bytes from `a` on spell, lowest byte first. -/
def readLE (f : Nat → UInt8) : Nat → Nat → Nat
  | _, 0 => 0
  | a, n + 1 => (f a).toNat + 256 * readLE f (a + 1) n

/-- The word at `a`. -/
def load (m : Memory) (a : Nat) : Nat := readLE m.bytes a 8

/-- Store the low eight bytes of `v` at `a`. -/
def store (m : Memory) (a v : Nat) : Memory where
  bytes := fun x => if a ≤ x ∧ x < a + 8 then UInt8.ofNat (v / 256 ^ (x - a)) else m.bytes x
  stores := a :: m.stores

/-- Set the `n` bytes from `a` on to `b`. -/
def fill (m : Memory) (a n : Nat) (b : UInt8) : Memory :=
  { m with bytes := fun x => if a ≤ x ∧ x < a + n then b else m.bytes x }

/-- Copy a list of bytes to the addresses from `a` on. -/
def copy (m : Memory) (a : Nat) (l : List UInt8) : Memory :=
  { m with bytes := fun x => if a ≤ x ∧ x < a + l.length then l.getD (x - a) 0 else m.bytes x }

/-- The byte at `x` is not one of the word's at `a`. -/
def Off (x a : Nat) : Prop := x < a ∨ a + 8 ≤ x

/-- The words at `a` and `b` share no byte. -/
def Apart (a b : Nat) : Prop := a + 8 ≤ b ∨ b + 8 ≤ a

theorem Apart.symm {a b : Nat} (h : Apart a b) : Apart b a := Or.symm h

theorem readLE_congr {f g : Nat → UInt8} {a n : Nat} (h : ∀ x, a ≤ x → x < a + n → g x = f x) :
    readLE g a n = readLE f a n := by
  induction n generalizing a with
  | zero => rfl
  | succ n ih =>
    rw [readLE, readLE, h a (le_refl a) (by omega),
      ih fun x h1 h2 => h x (by omega) (by omega)]

theorem readLE_zero {f : Nat → UInt8} {a n : Nat} (h : ∀ x, a ≤ x → x < a + n → f x = 0) :
    readLE f a n = 0 := by
  induction n generalizing a with
  | zero => rfl
  | succ n ih =>
    rw [readLE, h a (le_refl a) (by omega), ih fun x h1 h2 => h x (by omega) (by omega)]
    rfl

theorem readLE_lt (f : Nat → UInt8) (a n : Nat) : readLE f a n < 256 ^ n := by
  induction n generalizing a with
  | zero => simp [readLE]
  | succ n ih =>
    have h1 := (f a).toNat_lt
    have h2 := ih (a + 1)
    rw [readLE, pow_succ]
    omega

theorem load_lt (m : Memory) (a : Nat) : m.load a < 2 ^ 64 := readLE_lt m.bytes a 8

theorem readLE_store (m : Memory) (a v : Nat) :
    ∀ n i, i + n ≤ 8 → readLE (m.store a v).bytes (a + i) n = v / 256 ^ i % 256 ^ n := by
  intro n
  induction n with
  | zero => simp [readLE, Nat.mod_one]
  | succ n ih =>
    intro i hi
    have hbyte : ((m.store a v).bytes (a + i)).toNat = v / 256 ^ i % 256 := by
      simp only [store]
      rw [if_pos ⟨by omega, by omega⟩, Nat.add_sub_cancel_left]
      exact UInt8.toNat_ofNat'
    rw [readLE, hbyte, Nat.add_assoc, ih (i + 1) (by omega), pow_succ 256 i,
      ← Nat.div_div_eq_div_mul, pow_succ, Nat.mul_comm (256 ^ n) 256, Nat.mod_mul]

/-- A stored word reads back. -/
theorem load_store_self (m : Memory) (a : Nat) {v : Nat} (hv : v < 2 ^ 64) :
    (m.store a v).load a = v := by
  have h := readLE_store m a v 8 0 (le_refl 8)
  rw [Nat.add_zero, pow_zero, Nat.div_one] at h
  rw [load, h]
  exact Nat.mod_eq_of_lt hv

theorem load_store_apart (m : Memory) {a b : Nat} (v : Nat) (h : Apart a b) :
    (m.store a v).load b = m.load b := by
  refine readLE_congr fun x h1 h2 => ?_
  simp only [store]
  rw [if_neg]
  rcases h with h | h <;> omega

/-- The bytes behind the first ones of a word. -/
theorem readLE_div (f : Nat → UInt8) (a n i : Nat) :
    readLE f a (i + n) / 256 ^ i = readLE f (a + i) n := by
  induction i generalizing a with
  | zero => rw [Nat.zero_add, pow_zero, Nat.div_one, Nat.add_zero]
  | succ i ih =>
    have hbyte := (f a).toNat_lt
    have hshift : readLE f a (i + n + 1) / 256 = readLE f (a + 1) (i + n) := by
      rw [readLE]
      omega
    rw [Nat.add_right_comm, pow_succ', ← Nat.div_div_eq_div_mul, hshift, ih]
    congr 1
    omega

/-- One byte of a word. -/
theorem byte_load (m : Memory) (a : Nat) {i : Nat} (hi : i < 8) :
    UInt8.ofNat (m.load a / 256 ^ i) = m.bytes (a + i) := by
  have hword : m.load a / 256 ^ i = readLE m.bytes (a + i) (7 - i + 1) := by
    rw [← readLE_div, load]
    congr 2
    omega
  rw [hword, readLE, UInt8.ofNat_add, UInt8.ofNat_mul, UInt8.ofNat_toNat]
  simp

/-- A word stored where it reads already changes no byte. -/
theorem bytes_store_of_load {m : Memory} {a v : Nat} (h : m.load a = v) :
    (m.store a v).bytes = m.bytes := by
  funext x
  simp only [store]
  split
  · rename_i hx
    have hbyte := byte_load m a (i := x - a) (by omega)
    rw [Nat.add_sub_cancel' hx.1, h] at hbyte
    exact hbyte
  · rfl

theorem load_of_bytes {m m' : Memory} (h : m'.bytes = m.bytes) (a : Nat) : m'.load a = m.load a := by
  rw [load, load, h]

/-! ### Writing ranges of bytes -/

/-- A word apart from a range of bytes. -/
theorem load_fill_apart (m : Memory) {a n b : Nat} (v : UInt8) (h : a + n ≤ b ∨ b + 8 ≤ a) :
    (m.fill a n v).load b = m.load b := by
  refine readLE_congr fun x h1 h2 => ?_
  simp only [fill]
  rw [if_neg]
  omega

/-- A word of a range that was cleared is zero. -/
theorem load_fill_zero (m : Memory) {a n b : Nat} (h1 : a ≤ b) (h2 : b + 8 ≤ a + n) :
    (m.fill a n 0).load b = 0 := by
  refine readLE_zero fun x hx1 hx2 => ?_
  simp only [fill]
  rw [if_pos ⟨by omega, by omega⟩]

/-! ### Where a program wrote -/

/-- From `m` to `m'` by stores at addresses in `W`. -/
def Wrote (W : Nat → Prop) (m m' : Memory) : Prop :=
  ∃ new, m'.stores = new ++ m.stores ∧ (∀ a ∈ new, W a) ∧
    ∀ x, (∀ a ∈ new, Off x a) → m'.bytes x = m.bytes x

theorem Wrote.refl (W : Nat → Prop) (m : Memory) : Wrote W m m :=
  ⟨[], rfl, by simp, fun _ _ => rfl⟩

theorem wrote_store {W : Nat → Prop} (m : Memory) {a : Nat} (v : Nat) (h : W a) :
    Wrote W m (m.store a v) := by
  refine ⟨[a], rfl, by simpa using h, fun x hx => ?_⟩
  have hoff := hx a (by simp)
  simp only [store]
  rw [if_neg]
  rcases hoff with h | h <;> omega

theorem Wrote.trans {W : Nat → Prop} {m₁ m₂ m₃ : Memory} (h : Wrote W m₁ m₂) (h' : Wrote W m₂ m₃) :
    Wrote W m₁ m₃ := by
  obtain ⟨new, hs, hW, hb⟩ := h
  obtain ⟨new', hs', hW', hb'⟩ := h'
  refine ⟨new' ++ new, by rw [hs', hs, List.append_assoc], ?_, fun x hx => ?_⟩
  · intro a ha
    rcases List.mem_append.mp ha with ha | ha
    · exact hW' a ha
    · exact hW a ha
  · rw [hb' x fun a ha => hx a (by simp [ha]), hb x fun a ha => hx a (by simp [ha])]

theorem Wrote.mono {W W' : Nat → Prop} {m m' : Memory} (h : Wrote W m m') (hW : ∀ a, W a → W' a) :
    Wrote W' m m' := by
  obtain ⟨new, hs, hn, hb⟩ := h
  exact ⟨new, hs, fun a ha => hW a (hn a ha), hb⟩

/-- One more store. -/
theorem Wrote.store {W : Nat → Prop} {m m' : Memory} (h : Wrote W m m') {a : Nat} (v : Nat)
    (ha : W a) : Wrote W m (m'.store a v) :=
  h.trans (wrote_store m' v ha)

/-- A byte off every address of `W` is as before. -/
theorem Wrote.bytes_eq {W : Nat → Prop} {m m' : Memory} (h : Wrote W m m') {x : Nat}
    (hx : ∀ a, W a → Off x a) : m'.bytes x = m.bytes x := by
  obtain ⟨new, _, hn, hb⟩ := h
  exact hb x fun a ha => hx a (hn a ha)

/-- A word apart from every address of `W` reads as before. -/
theorem Wrote.load_eq {W : Nat → Prop} {m m' : Memory} (h : Wrote W m m') {b : Nat}
    (hb : ∀ a, W a → Apart a b) : m'.load b = m.load b := by
  refine readLE_congr fun x h1 h2 => h.bytes_eq fun a ha => ?_
  rcases hb a ha with h | h
  · exact .inr (by omega)
  · exact .inl (by omega)

end Memory
