import Zeronix.Lib.Asm
import Mathlib.Tactic.Common

/-!
# How an interrupt finds its handler

The descriptors of x86-64 as the CPU reads them, and what it does with them: `lgdt`, `ltr` and
`lidt` load the registers that say where the tables are, and an interrupt goes through the gate
of its vector to a stack that the gate or the task state segment gives.

The tables are words in memory.  An interrupt that cannot be delivered is `none`.  `deliver_spec`
says what one that is delivered leaves for its handler.
-/

/-! ### Fields in memory -/

namespace Memory

/-- The bytes stand in memory from `a` on. -/
def Holds (m : Memory) (a : Nat) (bytes : List UInt8) : Prop :=
  ∀ k < bytes.length, m.bytes (a + k) = bytes.getD k 0

/-- `n` bytes of a number, lowest first. -/
def leBytes : Nat → Nat → List UInt8
  | 0, _ => []
  | n + 1, v => UInt8.ofNat v :: leBytes n (v / 256)

theorem length_leBytes (n v : Nat) : (leBytes n v).length = n := by
  induction n generalizing v with
  | zero => rfl
  | succ n ih => rw [leBytes, List.length_cons, ih]

theorem holds_copy (m : Memory) (a : Nat) (bytes : List UInt8) :
    (m.copy a bytes).Holds a bytes := by
  intro k hk
  show (if a ≤ a + k ∧ a + k < a + bytes.length then _ else _) = _
  rw [if_pos ⟨by omega, by omega⟩, Nat.add_sub_cancel_left]

theorem bytes_copy {m : Memory} {a x : Nat} {bytes : List UInt8}
    (h : x < a ∨ a + bytes.length ≤ x) : (m.copy a bytes).bytes x = m.bytes x :=
  if_neg (by omega)

theorem Holds.congr {m m' : Memory} {a : Nat} {bytes : List UInt8} (h : m.Holds a bytes)
    (hm : ∀ x, a ≤ x → x < a + bytes.length → m'.bytes x = m.bytes x) : m'.Holds a bytes := by
  intro k hk
  rw [hm _ (by omega) (by omega), h k hk]

theorem holds_append {m : Memory} {a : Nat} {l l' : List UInt8} :
    m.Holds a (l ++ l') ↔ m.Holds a l ∧ m.Holds (a + l.length) l' := by
  constructor
  · intro h
    refine ⟨fun k hk => ?_, fun k hk => ?_⟩
    · rw [h k (by rw [List.length_append]; omega), List.getD_append _ _ _ _ hk]
    · rw [Nat.add_assoc, h _ (by rw [List.length_append]; omega),
        List.getD_append_right _ _ _ _ (by omega), Nat.add_sub_cancel_left]
  · rintro ⟨h, h'⟩ k hk
    rw [List.length_append] at hk
    rcases Nat.lt_or_ge k l.length with hlt | hge
    · rw [h k hlt, List.getD_append _ _ _ _ hlt]
    · rw [List.getD_append_right _ _ _ _ hge, ← h' _ (by omega)]
      congr 1
      omega

theorem holds_cons {m : Memory} {a : Nat} {b : UInt8} {l : List UInt8} :
    m.Holds a (b :: l) ↔ m.bytes a = b ∧ m.Holds (a + 1) l := by
  rw [← List.singleton_append, holds_append]
  refine and_congr ⟨fun h => h 0 (by simp), fun h k hk => ?_⟩ Iff.rfl
  obtain rfl : k = 0 := by simpa using hk
  exact h

/-- Bytes that hold a number spell it. -/
theorem Holds.readLE {m : Memory} {a n v : Nat} (h : m.Holds a (leBytes n v)) :
    Memory.readLE m.bytes a n = v % 256 ^ n := by
  induction n generalizing a v with
  | zero => rw [Memory.readLE, pow_zero, Nat.mod_one]
  | succ n ih =>
    obtain ⟨hb, hrest⟩ := holds_cons.mp h
    have hmod : v % 256 ^ (n + 1) = v % 256 + 256 * (v / 256 % 256 ^ n) := by
      rw [pow_succ', Nat.mod_mul]
    rw [Memory.readLE, hb, ih hrest, UInt8.toNat_ofNat', hmod]

/-- Rows of a table that are written one after the other. -/
theorem holds_rows (m : Memory) (a w n : Nat) (row : Nat → List UInt8)
    (hw : ∀ k, (row k).length = w) :
    (∀ k < n, ((List.range n).foldl (fun m k => m.copy (a + w * k) (row k)) m).Holds (a + w * k)
      (row k)) ∧
    ∀ x, x < a ∨ a + w * n ≤ x →
      ((List.range n).foldl (fun m k => m.copy (a + w * k) (row k)) m).bytes x = m.bytes x := by
  induction n with
  | zero => exact ⟨fun k hk => absurd hk (Nat.not_lt_zero k), fun x _ => rfl⟩
  | succ n ih =>
    obtain ⟨hrows, hrest⟩ := ih
    have hlen := hw n
    have hsucc : w * (n + 1) = w * n + w := Nat.mul_succ w n
    simp only [List.range_succ, List.foldl_append, List.foldl_cons, List.foldl_nil]
    refine ⟨fun k hk => ?_, fun x hx => ?_⟩
    · rcases Nat.lt_succ_iff_lt_or_eq.mp hk with hlt | rfl
      · have hle : w * k + w ≤ w * n := Nat.mul_le_mul_left w hlt
        have hlenk := hw k
        exact (hrows k hlt).congr fun x _ hx => bytes_copy (.inl (by omega))
      · exact holds_copy _ _ _
    · rw [bytes_copy (by omega), hrest x (by omega)]

/-- A number is its low bytes and those behind them. -/
theorem readLE_add (f : Nat → UInt8) (a n k : Nat) :
    readLE f a (n + k) = readLE f a n + 256 ^ n * readLE f (a + n) k := by
  induction n generalizing a with
  | zero => rw [Nat.zero_add, readLE, pow_zero, Nat.one_mul, Nat.zero_add, Nat.add_zero]
  | succ n ih =>
    rw [Nat.add_right_comm, readLE, readLE, ih, pow_succ, Nat.add_assoc a 1 n, Nat.add_comm 1 n]
    ring

end Memory

namespace Zeronix

/-! ### Descriptors -/

/-- An entry of the interrupt descriptor table. -/
structure Gate where
  offset : Nat
  selector : Nat
  ist : Nat
  type : Nat
  dpl : Nat
  present : Nat
  deriving DecidableEq, Repr

/-- A gate in its two words. -/
def Gate.ofWords (lo hi : Nat) : Gate where
  offset := lo % 2 ^ 16 + 2 ^ 16 * (lo / 2 ^ 48) + 2 ^ 32 * (hi % 2 ^ 32)
  selector := lo / 2 ^ 16 % 2 ^ 16
  ist := lo / 2 ^ 32 % 8
  type := lo / 2 ^ 40 % 32
  dpl := lo / 2 ^ 45 % 4
  present := lo / 2 ^ 47 % 2

/-- An entry of the global descriptor table. -/
structure Segment where
  base : Nat
  limit : Nat
  type : Nat
  dpl : Nat
  present : Nat
  flags : Nat
  deriving DecidableEq, Repr

/-- A segment in one word. -/
def Segment.ofWord (w : Nat) : Segment where
  base := w / 2 ^ 16 % 2 ^ 24 + 2 ^ 24 * (w / 2 ^ 56)
  limit := w % 2 ^ 16 + 2 ^ 16 * (w / 2 ^ 48 % 16)
  type := w / 2 ^ 40 % 32
  dpl := w / 2 ^ 45 % 4
  present := w / 2 ^ 47 % 2
  flags := w / 2 ^ 52 % 16

/-- A descriptor put together from its fields, without flags. -/
theorem Segment.ofWord_fields {limitLow baseLow access limitHigh baseHigh : Nat}
    (h₁ : limitLow < 2 ^ 16) (h₂ : baseLow < 2 ^ 24) (h₃ : access < 2 ^ 8)
    (h₄ : limitHigh < 2 ^ 4) :
    Segment.ofWord (limitLow + baseLow * 2 ^ 16 + access * 2 ^ 40 + limitHigh * 2 ^ 48 +
        baseHigh * 2 ^ 56) =
      { base := baseLow + 2 ^ 24 * baseHigh, limit := limitLow + 2 ^ 16 * limitHigh
        type := access % 32, dpl := access / 32 % 4, present := access / 128, flags := 0 } := by
  simp only [Segment.ofWord, Segment.mk.injEq]
  refine ⟨?_, ?_, ?_, ?_, ?_, ?_⟩ <;> omega

/-- 64-bit code: executable, with the flag `L` and without `D`. -/
def Segment.Code64 (s : Segment) : Prop :=
  s.present = 1 ∧ s.type / 8 = 3 ∧ s.flags / 2 % 4 = 1

/-- Data that can be written. -/
def Segment.Writable (s : Segment) : Prop :=
  s.present = 1 ∧ s.type / 8 = 2 ∧ s.type / 2 % 2 = 1

instance (s : Segment) : Decidable s.Code64 := inferInstanceAs (Decidable (_ ∧ _))
instance (s : Segment) : Decidable s.Writable := inferInstanceAs (Decidable (_ ∧ _))

/-- The type of a task state segment that is not in use. -/
def TSS_AVAILABLE : Nat := 9

/-! ### The registers for the tables -/

structure TableRegs where
  gdtBase : Nat
  gdtLimit : Nat
  idtBase : Nat
  idtLimit : Nat
  tssBase : Nat
  tssLimit : Nat
  deriving DecidableEq, Repr

namespace TableRegs

def lgdt (r : TableRegs) (limit base : Nat) : TableRegs :=
  { r with gdtBase := base, gdtLimit := limit }

def lidt (r : TableRegs) (limit base : Nat) : TableRegs :=
  { r with idtBase := base, idtLimit := limit }

/-- Where the descriptor of a selector is. -/
def descriptorAt (r : TableRegs) (selector : Nat) : Nat := r.gdtBase + selector / 8 * 8

def segment (r : TableRegs) (m : Memory) (selector : Nat) : Option Segment :=
  if selector / 8 * 8 + 7 ≤ r.gdtLimit then some (.ofWord (m.load (r.descriptorAt selector)))
  else none

/-- `ltr` keeps the base and the limit, and marks the segment as busy.  The base has 32 more bits in
the next word. -/
def ltr (r : TableRegs) (m : Memory) (selector : Nat) : Option (TableRegs × Memory) :=
  if selector / 8 * 8 + 15 ≤ r.gdtLimit then
    let lo := m.load (r.descriptorAt selector)
    let hi := m.load (r.descriptorAt selector + 8)
    let s := Segment.ofWord lo
    if s.present = 1 ∧ s.type = TSS_AVAILABLE then
      some ({ r with tssBase := s.base + 2 ^ 32 * (hi % 2 ^ 32), tssLimit := s.limit },
        m.store (r.descriptorAt selector) (lo + 2 ^ 41))
    else none
  else none

def gate (r : TableRegs) (m : Memory) (vector : Nat) : Option Gate :=
  if 16 * vector + 15 ≤ r.idtLimit then
    some (.ofWords (m.load (r.idtBase + 16 * vector)) (m.load (r.idtBase + 16 * vector + 8)))
  else none

/-- `RSP0` of the task state segment. -/
def rsp0At (r : TableRegs) : Nat := r.tssBase + 4

/-- `IST1` to `IST7`. -/
def istAt (r : TableRegs) (ist : Nat) : Nat := r.tssBase + 28 + 8 * ist

/-- The stack pointer that an interrupt starts with. -/
def stackFor (r : TableRegs) (c : Core) (ist : Nat) : UInt64 :=
  if ist ≠ 0 then .ofNat (c.mem.load (r.istAt ist))
  else if c.userMode then .ofNat (c.mem.load r.rsp0At)
  else c.rsp

/-- Where it puts its frame. -/
def baseFor (r : TableRegs) (c : Core) (ist : Nat) : UInt64 := r.stackFor c ist &&& ~~~15

/-- The exceptions for which the CPU pushes an error code. -/
def errorCodes : List Nat := [8, 10, 11, 12, 13, 14, 17, 21, 29, 30]

/-- **An interrupt** through an interrupt gate, with an error code or without one.  The flags
`TF`, `IF`, `NT`, `RF` and `VM` are cleared. -/
def deliver (r : TableRegs) (c : Core) (vector : Nat) (error : Option UInt64) : Option Core :=
  match r.gate c.mem vector with
  | none => none
  | some g =>
    match r.segment c.mem g.selector with
    | none => none
    | some s =>
      if g.present = 1 ∧ g.type = 14 ∧ s.Code64 ∧ s.dpl = 0 then
        some { { c with rsp := r.baseFor c g.ist }.pushWords
          ([c.ss, c.rsp, c.rflags, c.cs, c.rip] ++ error.toList) with
            rip := .ofNat g.offset
            cs := .ofNat (g.selector / 4 * 4)
            rflags := c.rflags &&& ~~~0x34300
            ss := if c.userMode then 0 else c.ss }
      else none

end TableRegs

/-- The words of an interrupt on the stack. -/
def Core.interruptWords (c : Core) (error : Option UInt64) : List UInt64 :=
  error.toList ++ c.frame.iretWords

theorem Core.interruptWords_length (c : Core) (error : Option UInt64) :
    40 ≤ 8 * (c.interruptWords error).length ∧ 8 * (c.interruptWords error).length ≤ 48 := by
  cases error with
  | none => exact ⟨Nat.le_refl 40, Nat.le_of_ble_eq_true rfl⟩
  | some e => exact ⟨Nat.le_of_ble_eq_true rfl, Nat.le_refl 48⟩

/-- **An interrupt that is delivered** goes to the handler of its gate, with the words of the frame
below the base and everything else in memory as it was. -/
theorem TableRegs.deliver_spec {r : TableRegs} {c : Core} {vector : Nat} {g : Gate} {s : Segment}
    (error : Option UInt64) (hgate : r.gate c.mem vector = some g)
    (hseg : r.segment c.mem g.selector = some s)
    (hok : g.present = 1 ∧ g.type = 14 ∧ s.Code64 ∧ s.dpl = 0)
    (hroom : 48 ≤ (r.baseFor c g.ist).toNat) :
    ∃ c', r.deliver c vector error = some c' ∧ c'.rip = .ofNat g.offset ∧
      c'.cs = .ofNat (g.selector / 4 * 4) ∧ c'.rflags = c.rflags &&& ~~~0x34300 ∧
      c'.gpr = c.gpr ∧ c'.rsp0 = c.rsp0 ∧
      c'.rsp.toNat + 8 * (c.interruptWords error).length = (r.baseFor c g.ist).toNat ∧
      Spells c'.mem c'.rsp.toNat (c.interruptWords error) ∧
      ∀ x, x < c'.rsp.toNat ∨ (r.baseFor c g.ist).toNat ≤ x → c'.mem.bytes x = c.mem.bytes x := by
  have hlen := c.interruptWords_length error
  have hrev : ([c.ss, c.rsp, c.rflags, c.cs, c.rip] ++ error.toList).reverse =
      c.interruptWords error := by
    cases error with
    | none => rfl
    | some e => rfl
  have hback : 8 * ([c.ss, c.rsp, c.rflags, c.cs, c.rip] ++ error.toList).length =
      8 * (c.interruptWords error).length := by
    rw [← hrev, List.length_reverse]
  have hfits : 8 * ([c.ss, c.rsp, c.rflags, c.cs, c.rip] ++ error.toList).length ≤
      (r.baseFor c g.ist).toNat := by
    rw [hback]
    omega
  have hnone : Spells c.mem (r.baseFor c g.ist).toNat [] := trivial
  have hspells := spells_pushWords (c := { c with rsp := r.baseFor c g.ist })
    ([c.ss, c.rsp, c.rflags, c.cs, c.rip] ++ error.toList) hfits hnone
  have hrsp := pushWords_rsp (c := { c with rsp := r.baseFor c g.ist })
    ([c.ss, c.rsp, c.rflags, c.cs, c.rip] ++ error.toList) hfits
  have hbytes := fun x => pushWords_bytes (c := { c with rsp := r.baseFor c g.ist })
    ([c.ss, c.rsp, c.rflags, c.cs, c.rip] ++ error.toList) (x := x) hfits
  have hrest := pushWords_rest { c with rsp := r.baseFor c g.ist }
    ([c.ss, c.rsp, c.rflags, c.cs, c.rip] ++ error.toList)
  rw [hrev, List.append_nil] at hspells
  rw [hback] at hrsp
  have hdeliver : r.deliver c vector error =
      some { { c with rsp := r.baseFor c g.ist }.pushWords
        ([c.ss, c.rsp, c.rflags, c.cs, c.rip] ++ error.toList) with
          rip := .ofNat g.offset
          cs := .ofNat (g.selector / 4 * 4)
          rflags := c.rflags &&& ~~~0x34300
          ss := if c.userMode then 0 else c.ss } := by
    simp only [deliver, hgate, hseg]
    exact if_pos hok
  have hgpr := congrArg Core.gpr hrest
  have hrsp0 := congrArg Core.rsp0 hrest
  refine ⟨_, hdeliver, rfl, rfl, rfl, hgpr, hrsp0, ?_, hspells, fun x hx => hbytes x ?_⟩
  · show (({ c with rsp := r.baseFor c g.ist } : Core).pushWords _).rsp.toNat + _ = _
    rw [hrsp]
    show (r.baseFor c g.ist).toNat - _ + _ = _
    omega
  · show x < (r.baseFor c g.ist).toNat - _ ∨ _
    have hx' : x < (({ c with rsp := r.baseFor c g.ist } : Core).pushWords _).rsp.toNat ∨ _ := hx
    rw [hrsp] at hx'
    rw [hback]
    exact hx'

theorem Spells.load {m : Memory} {a : Nat} {ws : List UInt64} (h : Spells m a ws) {i : Nat}
    (hi : i < ws.length) : m.load (a + 8 * i) = (ws[i]).toNat := by
  induction ws generalizing a i with
  | nil => exact absurd hi (Nat.not_lt_zero i)
  | cons w ws ih =>
    obtain ⟨hw, hrest⟩ := h
    cases i with
    | zero => exact hw
    | succ i =>
      rw [show a + 8 * (i + 1) = a + 8 + 8 * i by omega, List.getElem_cons_succ]
      exact ih hrest (Nat.lt_of_succ_lt_succ hi)

/-! ### Fields of a word -/

/-- A field put above the bits that are there. -/
theorem toNat_or_shiftLeft {x y k : UInt64} {n : Nat} (hk : k.toNat = n) (hn : n < 64)
    (hx : x.toNat < 2 ^ n) (hy : y.toNat * 2 ^ n < 2 ^ 64) :
    (x ||| y <<< k).toNat = x.toNat + y.toNat * 2 ^ n := by
  have hor := Nat.two_pow_add_eq_or_of_lt hx y.toNat
  rw [UInt64.toNat_or, UInt64.toNat_shiftLeft, hk, Nat.mod_eq_of_lt hn, Nat.shiftLeft_eq,
    Nat.mod_eq_of_lt hy, Nat.lor_comm, Nat.mul_comm, ← hor, Nat.add_comm]

/-- A descriptor put together from its fields. -/
theorem toNat_fields {limitLow baseLow access limitHigh baseHigh : UInt64}
    (h₁ : limitLow.toNat < 2 ^ 16) (h₂ : baseLow.toNat < 2 ^ 24) (h₃ : access.toNat < 2 ^ 8)
    (h₄ : limitHigh.toNat < 2 ^ 4) (h₅ : baseHigh.toNat < 2 ^ 8) :
    (limitLow ||| baseLow <<< 16 ||| access <<< 40 ||| limitHigh <<< 48 ||| baseHigh <<< 56).toNat =
      limitLow.toNat + baseLow.toNat * 2 ^ 16 + access.toNat * 2 ^ 40 + limitHigh.toNat * 2 ^ 48 +
        baseHigh.toNat * 2 ^ 56 := by
  -- each field is above all those before it
  have hbase := toNat_or_shiftLeft (x := limitLow) (y := baseLow) (k := 16) (n := 16) rfl
    (by omega) (by omega) (by omega)
  have haccess := toNat_or_shiftLeft (x := limitLow ||| baseLow <<< 16) (y := access) (k := 40)
    (n := 40) rfl (by omega) (by omega) (by omega)
  have hlimit := toNat_or_shiftLeft (x := limitLow ||| baseLow <<< 16 ||| access <<< 40)
    (y := limitHigh) (k := 48) (n := 48) rfl (by omega) (by omega) (by omega)
  have hhigh := toNat_or_shiftLeft
    (x := limitLow ||| baseLow <<< 16 ||| access <<< 40 ||| limitHigh <<< 48) (y := baseHigh)
    (k := 56) (n := 56) rfl (by omega) (by omega) (by omega)
  rw [hhigh, hlimit, haccess, hbase]

/-- A field taken from a word. -/
theorem toNat_shiftRight_and {x k m : UInt64} {n w : Nat} (hk : k.toNat = n) (hn : n < 64)
    (hm : m.toNat = 2 ^ w - 1) : (x >>> k &&& m).toNat = x.toNat / 2 ^ n % 2 ^ w := by
  rw [UInt64.toNat_and, UInt64.toNat_shiftRight, hk, Nat.mod_eq_of_lt hn, hm,
    Nat.shiftRight_eq_div_pow, Nat.and_two_pow_sub_one_eq_mod]

end Zeronix
