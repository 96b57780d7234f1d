import Zeronix.Lib.Memory
import Zeronix.Lib.Word

/-!
# Page table entries

The first half of `src/mem/page.rs`: the flags of an entry and the entry itself, a word with
the frame in bits 12 to 51.  A set of flags is built from the six named ones only, as the
`bitflags` type of the source is.
-/

namespace Zeronix

/-- The bits of an entry that hold the frame, `0x000F_FFFF_FFFF_F000`. -/
def ADDR_MASK : Nat := 0x000FFFFFFFFFF000

/-! ### Flags -/

structure EntryFlags where
  present : Bool := false
  writable : Bool := false
  user : Bool := false
  huge : Bool := false
  global : Bool := false
  nx : Bool := false
  deriving DecidableEq, Repr

namespace EntryFlags

def PRESENT : EntryFlags := { present := true }
def WRITABLE : EntryFlags := { writable := true }
def USER : EntryFlags := { user := true }
def GLOBAL : EntryFlags := { global := true }
def NX : EntryFlags := { nx := true }

/-- The union of two sets of flags. -/
def union (f g : EntryFlags) : EntryFlags where
  present := f.present || g.present
  writable := f.writable || g.writable
  user := f.user || g.user
  huge := f.huge || g.huge
  global := f.global || g.global
  nx := f.nx || g.nx

instance : OrOp EntryFlags := ⟨union⟩

def bits (f : EntryFlags) : Nat :=
  f.present.toNat <<< 0 ||| f.writable.toNat <<< 1 ||| f.user.toNat <<< 2 |||
    f.huge.toNat <<< 7 ||| f.global.toNat <<< 8 ||| f.nx.toNat <<< 63

/-- `from_bits_truncate`: the named bits of a word. -/
def fromBitsTruncate (w : Nat) : EntryFlags where
  present := w.testBit 0
  writable := w.testBit 1
  user := w.testBit 2
  huge := w.testBit 7
  global := w.testBit 8
  nx := w.testBit 63

@[simp] theorem or_present (f g : EntryFlags) : (f ||| g).present = (f.present || g.present) := rfl
@[simp] theorem or_writable (f g : EntryFlags) :
    (f ||| g).writable = (f.writable || g.writable) := rfl
@[simp] theorem or_user (f g : EntryFlags) : (f ||| g).user = (f.user || g.user) := rfl
@[simp] theorem or_huge (f g : EntryFlags) : (f ||| g).huge = (f.huge || g.huge) := rfl
@[simp] theorem or_nx (f g : EntryFlags) : (f ||| g).nx = (f.nx || g.nx) := rfl

/-- The bits spell the flags. -/
theorem fromBitsTruncate_bits (f : EntryFlags) : fromBitsTruncate f.bits = f := by
  rcases f with ⟨_ | _, _ | _, _ | _, _ | _, _ | _, _ | _⟩ <;> rfl

theorem bits_lt (f : EntryFlags) : f.bits < 2 ^ 64 := by
  rcases f with ⟨_ | _, _ | _, _ | _, _ | _, _ | _, _ | _⟩ <;> decide

/-- No flag lies in the bits of the frame. -/
theorem bits_and_mask (f : EntryFlags) : f.bits &&& ADDR_MASK = 0 := by
  rcases f with ⟨_ | _, _ | _, _ | _, _ | _, _ | _, _ | _⟩ <;> rfl

theorem fromBitsTruncate_or (v w : Nat) :
    fromBitsTruncate (v ||| w) = fromBitsTruncate v ||| fromBitsTruncate w := by
  simp only [fromBitsTruncate, Nat.testBit_or]
  rfl

/-- A frame has no flags. -/
theorem fromBitsTruncate_and_mask (w : Nat) : fromBitsTruncate (w &&& ADDR_MASK) = {} := by
  have h : ∀ k, ADDR_MASK.testBit k = false → (w &&& ADDR_MASK).testBit k = false := by
    intro k hk
    rw [Nat.testBit_and, hk, Bool.and_false]
  rw [fromBitsTruncate, h 0 rfl, h 1 rfl, h 2 rfl, h 7 rfl, h 8 rfl, h 63 rfl]

end EntryFlags

/-! ### Entries -/

namespace PageTableEntry

/-- The word `set_addr` writes. -/
def setAddr (phys : Nat) (flags : EntryFlags) : Nat := (phys &&& ADDR_MASK) ||| flags.bits

def addr (entry : Nat) : Nat := entry &&& ADDR_MASK

def flags (entry : Nat) : EntryFlags := EntryFlags.fromBitsTruncate entry

def addFlags (entry : Nat) (flags : EntryFlags) : Nat := entry ||| flags.bits

def isPresent (entry : Nat) : Bool := entry &&& 1 != 0

theorem isPresent_eq (entry : Nat) : isPresent entry = (flags entry).present := by
  rw [isPresent, flags, EntryFlags.fromBitsTruncate, Nat.testBit, Nat.shiftRight_zero, Nat.and_comm]

@[simp] theorem flags_setAddr (phys : Nat) (f : EntryFlags) : flags (setAddr phys f) = f := by
  rw [flags, setAddr, EntryFlags.fromBitsTruncate_or, EntryFlags.fromBitsTruncate_and_mask,
    EntryFlags.fromBitsTruncate_bits]
  rfl

@[simp] theorem flags_addFlags (entry : Nat) (f : EntryFlags) :
    flags (addFlags entry f) = flags entry ||| f := by
  rw [flags, addFlags, EntryFlags.fromBitsTruncate_or, EntryFlags.fromBitsTruncate_bits]
  rfl

@[simp] theorem addr_setAddr (phys : Nat) (f : EntryFlags) :
    addr (setAddr phys f) = phys &&& ADDR_MASK := by
  rw [addr, setAddr, Nat.and_or_distrib_right, f.bits_and_mask, Nat.and_assoc, Nat.and_self,
    Nat.or_zero]

@[simp] theorem addr_addFlags (entry : Nat) (f : EntryFlags) : addr (addFlags entry f) = addr entry := by
  rw [addr, addFlags, Nat.and_or_distrib_right, f.bits_and_mask, Nat.or_zero, addr]

/-- Below `2 ^ 52` the mask keeps the whole frame. -/
theorem and_mask_eq {phys : Nat} (h : phys < 2 ^ 52) : phys &&& ADDR_MASK = phys / 4096 * 4096 := by
  apply Nat.eq_of_testBit_eq
  intro i
  rw [Nat.testBit_and, show ADDR_MASK = 2 ^ 12 * (2 ^ 40 - 1) from rfl, Nat.testBit_two_pow_mul,
    Nat.testBit_two_pow_sub_one, show phys / 4096 * 4096 = 2 ^ 12 * (phys / 2 ^ 12) from
      Nat.mul_comm _ _, Nat.testBit_two_pow_mul, Nat.testBit_div_two_pow]
  by_cases h12 : 12 ≤ i
  · rw [Nat.sub_add_cancel h12]
    by_cases h52 : i < 52
    · simp [h12, show i - 12 < 40 by omega]
    · have hz : phys.testBit i = false :=
        Nat.testBit_lt_two_pow (lt_of_lt_of_le h (Nat.pow_le_pow_right (by omega) (by omega)))
      simp [hz]
  · simp [h12]

theorem setAddr_lt (phys : Nat) (f : EntryFlags) : setAddr phys f < 2 ^ 64 :=
  Nat.or_lt_two_pow (lt_of_le_of_lt Nat.and_le_right (by decide)) f.bits_lt

theorem addFlags_lt {entry : Nat} (h : entry < 2 ^ 64) (f : EntryFlags) : addFlags entry f < 2 ^ 64 :=
  Nat.or_lt_two_pow h f.bits_lt

end PageTableEntry

end Zeronix
