import Zeronix.Lib.InterruptController

/-!
# The interrupt controllers

`pic.rs`.  `pic_remap` programs both controllers from whatever state they are in, and devices may
ask for interrupts meanwhile (`picRemap_spec`).  Then the lines that may interrupt are those for
which `unmask_irq` was called (`Opened.unmaskIrq`).
-/

namespace Zeronix

namespace Pic

open Pics

def PIC_EOI : UInt8 := 0x20
def ICW1_ICW4 : UInt8 := 0x01
def ICW1_INIT : UInt8 := 0x10
def ICW4_8086 : UInt8 := 0x01
def CASCADE_IRQ : UInt8 := 2
def IRQ_BASE : UInt8 := 32
def IRQ_COUNT : UInt8 := 16

/-- A write to a port that no device has. -/
def ioWait : UInt16 × UInt8 := (0x80, 0)

def picRemap (offset1 offset2 : UInt8) : List (UInt16 × UInt8) := [
  (PIC1_COMMAND, ICW1_INIT ||| ICW1_ICW4), ioWait,
  (PIC2_COMMAND, ICW1_INIT ||| ICW1_ICW4), ioWait,
  (PIC1_DATA, offset1), ioWait,
  (PIC2_DATA, offset2), ioWait,
  (PIC1_DATA, 1 <<< CASCADE_IRQ), ioWait,
  (PIC2_DATA, 2), ioWait,
  (PIC1_DATA, ICW4_8086), ioWait,
  (PIC2_DATA, ICW4_8086), ioWait,
  (PIC1_DATA, 0xff),
  (PIC2_DATA, 0xff)]

def init : List (UInt16 × UInt8) := picRemap IRQ_BASE (IRQ_BASE + 8)

/-- The masks are not changed by devices between the reads and the writes. -/
def unmaskIrq (irq : UInt8) (p : Pics) : Pics :=
  if irq ≥ IRQ_COUNT then p
  else
    let port := if irq < 8 then PIC1_DATA else PIC2_DATA
    let bit := if irq < 8 then irq else irq - 8
    let p := p.outb port (p.inb port &&& ~~~(1 <<< bit))
    if irq ≥ 8 then p.outb PIC1_DATA (p.inb PIC1_DATA &&& ~~~(1 <<< CASCADE_IRQ)) else p

def endOfInterrupt (irq : UInt8) : List (UInt16 × UInt8) :=
  (if irq ≥ 8 then [(PIC2_COMMAND, PIC_EOI)] else []) ++ [(PIC1_COMMAND, PIC_EOI)]

/-! ### Programming -/

/-- Both controllers with the vectors of the kernel. -/
structure Programmed (p : Pics) : Prop where
  ready : p.Ready
  master : p.master.base = IRQ_BASE
  slave : p.slave.base = IRQ_BASE + 8

/-- A line may interrupt if its number is in the list.  The line of the second controller is open
when one behind it is. -/
structure Opened (p : Pics) (irqs : List UInt8) : Prop where
  master : ∀ n : Fin 8, n ≠ 2 → (p.master.masked n = false ↔ .ofNat n ∈ irqs)
  slave : ∀ n : Fin 8, p.slave.masked n = false ↔ .ofNat (8 + n) ∈ irqs
  cascade : ∀ n : Fin 8, .ofNat (8 + n) ∈ irqs → p.master.masked 2 = false

variable {p p' : Pics} {irqs : List UInt8}

/-- **Programming the controllers**, with devices that ask for interrupts meanwhile. -/
theorem init_spec (h : Outs init p p') : Programmed p' ∧ p'.Idle ∧ Opened p' [] := by
  obtain ⟨f, g, rfl⟩ := h.sameBut
  have hmask : ∀ n : Fin 8, (0xff : UInt8).toBitVec.getLsbD n = true := by decide
  have houts : p.outs init = {
      master := {
        stage := .ready, single := false, fourth := true, base := 32, cascade := 4, mode := 1
        mask := 0xff, request := fun _ => false, service := fun _ => false }
      slave := {
        stage := .ready, single := false, fourth := true, base := 40, cascade := 2, mode := 1
        mask := 0xff, request := fun _ => false, service := fun _ => false } } := rfl
  have hmode : (1 : UInt8) &&& 1 = 1 := by decide
  rw [houts]
  refine ⟨⟨⟨⟨rfl, hmode⟩, ⟨rfl, hmode⟩, rfl, rfl⟩, rfl, rfl⟩, ⟨fun _ => rfl, fun _ => rfl⟩,
    fun n _ => ⟨fun hn => ?_, fun hn => by cases hn⟩,
    fun n => ⟨fun hn => ?_, fun hn => by cases hn⟩, fun n hn => by cases hn⟩
  · exact absurd ((hmask n).symm.trans hn) (by decide)
  · exact absurd ((hmask n).symm.trans hn) (by decide)

/-! ### Masks -/

theorem getLsbD_clear (mask : UInt8) {bit : UInt8} (hbit : bit < 8) (n : Fin 8) :
    (mask &&& ~~~(1 <<< bit)).toBitVec.getLsbD n =
      (mask.toBitVec.getLsbD n && decide (UInt8.ofNat n ≠ bit)) := by
  have hall : ∀ b n : Fin 8, (~~~((1 : UInt8) <<< UInt8.ofNat b)).toBitVec.getLsbD n =
      decide (UInt8.ofNat n ≠ UInt8.ofNat b) := by decide
  have hlt : bit.toNat < 8 := UInt8.lt_iff_toNat_lt.mp hbit
  have hclear := hall ⟨bit.toNat, hlt⟩ n
  rw [UInt8.ofNat_toNat] at hclear
  rw [UInt8.toBitVec_and, BitVec.getLsbD_and, hclear]

/-- The mask of a controller without one bit. -/
def clearBit (c : Chip) (bit : UInt8) : Chip := { c with mask := c.mask &&& ~~~(1 <<< bit) }

theorem masked_clearBit (c : Chip) {bit : UInt8} (hbit : bit < 8) (n : Fin 8) :
    (clearBit c bit).masked n = false ↔ c.masked n = false ∨ UInt8.ofNat n = bit := by
  unfold Chip.masked clearBit
  rw [getLsbD_clear _ hbit, Bool.and_eq_false_iff, decide_eq_false_iff_not, not_not]

/-- What `unmask_irq` does. -/
theorem unmaskIrq_eq (h : p.Ready) (irq : UInt8) : unmaskIrq irq p =
    if irq ≥ IRQ_COUNT then p
    else if irq < 8 then { p with master := clearBit p.master irq }
    else { master := clearBit p.master 2, slave := clearBit p.slave (irq - 8) } := by
  obtain ⟨⟨hmaster, _⟩, ⟨hslave, _⟩, _⟩ := h
  have hdata : ∀ {c : Chip} (v : UInt8), c.stage = .ready → c.data v = { c with mask := v } :=
    fun v hc => by rw [Chip.data, hc]
  unfold unmaskIrq
  by_cases h16 : irq ≥ IRQ_COUNT
  · rw [if_pos h16, if_pos h16]
  · rw [if_neg h16, if_neg h16]
    by_cases h8 : irq < 8
    · simp only [if_pos h8, if_neg (UInt8.not_le.mpr h8)]
      show { p with master := p.master.data (p.master.mask &&& _) } = _
      rw [hdata _ hmaster]
      rfl
    · simp only [if_neg h8, if_pos (UInt8.not_lt.mp h8)]
      show ({
        master := p.master.data (p.master.mask &&& _)
        slave := p.slave.data (p.slave.mask &&& _) } : Pics) = _
      rw [hdata _ hmaster, hdata _ hslave]
      rfl

theorem Programmed.unmaskIrq (h : Programmed p) (irq : UInt8) : Programmed (unmaskIrq irq p) := by
  rw [unmaskIrq_eq h.ready]
  by_cases h16 : irq ≥ IRQ_COUNT
  · rw [if_pos h16]
    exact h
  · rw [if_neg h16]
    by_cases h8 : irq < 8
    · rw [if_pos h8]
      exact ⟨h.ready, h.master, h.slave⟩
    · rw [if_neg h8]
      exact ⟨h.ready, h.master, h.slave⟩

/-- **`unmask_irq` opens its line** and no other one. -/
theorem Opened.unmaskIrq (h : Opened p irqs) (hready : p.Ready) (irq : UInt8) :
    Opened (unmaskIrq irq p) (irq :: irqs) := by
  rw [unmaskIrq_eq hready]
  have hfirst : ∀ n : Fin 8, UInt8.ofNat n < 8 := by decide
  have hsecond : ∀ n : Fin 8, UInt8.ofNat (8 + n) ≥ 8 ∧ UInt8.ofNat (8 + n) < 16 := by decide
  have hsub : ∀ b n : Fin 8,
      UInt8.ofNat n = UInt8.ofNat (8 + b) - 8 ↔ UInt8.ofNat (8 + n) = UInt8.ofNat (8 + b) := by
    decide
  have htwo : ∀ n : Fin 8, UInt8.ofNat n = 2 → n = 2 := by decide
  by_cases h16 : irq ≥ IRQ_COUNT
  · rw [if_pos h16]
    have hne : ∀ n : Fin 8, UInt8.ofNat n ≠ irq := by
      rintro n rfl
      exact absurd (UInt8.le_trans (by decide : (8 : UInt8) ≤ 16) h16) (UInt8.not_le.mpr (hfirst n))
    have hne' : ∀ n : Fin 8, UInt8.ofNat (8 + n) ≠ irq := by
      rintro n rfl
      exact absurd h16 (UInt8.not_le.mpr (hsecond n).2)
    refine ⟨fun n hn => ?_, fun n => ?_, fun n hn => ?_⟩
    · rw [h.master n hn, List.mem_cons, or_iff_right (hne n)]
    · rw [h.slave n, List.mem_cons, or_iff_right (hne' n)]
    · exact h.cascade n ((List.mem_cons.mp hn).resolve_left (hne' n))
  · rw [if_neg h16]
    by_cases h8 : irq < 8
    · rw [if_pos h8]
      have hne : ∀ n : Fin 8, UInt8.ofNat (8 + n) ≠ irq := by
        rintro n rfl
        exact absurd h8 (UInt8.not_lt.mpr (hsecond n).1)
      refine ⟨fun n hn => ?_, fun n => ?_, fun n hn => ?_⟩
      · rw [masked_clearBit _ h8, h.master n hn, List.mem_cons, or_comm]
      · rw [h.slave n, List.mem_cons, or_iff_right (hne n)]
      · have hmem := (List.mem_cons.mp hn).resolve_left (hne n)
        exact (masked_clearBit _ h8 2).mpr (.inl (h.cascade n hmem))
    · rw [if_neg h8]
      -- the line is one of the second controller
      obtain ⟨b, rfl⟩ : ∃ b : Fin 8, irq = UInt8.ofNat (8 + b) := by
        have hlow := UInt8.le_iff_toNat_le.mp (UInt8.not_lt.mp h8)
        have hhigh := UInt8.lt_iff_toNat_lt.mp (UInt8.not_le.mp h16)
        have h8' : (8 : UInt8).toNat = 8 := rfl
        have h16' : IRQ_COUNT.toNat = 16 := rfl
        refine ⟨⟨irq.toNat - 8, by omega⟩, ?_⟩
        show irq = UInt8.ofNat (8 + (irq.toNat - 8))
        rw [Nat.add_sub_cancel' (by omega), UInt8.ofNat_toNat]
      have hbit : ∀ b : Fin 8, UInt8.ofNat (8 + b) - 8 < 8 := by decide
      have hne : ∀ n : Fin 8, UInt8.ofNat n ≠ UInt8.ofNat (8 + b) := by
        intro n heq
        have hlt := hfirst n
        rw [heq] at hlt
        exact h8 hlt
      refine ⟨fun n hn => ?_, fun n => ?_, fun n hn => ?_⟩
      · rw [masked_clearBit _ (by decide), h.master n hn, List.mem_cons,
          or_iff_right (hne n), or_iff_left fun heq => hn (htwo n heq)]
      · rw [masked_clearBit _ (hbit b), h.slave n, hsub, List.mem_cons, or_comm]
      · exact (masked_clearBit _ (by decide) 2).mpr (.inr rfl)

/-! ### What devices and the CPU change -/

def vectorOf (line : IrqLine) : UInt8 := IRQ_BASE + .ofNat line.number

theorem Programmed.setup (h : Programmed p) (hs : p.SameSetup p') : Programmed p' := by
  obtain ⟨f, g, f', g', rfl⟩ := hs
  exact ⟨h.ready, h.master, h.slave⟩

theorem Opened.setup (h : Opened p irqs) (hs : p.SameSetup p') : Opened p' irqs := by
  obtain ⟨f, g, f', g', rfl⟩ := hs
  exact ⟨h.master, h.slave, h.cascade⟩

theorem Programmed.vector (h : Programmed p) (line : IrqLine) : p.vector line = vectorOf line := by
  have hslave : ∀ n : Fin 8, IRQ_BASE + 8 + UInt8.ofNat n = IRQ_BASE + .ofNat (8 + n) := by decide
  cases line with
  | master n => exact congrArg (· + UInt8.ofNat n) h.master
  | slave n => exact (congrArg (· + UInt8.ofNat n) h.slave).trans (hslave n)

/-- What asks is what has a request and was unmasked. -/
theorem Opened.asks (h : Opened p irqs) (line : IrqLine) :
    p.Asks line ↔ p.Requests line ∧ .ofNat line.number ∈ irqs := by
  cases line with
  | master n =>
    constructor
    · rintro ⟨hn, hreq, hmask⟩
      exact ⟨⟨hn, hreq⟩, (h.master n hn).mp hmask⟩
    · rintro ⟨⟨hn, hreq⟩, hmem⟩
      exact ⟨hn, hreq, (h.master n hn).mpr hmem⟩
  | slave n =>
    constructor
    · rintro ⟨_, hreq, hmask⟩
      exact ⟨hreq, (h.slave n).mp hmask⟩
    · rintro ⟨hreq, hmem⟩
      exact ⟨h.cascade n hmem, hreq, (h.slave n).mpr hmem⟩

theorem requests_unmaskIrq (h : p.Ready) (irq : UInt8) (line : IrqLine) :
    (unmaskIrq irq p).Requests line ↔ p.Requests line := by
  rw [unmaskIrq_eq h]
  by_cases h16 : irq ≥ IRQ_COUNT
  · rw [if_pos h16]
  · rw [if_neg h16]
    by_cases h8 : irq < 8
    · rw [if_pos h8]
      cases line <;> exact Iff.rfl
    · rw [if_neg h8]
      cases line <;> exact Iff.rfl

theorem idle_unmaskIrq (h : p.Ready) (irq : UInt8) : (unmaskIrq irq p).Idle ↔ p.Idle := by
  rw [unmaskIrq_eq h]
  by_cases h16 : irq ≥ IRQ_COUNT
  · rw [if_pos h16]
  · rw [if_neg h16]
    by_cases h8 : irq < 8
    · rw [if_pos h8]
      exact Iff.rfl
    · rw [if_neg h8]
      exact Iff.rfl

end Pic

end Zeronix
