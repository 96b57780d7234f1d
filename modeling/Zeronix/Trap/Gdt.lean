import Zeronix.Lib.Interrupts
import Zeronix.Task.Context

/-!
# Segments and the task state segment

`gdt.rs`: the global descriptor table and the task state segment are statics, which `init` fills in
and loads.  `Gdt.Loaded` says what the CPU finds in them from then on, as long as nothing but
`set_kernel_stack` writes there.
-/

namespace Zeronix

open Gpr

/-- Where the statics are, and the code of the stubs. -/
structure TrapSymbols where
  gdt : Nat
  tss : Nat
  idt : Nat
  ring0Stack : Nat
  doubleFaultStack : Nat
  exceptionStub : Nat → UInt64
  cpuExceptionHandler : UInt64
  irqStub : Nat → UInt64
  /-- After the call of the handler in the stub. -/
  irqReturn : Nat → UInt64
  task : Symbols
  gdt_lt : gdt + 56 ≤ 2 ^ 64
  tss_lt : tss + 104 ≤ 2 ^ 64
  idt_lt : idt + 4096 ≤ 2 ^ 64
  ring0_lt : ring0Stack + 16384 < 2 ^ 64
  doubleFault_lt : doubleFaultStack + 16384 < 2 ^ 64
  doubleFault_align : doubleFaultStack % 16 = 0
  gdt_tss : gdt + 56 ≤ tss ∨ tss + 104 ≤ gdt
  gdt_idt : gdt + 56 ≤ idt ∨ idt + 4096 ≤ gdt
  tss_idt : tss + 104 ≤ idt ∨ idt + 4096 ≤ tss

/-- A CPU with the registers for its tables. -/
structure TrapMachine where
  core : Core
  tables : TableRegs

namespace Gdt

def KERNEL_DATA_SELECTOR : Nat := 0x10
def TSS_SELECTOR : Nat := 0x28
def DOUBLE_FAULT_IST_INDEX : Nat := 1
def GDT_ENTRIES : Nat := 7
def STACK_SIZE : Nat := 16 * 1024
def GDT_TSS_LOW : Nat := 5
def GDT_TSS_HIGH : Nat := 6

/-- `size_of::<TaskStateSegment>()`, which is packed. -/
def TSS_SIZE : Nat := 104

def segmentDescriptor (access flags : UInt8) : UInt64 :=
  let limit : UInt64 := 0x000FFFFF
  let low : UInt64 := limit &&& 0xFFFF
  let high : UInt64 := limit >>> 16 &&& 0xF
  low ||| access.toUInt64 <<< 40 ||| high <<< 48 ||| flags.toUInt64 <<< 52

def tssDescriptor (base : UInt64) (limit : UInt32) : UInt64 × UInt64 :=
  let limitLow : UInt64 := limit.toUInt64 &&& 0xFFFF
  let baseLow : UInt64 := base &&& 0xFFFFFF
  let access : UInt64 := 0x89
  let limitHigh : UInt64 := limit.toUInt64 >>> 16 &&& 0xF
  let baseMid : UInt64 := base >>> 24 &&& 0xFF
  (limitLow ||| baseLow <<< 16 ||| access <<< 40 ||| limitHigh <<< 48 ||| baseMid <<< 56,
    base >>> 32)

/-- The static `GDT` as it is in the image. -/
def GDT : List UInt64 := [
  0,
  segmentDescriptor 0x9A 0xA,
  segmentDescriptor 0x92 0xC,
  segmentDescriptor 0xF2 0xC,
  segmentDescriptor 0xFA 0xA,
  0,
  0]

variable (sym : TrapSymbols)

def ring0StackTop : Nat := sym.ring0Stack + STACK_SIZE

def doubleFaultStackTop : Nat := sym.doubleFaultStack + STACK_SIZE

/-- Where the task state segment has the stack of an index. -/
def rspAt (i : Nat) : Nat := sym.tss + 4 + 8 * i
def istAt (i : Nat) : Nat := sym.tss + 36 + 8 * i

def entryAt (i : Nat) : Nat := sym.gdt + 8 * i

def initTss (m : Memory) : Memory :=
  (m.store (rspAt sym 0) (ring0StackTop sym)).store (istAt sym (DOUBLE_FAULT_IST_INDEX - 1))
    (doubleFaultStackTop sym)

def initTssDescriptor (m : Memory) : Memory :=
  let d := tssDescriptor (.ofNat sym.tss) (.ofNat (TSS_SIZE - 1))
  (m.store (entryAt sym GDT_TSS_LOW) d.1.toNat).store (entryAt sym GDT_TSS_HIGH) d.2.toNat

def loadGdt (r : TableRegs) : TableRegs := r.lgdt (8 * GDT_ENTRIES - 1) sym.gdt

/-- `ss`, and `ds` and `es` with it. -/
def loadDataSegments (s : TrapMachine) : Option TrapMachine := do
  let segment ← s.tables.segment s.core.mem KERNEL_DATA_SELECTOR
  if segment.Writable ∧ segment.dpl = 0 then
    some { s with core := { s.core with ss := .ofNat KERNEL_DATA_SELECTOR } }
  else none

def loadTss (s : TrapMachine) : Option TrapMachine :=
  (s.tables.ltr s.core.mem TSS_SELECTOR).map fun t =>
    { core := { s.core with mem := t.2 }, tables := t.1 }

def init (s : TrapMachine) : Option TrapMachine := do
  let mem := initTssDescriptor sym (initTss sym s.core.mem)
  let s ← loadDataSegments
    { core := { s.core with mem := mem, rsp0 := .ofNat (ring0StackTop sym) }
      tables := loadGdt sym s.tables }
  loadTss s

/-- `rsp0` of the core is what the segment has. -/
def setKernelStack (s : TrapMachine) (stackTop : UInt64) : TrapMachine :=
  { s with core := { s.core with
    mem := s.core.mem.store (rspAt sym 0) stackTop.toNat
    rsp0 := stackTop } }

/-! ### Descriptors -/

/-- The descriptor of a task state segment is the one of its base and limit. -/
theorem tssDescriptor_spec (base : UInt64) (limit : UInt32) (hlimit : limit.toNat < 2 ^ 20) :
    Segment.ofWord (tssDescriptor base limit).1.toNat =
      { base := base.toNat % 2 ^ 32, limit := limit.toNat, type := TSS_AVAILABLE, dpl := 0,
        present := 1, flags := 0 } ∧
    (tssDescriptor base limit).1.toNat / 2 ^ 41 % 2 = 0 ∧
    (tssDescriptor base limit).2.toNat = base.toNat / 2 ^ 32 := by
  have hbase := base.toNat_lt
  have hlow : (limit.toUInt64 &&& 0xFFFF).toNat = limit.toNat % 2 ^ 16 := by
    rw [UInt64.toNat_and, UInt32.toNat_toUInt64]
    exact Nat.and_two_pow_sub_one_eq_mod _ 16
  have hbaseLow : (base &&& 0xFFFFFF).toNat = base.toNat % 2 ^ 24 := by
    rw [UInt64.toNat_and]
    exact Nat.and_two_pow_sub_one_eq_mod _ 24
  have hhigh : (limit.toUInt64 >>> 16 &&& 0xF).toNat = limit.toNat / 2 ^ 16 % 2 ^ 4 :=
    toNat_shiftRight_and rfl (by omega) rfl
  have hmid : (base >>> 24 &&& 0xFF).toNat = base.toNat / 2 ^ 24 % 2 ^ 8 :=
    toNat_shiftRight_and rfl (by omega) rfl
  have hfst : (tssDescriptor base limit).1.toNat = limit.toNat % 2 ^ 16 +
      base.toNat % 2 ^ 24 * 2 ^ 16 + 137 * 2 ^ 40 + limit.toNat / 2 ^ 16 % 2 ^ 4 * 2 ^ 48 +
      base.toNat / 2 ^ 24 % 2 ^ 8 * 2 ^ 56 := by
    simp only [tssDescriptor]
    rw [toNat_fields (by omega) (by omega) (by decide) (by omega) (by omega), hlow, hbaseLow,
      hhigh, hmid]
    rfl
  refine ⟨?_, by omega, ?_⟩
  · rw [hfst, Segment.ofWord_fields (by omega) (by omega) (by omega) (by omega),
      Segment.mk.injEq]
    refine ⟨?_, ?_, rfl, rfl, rfl, rfl⟩ <;> omega
  · simp only [tssDescriptor]
    rw [UInt64.toNat_shiftRight, Nat.shiftRight_eq_div_pow]
    rfl

/-! ### What the CPU finds -/

/-- The bytes of the tables. -/
def InTables (x : Nat) : Prop :=
  (sym.gdt ≤ x ∧ x < sym.gdt + 56) ∨ (sym.tss ≤ x ∧ x < sym.tss + 104) ∨
    (sym.idt ≤ x ∧ x < sym.idt + 4096)

/-- The tables after `init`. -/
structure Loaded (r : TableRegs) (m : Memory) : Prop where
  gdtBase : r.gdtBase = sym.gdt
  gdtLimit : r.gdtLimit = 55
  tssBase : r.tssBase = sym.tss
  tssLimit : r.tssLimit = 103
  segments : Spells m sym.gdt (GDT.take 5)
  ist : m.load (istAt sym 0) = doubleFaultStackTop sym

variable {sym} {r : TableRegs} {m m' : Memory} {s s' : TrapMachine}

theorem Loaded.congr (h : Loaded sym r m) (hgdt : ∀ x, sym.gdt ≤ x → x < sym.gdt + 56 →
    m'.bytes x = m.bytes x) (hist : ∀ x, sym.tss + 36 ≤ x → x < sym.tss + 44 →
    m'.bytes x = m.bytes x) : Loaded sym r m' := by
  have hload : m'.load (istAt sym 0) = m.load (istAt sym 0) :=
    Memory.readLE_congr fun x hx hx' => by
      unfold istAt at hx hx'
      exact hist x (by omega) (by omega)
  have hlen : (GDT.take 5).length = 5 := rfl
  exact { h with
    segments := h.segments.congr fun x hx hx' => hgdt x hx (by omega)
    ist := hload.trans h.ist }

theorem segment_of_spells (hbase : r.gdtBase = sym.gdt) (hlimit : r.gdtLimit = 55)
    (h : Spells m sym.gdt (GDT.take 5)) {selector i : Nat} (hi : i < 5) (hs : selector / 8 = i) :
    r.segment m selector = some (.ofWord (GDT.getD i 0).toNat) := by
  have hlen : (GDT.take 5).length = 5 := rfl
  have hload := h.load (i := i) (by omega)
  rw [TableRegs.segment, hlimit, if_pos (by omega), TableRegs.descriptorAt, hbase, hs,
    Nat.mul_comm i 8, hload, List.getElem_take,
    List.getD_eq_getElem _ _ (by show i < 7; omega)]

/-- **The selectors** of the kernel and of programs have their descriptors. -/
theorem Loaded.segment (h : Loaded sym r m) {selector i : Nat} (hi : i < 5)
    (hs : selector / 8 = i) :
    r.segment m selector = some (.ofWord (GDT.getD i 0).toNat) :=
  segment_of_spells h.gdtBase h.gdtLimit h.segments hi hs

theorem Loaded.kernelCode (h : Loaded sym r m) : ∃ s, r.segment m 0x08 = some s ∧ s.Code64 ∧
    s.dpl = 0 :=
  ⟨_, h.segment (i := 1) (by omega) rfl, by decide, by decide⟩

theorem Loaded.setKernelStack (h : Loaded sym s.tables s.core.mem) (top : UInt64) :
    Loaded sym (setKernelStack sym s top).tables (setKernelStack sym s top).core.mem := by
  have hgt := sym.gdt_tss
  refine h.congr (fun x hx hx' => ?_) fun x hx hx' => ?_ <;>
  · refine bytes_store ?_
    unfold rspAt
    omega

/-- The descriptor that `init` puts into the table. -/
def descriptor (sym : TrapSymbols) : UInt64 × UInt64 :=
  tssDescriptor (.ofNat sym.tss) (.ofNat (TSS_SIZE - 1))

/-- The statics before `ltr`. -/
theorem mem_spec (hgdt : Spells m sym.gdt GDT)
    (hm : m' = initTssDescriptor sym (initTss sym m)) :
    (∀ x, (x < sym.gdt + 40 ∨ sym.gdt + 56 ≤ x) → (x < sym.tss + 4 ∨ sym.tss + 12 ≤ x) →
      (x < sym.tss + 36 ∨ sym.tss + 44 ≤ x) → m'.bytes x = m.bytes x) ∧
    Spells m' sym.gdt (GDT.take 5) ∧
    m'.load (sym.gdt + 40) = (descriptor sym).1.toNat ∧
    m'.load (sym.gdt + 48) = (descriptor sym).2.toNat ∧
    m'.load (rspAt sym 0) = ring0StackTop sym ∧
    m'.load (istAt sym 0) = doubleFaultStackTop sym := by
  have hgt := sym.gdt_tss
  have hring := sym.ring0_lt
  have hdf := sym.doubleFault_lt
  have hfive : entryAt sym GDT_TSS_LOW = sym.gdt + 40 := rfl
  have hsix : entryAt sym GDT_TSS_HIGH = sym.gdt + 48 := rfl
  have hrsp : rspAt sym 0 = sym.tss + 4 := rfl
  have hist : istAt sym 0 = sym.tss + 36 := rfl
  have hindex : DOUBLE_FAULT_IST_INDEX - 1 = 0 := rfl
  simp only [initTssDescriptor, initTss, hindex, hfive, hsix] at hm
  have hbytes : ∀ x, (x < sym.gdt + 40 ∨ sym.gdt + 56 ≤ x) →
      (x < sym.tss + 4 ∨ sym.tss + 12 ≤ x) → (x < sym.tss + 36 ∨ sym.tss + 44 ≤ x) →
      m'.bytes x = m.bytes x := by
    intro x h₁ h₂ h₃
    rw [hm, bytes_store (by omega), bytes_store (by omega), bytes_store (by omega),
      bytes_store (by omega)]
  refine ⟨hbytes, ?_, ?_, ?_, ?_, ?_⟩
  · have hsplit : Spells m sym.gdt (GDT.take 5 ++ GDT.drop 5) := by
      rw [List.take_append_drop]
      exact hgdt
    have hlen : (GDT.take 5).length = 5 := rfl
    exact (Spells.append.mp hsplit).1.congr fun x hx hx' =>
      hbytes x (by omega) (by omega) (by omega)
  · rw [hm, Memory.load_store_apart _ _ (.inr (by omega))]
    exact load_store_word _ _ _
  · rw [hm]
    exact load_store_word _ _ _
  · rw [hm, Memory.load_store_apart _ _ (by unfold Memory.Apart; omega),
      Memory.load_store_apart _ _ (by unfold Memory.Apart; omega),
      Memory.load_store_apart _ _ (by unfold Memory.Apart; omega)]
    exact Memory.load_store_self _ _ (by unfold ring0StackTop STACK_SIZE; omega)
  · rw [hm, Memory.load_store_apart _ _ (by unfold Memory.Apart; omega),
      Memory.load_store_apart _ _ (by unfold Memory.Apart; omega)]
    exact Memory.load_store_self _ _ (by unfold doubleFaultStackTop STACK_SIZE; omega)

/-- `ltr` finds the segment. -/
theorem ltr_spec (hbase : r.gdtBase = sym.gdt) (hlimit : r.gdtLimit = 55)
    (hlow : m.load (sym.gdt + 40) = (descriptor sym).1.toNat)
    (hhigh : m.load (sym.gdt + 48) = (descriptor sym).2.toNat) :
    r.ltr m TSS_SELECTOR = some ({ r with tssBase := sym.tss, tssLimit := 103 },
      m.store (sym.gdt + 40) ((descriptor sym).1.toNat + 2 ^ 41)) := by
  have htss := sym.tss_lt
  obtain ⟨hfields, -, hrest⟩ :=
    tssDescriptor_spec (.ofNat sym.tss) (.ofNat (TSS_SIZE - 1)) (by decide)
  have hnat : (UInt64.ofNat sym.tss).toNat = sym.tss :=
    UInt64.toNat_ofNat_of_lt' (by show sym.tss < 2 ^ 64; omega)
  have hat : r.descriptorAt TSS_SELECTOR = sym.gdt + 40 := congrArg (· + 40) hbase
  have hroom : TSS_SELECTOR / 8 * 8 + 15 ≤ r.gdtLimit := by
    rw [hlimit]
    decide
  have hjoin : sym.tss % 2 ^ 32 + 2 ^ 32 * (sym.tss / 2 ^ 32 % 2 ^ 32) = sym.tss := by omega
  rw [hnat] at hfields hrest
  rw [TableRegs.ltr, if_pos hroom]
  simp only [hat, hlow, hhigh]
  rw [if_pos, descriptor, hfields, hrest, hjoin]
  · rfl
  · rw [descriptor, hfields]
    exact ⟨rfl, rfl⟩

/-- **`init` loads the tables**, whatever was loaded before. -/
theorem init_spec (hgdt : Spells s.core.mem sym.gdt GDT) : ∃ s', init sym s = some s' ∧
    Loaded sym s'.tables s'.core.mem ∧
    s'.core.mem.load (rspAt sym 0) = ring0StackTop sym ∧
    s'.core = { s.core with
      ss := .ofNat KERNEL_DATA_SELECTOR
      rsp0 := .ofNat (ring0StackTop sym)
      mem := s'.core.mem } ∧
    ∀ x, (x < sym.gdt ∨ sym.gdt + 56 ≤ x) → (x < sym.tss ∨ sym.tss + 104 ≤ x) →
      s'.core.mem.bytes x = s.core.mem.bytes x := by
  have hgt := sym.gdt_tss
  generalize hm : initTssDescriptor sym (initTss sym s.core.mem) = m
  obtain ⟨hbytes, hsegments, hlow, hhigh, hrsp, hist⟩ := mem_spec hgdt hm.symm
  have hdata : (loadGdt sym s.tables).segment m KERNEL_DATA_SELECTOR =
      some (.ofWord (GDT.getD 2 0).toNat) := segment_of_spells rfl rfl hsegments (by omega) rfl
  have hltr := ltr_spec (r := loadGdt sym s.tables) rfl rfl hlow hhigh
  have hother : ∀ x, (x < sym.gdt + 40 ∨ sym.gdt + 48 ≤ x) →
      (m.store (sym.gdt + 40) ((descriptor sym).1.toNat + 2 ^ 41)).bytes x = m.bytes x :=
    fun x hx => bytes_store hx
  generalize m.store (sym.gdt + 40) ((descriptor sym).1.toNat + 2 ^ 41) = m' at *
  refine ⟨⟨{ s.core with
      ss := .ofNat KERNEL_DATA_SELECTOR
      rsp0 := .ofNat (ring0StackTop sym)
      mem := m' }, { loadGdt sym s.tables with tssBase := sym.tss, tssLimit := 103 }⟩,
    ?_, ⟨rfl, rfl, rfl, rfl, ?_, ?_⟩, ?_, rfl, fun x hx hx' => ?_⟩
  · simp only [init, loadDataSegments, hm, hdata, Option.bind_eq_bind, Option.bind_some]
    rw [if_pos ⟨by decide, by decide⟩, Option.bind_some, loadTss, hltr, Option.map_some]
  · have hlen : (GDT.take 5).length = 5 := rfl
    exact hsegments.congr fun x hx hx' => hother x (by omega)
  · rw [← hist]
    exact Memory.readLE_congr fun x hx hx' => by
      unfold istAt at hx hx'
      exact hother x (by omega)
  · rw [← hrsp]
    exact Memory.readLE_congr fun x hx hx' => by
      unfold rspAt at hx hx'
      exact hother x (by omega)
  · rw [hother x (by omega), hbytes x (by omega) (by omega) (by omega)]

end Gdt

end Zeronix
