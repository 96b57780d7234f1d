import Zeronix.Lib.SystemCall
import Zeronix.Task.Preemption
import Zeronix.Trap.Gdt

/-!
# Exceptions and interrupts

`idt.rs`: the gates of the exceptions and of the interrupt lines, and the stubs behind them.  The
CPU finds the stub of a vector in the tables, on the stack that they give (`deliver_vector`).  From
there an exception enters `__cpu_exception_handler` with what the CPU pushed, and an interrupt
enters `__irq_handler` and goes back to where it came from.

`Runs` says how the kernel treats the tables: they are written by the two `init`s and by
`set_kernel_stack` only.
-/

namespace Zeronix

open Gpr

namespace Idt

/-! ### The table -/

def IDT_ENTRIES : Nat := 256
def INTERRUPT_GATE : UInt8 := 0x8E
def IRQ_COUNT : Nat := 16

structure IdtEntry where
  offsetLow : UInt16
  selector : UInt16
  ist : UInt8
  typeAttr : UInt8
  offsetMid : UInt16
  offsetHigh : UInt32
  reserved : UInt32

namespace IdtEntry

def missing : IdtEntry where
  offsetLow := 0
  selector := 0
  ist := 0
  typeAttr := 0
  offsetMid := 0
  offsetHigh := 0
  reserved := 0

/-- All fields are set. -/
def setHandler (handler : UInt64) (ist : UInt8) : IdtEntry where
  offsetLow := handler.toUInt16
  selector := KERNEL_CODE_SELECTOR.toUInt16
  ist := ist &&& 0x7
  typeAttr := INTERRUPT_GATE
  offsetMid := (handler >>> 16).toUInt16
  offsetHigh := (handler >>> 32).toUInt32
  reserved := 0

/-- The fields in memory, packed. -/
def bytes (e : IdtEntry) : List UInt8 :=
  Memory.leBytes 2 e.offsetLow.toNat ++ (Memory.leBytes 2 e.selector.toNat ++
    (Memory.leBytes 1 e.ist.toNat ++ (Memory.leBytes 1 e.typeAttr.toNat ++
      (Memory.leBytes 2 e.offsetMid.toNat ++ (Memory.leBytes 4 e.offsetHigh.toNat ++
        Memory.leBytes 4 e.reserved.toNat)))))

theorem length_bytes (e : IdtEntry) : e.bytes.length = 16 := by
  simp only [bytes, List.length_append, Memory.length_leBytes]

end IdtEntry

variable (sym : TrapSymbols)

def initEntries (m : Memory) : Memory :=
  let m := (List.range 32).foldl (fun m vector =>
    m.copy (sym.idt + 16 * vector) (IdtEntry.setHandler (sym.exceptionStub vector)
      (if vector = 8 then .ofNat Gdt.DOUBLE_FAULT_IST_INDEX else 0)).bytes) m
  (List.range IRQ_COUNT).foldl (fun m irq =>
    m.copy (sym.idt + 16 * IRQ_BASE.toNat + 16 * irq)
      (IdtEntry.setHandler (sym.irqStub irq) 0).bytes) m

def load (r : TableRegs) : TableRegs := r.lidt (16 * IDT_ENTRIES - 1) sym.idt

def init (s : TrapMachine) : TrapMachine where
  core := { s.core with mem := initEntries sym s.core.mem }
  tables := load sym s.tables

/-! ### The stubs -/

def exceptionNoError (vector : Nat) : List EntryInstr := [
  .plain .cld,
  .plain (.movImm rdi (.ofNat vector)),
  .clear rsi,
  .loadStack rdx 0,
  .plain (.andRsp (-16)),
  .subRsp 8,
  .jmp sym.cpuExceptionHandler]

def exceptionWithError (vector : Nat) : List EntryInstr := [
  .plain .cld,
  .plain (.movImm rdi (.ofNat vector)),
  .loadStack rsi 0,
  .loadStack rdx 8,
  .plain (.andRsp (-16)),
  .subRsp 8,
  .jmp sym.cpuExceptionHandler]

/-- The vectors of `EXCEPTION_WITH_ERROR`. -/
def withError : List Nat := [8, 10, 11, 12, 13, 14, 17, 21, 29, 30]

def exceptionStub (vector : Nat) : List EntryInstr :=
  if vector ∈ withError then exceptionWithError sym vector else exceptionNoError sym vector

/-- The entry of a vector after `init`. -/
def entry (vector : Nat) : IdtEntry :=
  if vector < 32 then .setHandler (sym.exceptionStub vector)
    (if vector = 8 then .ofNat Gdt.DOUBLE_FAULT_IST_INDEX else 0)
  else if vector < 48 then .setHandler (sym.irqStub (vector - 32)) 0
  else .missing

/-- The tables after both `init`s, with a stack for ring 0. -/
structure Armed (s : TrapMachine) (top : UInt64) : Prop extends
    Gdt.Loaded sym s.tables s.core.mem where
  idtBase : s.tables.idtBase = sym.idt
  idtLimit : s.tables.idtLimit = 4095
  gates : ∀ v < 256, s.core.mem.Holds (sym.idt + 16 * v) (entry sym v).bytes
  rsp0 : s.core.mem.load (Gdt.rspAt sym 0) = top.toNat
  core : s.core.rsp0 = top

/-- The statics as the image has them. -/
structure Image (m : Memory) : Prop where
  gdt : Spells m sym.gdt Gdt.GDT
  idt : ∀ v < 256, m.Holds (sym.idt + 16 * v) IdtEntry.missing.bytes

/-- From the start of the kernel: the two `init`s, and from then on changes of the stack for ring 0
and whatever leaves the tables alone. -/
inductive Runs (s₀ : TrapMachine) : TrapMachine → UInt64 → Prop
  | boot {s₁ : TrapMachine} (c : Core) (hinit : Gdt.init sym s₀ = some s₁)
      (htables : ∀ x, Gdt.InTables sym x → c.mem.bytes x = s₁.core.mem.bytes x)
      (hrsp0 : c.rsp0 = s₁.core.rsp0) :
      Runs s₀ (init sym { s₁ with core := c }) (.ofNat (Gdt.ring0StackTop sym))
  | setKernelStack {s : TrapMachine} {top : UInt64} (top' : UInt64) (h : Runs s₀ s top) :
      Runs s₀ (Gdt.setKernelStack sym s top') top'
  | other {s : TrapMachine} {top : UInt64} (c : Core) (h : Runs s₀ s top)
      (htables : ∀ x, Gdt.InTables sym x → c.mem.bytes x = s.core.mem.bytes x)
      (hrsp0 : c.rsp0 = s.core.rsp0) : Runs s₀ { s with core := c } top

/-! ### Entries are gates -/

/-- The gate of the fields of an entry. -/
def IdtEntry.gate (e : IdtEntry) : Gate where
  offset := e.offsetLow.toNat + 2 ^ 16 * e.offsetMid.toNat + 2 ^ 32 * e.offsetHigh.toNat
  selector := e.selector.toNat
  ist := e.ist.toNat % 8
  type := e.typeAttr.toNat % 32
  dpl := e.typeAttr.toNat / 32 % 4
  present := e.typeAttr.toNat / 128

/-- **An entry in memory is read as its gate.** -/
theorem IdtEntry.ofWords_gate {m : Memory} {a : Nat} {e : IdtEntry} (h : m.Holds a e.bytes) :
    Gate.ofWords (m.load a) (m.load (a + 8)) = e.gate := by
  have hlow : e.offsetLow.toNat < 256 ^ 2 := e.offsetLow.toNat_lt
  have hsel : e.selector.toNat < 256 ^ 2 := e.selector.toNat_lt
  have hist : e.ist.toNat < 256 ^ 1 := e.ist.toNat_lt
  have htype : e.typeAttr.toNat < 256 ^ 1 := e.typeAttr.toNat_lt
  have hmid : e.offsetMid.toNat < 256 ^ 2 := e.offsetMid.toNat_lt
  have hhigh : e.offsetHigh.toNat < 256 ^ 4 := e.offsetHigh.toNat_lt
  unfold bytes at h
  simp only [Memory.holds_append, Memory.length_leBytes] at h
  obtain ⟨h₁, h₂, h₃, h₄, h₅, h₆, h₇⟩ := h
  have hlo : m.load a = e.offsetLow.toNat + 256 ^ 2 * (e.selector.toNat + 256 ^ 2 * (e.ist.toNat +
      256 ^ 1 * (e.typeAttr.toNat + 256 ^ 1 * e.offsetMid.toNat))) := by
    rw [Memory.load, Memory.readLE_add m.bytes a 2 6, Memory.readLE_add m.bytes (a + 2) 2 4,
      Memory.readLE_add m.bytes (a + 2 + 2) 1 3, Memory.readLE_add m.bytes (a + 2 + 2 + 1) 1 2,
      h₁.readLE, h₂.readLE, h₃.readLE, h₄.readLE, h₅.readLE, Nat.mod_eq_of_lt hlow,
      Nat.mod_eq_of_lt hsel, Nat.mod_eq_of_lt hist, Nat.mod_eq_of_lt htype, Nat.mod_eq_of_lt hmid]
  have hhi : m.load (a + 8) = e.offsetHigh.toNat + 256 ^ 4 * (e.reserved.toNat % 256 ^ 4) := by
    rw [Memory.load, Memory.readLE_add m.bytes (a + 8) 4 4, h₆.readLE, h₇.readLE,
      Nat.mod_eq_of_lt hhigh]
  rw [hlo, hhi]
  simp only [Gate.ofWords, gate, Gate.mk.injEq]
  refine ⟨?_, ?_, ?_, ?_, ?_, ?_⟩ <;> omega

theorem IdtEntry.setHandler_gate (handler : UInt64) {ist : UInt8} (h : ist.toNat < 8) :
    (setHandler handler ist).gate =
      { offset := handler.toNat, selector := 8, ist := ist.toNat, type := 14, dpl := 0
        present := 1 } := by
  have hlt := handler.toNat_lt
  have hist : (ist &&& 0x7).toNat = ist.toNat := by
    rw [UInt8.toNat_and]
    exact (Nat.and_two_pow_sub_one_eq_mod _ 3).trans (Nat.mod_eq_of_lt h)
  have hmid : (handler >>> 16).toNat = handler.toNat / 2 ^ 16 := by
    rw [UInt64.toNat_shiftRight, Nat.shiftRight_eq_div_pow]
    rfl
  have hhigh : (handler >>> 32).toNat = handler.toNat / 2 ^ 32 := by
    rw [UInt64.toNat_shiftRight, Nat.shiftRight_eq_div_pow]
    rfl
  simp only [gate, setHandler, UInt64.toNat_toUInt16, UInt64.toNat_toUInt32, hist, hmid, hhigh,
    Gate.mk.injEq]
  refine ⟨?_, rfl, ?_, rfl, rfl, rfl⟩ <;> omega

/-! ### The tables over runs -/

variable {sym} {s s₀ s₁ : TrapMachine} {top : UInt64} {m : Memory}

theorem initEntries_spec (h : ∀ v < 256, m.Holds (sym.idt + 16 * v) IdtEntry.missing.bytes) :
    (∀ v < 256, (initEntries sym m).Holds (sym.idt + 16 * v) (entry sym v).bytes) ∧
    ∀ x, x < sym.idt ∨ sym.idt + 4096 ≤ x → (initEntries sym m).bytes x = m.bytes x := by
  have hbase : IRQ_BASE.toNat = 32 := rfl
  have hcount : IRQ_COUNT = 16 := rfl
  obtain ⟨hrows₁, hrest₁⟩ := Memory.holds_rows m sym.idt 16 32
    (fun v => (IdtEntry.setHandler (sym.exceptionStub v)
      (if v = 8 then .ofNat Gdt.DOUBLE_FAULT_IST_INDEX else 0)).bytes)
    fun v => IdtEntry.length_bytes _
  rw [initEntries]
  generalize (List.range 32).foldl _ m = m₁ at *
  obtain ⟨hrows₂, hrest₂⟩ := Memory.holds_rows m₁ (sym.idt + 16 * IRQ_BASE.toNat) 16 IRQ_COUNT
    (fun irq => (IdtEntry.setHandler (sym.irqStub irq) 0).bytes)
    fun v => IdtEntry.length_bytes _
  generalize hm₂ : (List.range IRQ_COUNT).foldl _ m₁ = m₂ at *
  rw [hbase, hcount] at hrows₂ hrest₂
  have hlen : ∀ e : IdtEntry, e.bytes.length = 16 := IdtEntry.length_bytes
  refine ⟨fun v hv => ?_, fun x hx => ?_⟩
  · unfold entry
    by_cases hexc : v < 32
    · rw [if_pos hexc]
      exact (hrows₁ v hexc).congr fun x hx hx' => by
        rw [hlen] at hx'
        exact hrest₂ x (by omega)
    · rw [if_neg hexc]
      by_cases hirq : v < 48
      · rw [if_pos hirq, show sym.idt + 16 * v = sym.idt + 16 * 32 + 16 * (v - 32) by omega]
        exact hrows₂ (v - 32) (by omega)
      · rw [if_neg hirq]
        exact (h v hv).congr fun x hx hx' => by
          rw [hlen] at hx'
          rw [hrest₂ x (by omega), hrest₁ x (by omega)]
  · rw [hrest₂ x (by omega), hrest₁ x (by omega)]

theorem Armed.other (h : Armed sym s top) {c : Core}
    (htables : ∀ x, Gdt.InTables sym x → c.mem.bytes x = s.core.mem.bytes x)
    (hrsp0 : c.rsp0 = s.core.rsp0) : Armed sym { s with core := c } top := by
  unfold Gdt.InTables at htables
  have hlen : ∀ e : IdtEntry, e.bytes.length = 16 := IdtEntry.length_bytes
  refine { h.toLoaded.congr (fun x hx hx' => htables x (.inl ⟨hx, hx'⟩)) fun x hx hx' =>
    htables x (.inr (.inl ⟨by omega, by omega⟩)) with
    idtBase := h.idtBase
    idtLimit := h.idtLimit
    gates := fun v hv => (h.gates v hv).congr fun x hx hx' => ?_
    rsp0 := ?_
    core := hrsp0.trans h.core }
  · rw [hlen] at hx'
    exact htables x (.inr (.inr ⟨by omega, by omega⟩))
  · rw [← h.rsp0]
    refine Memory.readLE_congr fun x hx hx' => htables x (.inr (.inl ?_))
    unfold Gdt.rspAt at hx hx'
    omega

theorem Armed.setKernelStack (h : Armed sym s top) (top' : UInt64) :
    Armed sym (Gdt.setKernelStack sym s top') top' := by
  have hti := sym.tss_idt
  have hlen : ∀ e : IdtEntry, e.bytes.length = 16 := IdtEntry.length_bytes
  refine { h.toLoaded.setKernelStack top' with
    idtBase := h.idtBase
    idtLimit := h.idtLimit
    gates := fun v hv => (h.gates v hv).congr fun x hx hx' => ?_
    rsp0 := load_store_word _ _ _
    core := rfl }
  rw [hlen] at hx'
  refine bytes_store ?_
  unfold Gdt.rspAt
  omega

/-- **The tables of a run** are those that the two `init`s made. -/
theorem Runs.armed (himage : Image sym s₀.core.mem) (h : Runs sym s₀ s top) :
    Armed sym s top := by
  induction h with
  | @boot s₁ c hinit htables hrsp0 =>
    obtain ⟨s₂, hinit', hloaded, hrsp, hcore, hrest⟩ := Gdt.init_spec himage.gdt
    obtain rfl : s₁ = s₂ := Option.some.inj (hinit.symm.trans hinit')
    have hgi := sym.gdt_idt
    have hti := sym.tss_idt
    have hring := sym.ring0_lt
    have htop : (UInt64.ofNat (Gdt.ring0StackTop sym)).toNat = Gdt.ring0StackTop sym :=
      UInt64.toNat_ofNat_of_lt' (by
        show sym.ring0Stack + 16384 < 2 ^ 64
        exact hring)
    have hlen : ∀ e : IdtEntry, e.bytes.length = 16 := IdtEntry.length_bytes
    unfold Gdt.InTables at htables
    obtain ⟨hgates, hoff⟩ := @initEntries_spec sym c.mem fun v hv =>
      (himage.idt v hv).congr fun x hx hx' => by
        rw [hlen] at hx'
        rw [htables x (.inr (.inr ⟨by omega, by omega⟩)), hrest x (by omega) (by omega)]
    have hinto : ∀ x, (sym.gdt ≤ x ∧ x < sym.gdt + 56) ∨ (sym.tss ≤ x ∧ x < sym.tss + 104) →
        (initEntries sym c.mem).bytes x = s₁.core.mem.bytes x := by
      intro x hx
      rw [hoff x (by omega), htables x (hx.imp_right .inl)]
    exact {
      gdtBase := hloaded.gdtBase
      gdtLimit := hloaded.gdtLimit
      tssBase := hloaded.tssBase
      tssLimit := hloaded.tssLimit
      segments := hloaded.segments.congr fun x hx hx' => hinto x (.inl ⟨hx, by
        have hfive : (Gdt.GDT.take 5).length = 5 := rfl
        omega⟩)
      ist := by
        rw [← hloaded.ist]
        refine Memory.readLE_congr fun x hx hx' => hinto x (.inr ?_)
        unfold Gdt.istAt at hx hx'
        omega
      idtBase := rfl
      idtLimit := rfl
      gates := hgates
      rsp0 := by
        rw [htop, ← hrsp]
        refine Memory.readLE_congr fun x hx hx' => hinto x (.inr ?_)
        unfold Gdt.rspAt at hx hx'
        omega
      core := by
        show c.rsp0 = _
        rw [hrsp0, hcore] }
  | setKernelStack top' _ ih => exact ih.setKernelStack top'
  | other c _ htables hrsp0 ih => exact ih.other htables hrsp0

/-! ### From an event to its stub -/

variable (sym) in
/-- The stub of a vector. -/
def stub (v : Nat) : UInt64 := if v < 32 then sym.exceptionStub v else sym.irqStub (v - 32)

variable (sym) in
/-- The stack pointer that an event of the vector starts with. -/
def stackOf (c : Core) (top : UInt64) (v : Nat) : UInt64 :=
  if v = 8 then .ofNat (Gdt.doubleFaultStackTop sym) else if c.userMode then top else c.rsp

theorem Armed.gate (h : Armed sym s top) {v : Nat} (hv : v < 48) :
    s.tables.gate s.core.mem v = some
      { offset := (stub sym v).toNat, selector := 8, ist := if v = 8 then 1 else 0, type := 14,
        dpl := 0, present := 1 } := by
  rw [TableRegs.gate, h.idtLimit, if_pos (by omega), h.idtBase,
    IdtEntry.ofWords_gate (h.gates v (by omega))]
  unfold entry stub
  by_cases hexc : v < 32
  · rw [if_pos hexc, if_pos hexc]
    by_cases h8 : v = 8
    · rw [if_pos h8, if_pos h8, IdtEntry.setHandler_gate _ (by decide)]
      rfl
    · rw [if_neg h8, if_neg h8, IdtEntry.setHandler_gate _ (by decide)]
      rfl
  · rw [if_neg hexc, if_pos hv, if_neg hexc, if_neg (by omega),
      IdtEntry.setHandler_gate _ (by decide)]
    rfl

theorem Armed.stackFor (h : Armed sym s top) (v : Nat) :
    s.tables.stackFor s.core (if v = 8 then 1 else 0) = stackOf sym s.core top v := by
  unfold TableRegs.stackFor stackOf
  by_cases h8 : v = 8
  · rw [if_pos h8, if_pos h8, if_pos (by omega), TableRegs.istAt, h.tssBase, ← h.ist]
    rfl
  · rw [if_neg h8, if_neg h8, if_neg (by omega), TableRegs.rsp0At, h.tssBase]
    have hload : s.core.mem.load (sym.tss + 4) = top.toNat := h.rsp0
    rw [hload, UInt64.ofNat_toNat]

/-- **An event finds its stub**, with its frame on the stack that the tables have for it. -/
theorem Armed.deliver (h : Armed sym s top) {v : Nat} (hv : v < 48) (error : Option UInt64)
    (hroom : 48 ≤ (stackOf sym s.core top v).toNat) :
    ∃ c, s.tables.deliver s.core v error = some c ∧ c.rip = stub sym v ∧
      c.cs = KERNEL_CODE_SELECTOR ∧ c.rflags = s.core.rflags &&& ~~~0x34300 ∧
      c.gpr = s.core.gpr ∧ c.rsp0 = top ∧
      c.rsp.toNat + 8 * (s.core.interruptWords error).length =
        (stackOf sym s.core top v).toNat / 16 * 16 ∧
      Spells c.mem c.rsp.toNat (s.core.interruptWords error) ∧
      ∀ x, x < c.rsp.toNat ∨ (stackOf sym s.core top v).toNat / 16 * 16 ≤ x →
        c.mem.bytes x = s.core.mem.bytes x := by
  obtain ⟨code, hcode, h64, hdpl⟩ := h.kernelCode
  have hbase : (s.tables.baseFor s.core (if v = 8 then 1 else 0)).toNat =
      (stackOf sym s.core top v).toNat / 16 * 16 := by
    rw [TableRegs.baseFor, h.stackFor, toNat_and_not_fifteen]
  obtain ⟨c, hc, hrip, hcs, hflags, hgpr, hrsp0, hrsp, hspells, hbytes⟩ :=
    TableRegs.deliver_spec error (h.gate hv) hcode ⟨rfl, rfl, h64, hdpl⟩ (by rw [hbase]; omega)
  rw [hbase] at hrsp hbytes
  have hselector : UInt64.ofNat (8 / 4 * 4) = KERNEL_CODE_SELECTOR := by decide
  exact ⟨c, hc, hrip.trans UInt64.ofNat_toNat, hcs.trans hselector, hflags, hgpr,
    hrsp0.trans h.core, hrsp, hspells, hbytes⟩

/-! ### Exceptions -/

variable (sym) in
/-- At the entry of `__cpu_exception_handler`, for an exception of the code that ran in `c`. -/
structure Entered (c : Core) (v : Nat) (error : Option UInt64) (base : Nat) (c' : Core) :
    Prop where
  rip : c'.rip = sym.cpuExceptionHandler
  args : [c'.gpr rdi, c'.gpr rsi, c'.gpr rdx] = [.ofNat v, error.getD 0, c.rip]
  align : c'.rsp.toNat % 16 = 8
  rsp : c'.rsp.toNat < base ∧ base ≤ c'.rsp.toNat + 64
  cs : c'.cs = KERNEL_CODE_SELECTOR
  flags : c'.rflags &&& 0x600 = 0
  bytes : ∀ x, x < c'.rsp.toNat ∨ base ≤ x → c'.mem.bytes x = c.mem.bytes x

theorem flags_clear (f : UInt64) : (f &&& ~~~0x34300) &&& ~~~0x400 &&& 0x600 = 0 := by
  rw [UInt64.and_assoc, UInt64.and_assoc]
  exact UInt64.and_zero

theorem run_exceptionStub (sym : TrapSymbols) {c c₁ : Core} {v : Nat} {error : Option UInt64}
    (herror : error.isSome ↔ v ∈ withError)
    (h : Spells c₁.mem c₁.rsp.toNat (c.interruptWords error))
    (hsp : c₁.rsp.toNat + 16 < 2 ^ 64) :
    c₁.runEntry (exceptionStub sym v) = { c₁ with
      gpr := Function.update (Function.update (Function.update c₁.gpr rdi (.ofNat v)) rsi
        (error.getD 0)) rdx c.rip
      rsp := (c₁.rsp &&& -16) - 8
      rip := sym.cpuExceptionHandler
      rflags := c₁.rflags &&& ~~~0x400 } := by
  have hzero : c₁.word (c₁.rsp + 0) = c₁.word c₁.rsp := congrArg c₁.word (UInt64.add_zero _)
  unfold exceptionStub
  cases error with
  | none =>
    have hv : v ∉ withError := fun hv => absurd (herror.mpr hv) (by decide)
    rw [if_neg hv]
    have hrip : c₁.word c₁.rsp = c.rip := h.word
    rw [← hrip, ← hzero]
    rfl
  | some e =>
    have hv : v ∈ withError := herror.mp rfl
    rw [if_pos hv]
    have hcode : c₁.word c₁.rsp = e := h.word
    have hnext : (c₁.rsp + 8).toNat = c₁.rsp.toNat + 8 := toNat_add_ofNat rfl (by omega)
    have hrip : c₁.word (c₁.rsp + 8) = c.rip := Spells.word (by rw [hnext]; exact h.2)
    show _ = { c₁ with
      gpr := Function.update (Function.update (Function.update c₁.gpr rdi (.ofNat v)) rsi e)
        rdx c.rip
      rsp := (c₁.rsp &&& -16) - 8
      rip := sym.cpuExceptionHandler
      rflags := c₁.rflags &&& ~~~0x400 }
    rw [← hcode, ← hrip, ← hzero]
    rfl

/-- **Every exception of a run reaches the handler** with its vector, its error code and the address
of the instruction, in ring 0 and without interrupts.  A double fault has a stack of its own. -/
theorem exception_enters (himage : Image sym s₀.core.mem) (h : Runs sym s₀ s top) {v : Nat}
    (hv : v < 32) {error : Option UInt64} (herror : error.isSome ↔ v ∈ TableRegs.errorCodes)
    (hroom : 64 ≤ (stackOf sym s.core top v).toNat) :
    ∃ c, s.tables.deliver s.core v error = some c ∧ c.rip = sym.exceptionStub v ∧
      Entered sym s.core v error ((stackOf sym s.core top v).toNat / 16 * 16)
        (c.runEntry (exceptionStub sym v)) := by
  obtain ⟨c, hc, hrip, hcs, hflags, _, _, hrsp, hspells, hbytes⟩ :=
    (h.armed himage).deliver (v := v) (by omega) error (by omega)
  have hlen := s.core.interruptWords_length error
  have hlt := (stackOf sym s.core top v).toNat_lt
  have hrun := run_exceptionStub sym herror hspells (by omega)
  have hmask : (-16 : UInt64) = ~~~15 := by decide
  have halign : (c.rsp &&& -16).toNat = c.rsp.toNat / 16 * 16 := by
    rw [hmask, toNat_and_not_fifteen]
  have hrsp' : (c.runEntry (exceptionStub sym v)).rsp.toNat = c.rsp.toNat / 16 * 16 - 8 := by
    rw [hrun, ← halign]
    exact toNat_sub_eight (by omega)
  refine ⟨c, hc, hrip.trans (if_pos hv), ?_, ?_, by omega, by omega, ?_, ?_, fun x hx => ?_⟩
  · rw [hrun]
  · rw [hrun]
    rfl
  · rw [hrun]
    exact hcs
  · rw [hrun]
    show c.rflags &&& ~~~0x400 &&& 0x600 = 0
    rw [hflags]
    exact flags_clear _
  · rw [hrun] at *
    exact hbytes x (by omega)

/-! ### Interrupt lines -/

/-- **The interrupt of the task model** is what the CPU makes of the tables in every run, but that
the CPU clears more of the flags for the handler. -/
theorem deliver_interrupt (himage : Image sym s₀.core.mem) (h : Runs sym s₀ s top) {irq : Nat}
    (hirq : irq < 16) : s.tables.deliver s.core (32 + irq) none =
      some { s.core.interrupt KERNEL_CODE_SELECTOR (sym.irqStub irq) with
        rflags := s.core.rflags &&& ~~~0x34300 } := by
  have harmed := h.armed himage
  obtain ⟨code, hcode, h64, hdpl⟩ := harmed.kernelCode
  have hgate := harmed.gate (v := 32 + irq) (by omega)
  have hnot : ¬ 32 + irq = 8 := by omega
  have hstub : stub sym (32 + irq) = sym.irqStub irq := by
    rw [stub, if_neg (by omega), Nat.add_sub_cancel_left]
  have hbase : s.tables.baseFor s.core 0 = s.core.frameBase := by
    have hstack := harmed.stackFor (32 + irq)
    rw [if_neg hnot, stackOf, if_neg hnot, ← harmed.core] at hstack
    rw [TableRegs.baseFor, hstack]
    rfl
  rw [if_neg hnot, hstub] at hgate
  simp only [TableRegs.deliver, hgate, hcode]
  rw [if_pos ⟨trivial, trivial, h64, hdpl⟩, hbase, UInt64.ofNat_toNat]
  rfl

/-! ### A program that is interrupted -/

def sampleSymbols : TrapSymbols where
  gdt := 0x110000
  tss := 0x111004
  idt := 0x112000
  ring0Stack := 0x120000
  doubleFaultStack := 0x130000
  exceptionStub v := .ofNat (0x140000 + 32 * v)
  cpuExceptionHandler := 0x150000
  irqStub irq := .ofNat (0x160000 + 64 * irq)
  irqReturn irq := .ofNat (0x160020 + 64 * irq)
  task := {
    irqStub := 0x160000
    irqHandler := 0x151000
    irqReturn := 0x160020
    switchReturn := 0x170000
    userTaskBootstrap := 0x171000
    kernelTaskBootstrap := 0x172000
    user_ne := by decide
    kernel_ne := by decide
    bootstrap_ne := by decide }
  gdt_lt := by decide
  tss_lt := by decide
  idt_lt := by decide
  ring0_lt := by decide
  doubleFault_lt := by decide
  doubleFault_align := by decide
  gdt_tss := by decide
  gdt_idt := by decide
  tss_idt := by decide

/-- The kernel has just been loaded. -/
def sampleStart : TrapMachine where
  core := {
    gpr _ := 0
    rsp := 0x180000
    rip := 0x100000
    cs := 0x08
    rflags := 2
    ss := 0x10
    rsp0 := 0
    mem := storeWords ⟨fun _ => 0, []⟩ sampleSymbols.gdt Gdt.GDT }
  tables := ⟨0, 0, 0, 0, 0, 0⟩

theorem sampleStart_image : Image sampleSymbols sampleStart.core.mem where
  gdt := spells_storeWords _ _ _
  idt v _ := by
    intro k hk
    have hzero : IdtEntry.missing.bytes = List.replicate 16 0 := by decide
    rw [IdtEntry.length_bytes] at hk
    have hoff : sampleStart.core.mem.bytes (sampleSymbols.idt + 16 * v + k) = 0 :=
      bytes_storeWords (.inr (by
        show 0x110000 + 56 ≤ 0x112000 + 16 * v + k
        omega))
    rw [hoff, hzero, List.getD_replicate _ hk]

theorem sample_runs : ∃ s, Runs sampleSymbols sampleStart s 0x124000 ∧ s.core.cs = 0x23 := by
  obtain ⟨s₁, hinit, _⟩ := @Gdt.init_spec sampleSymbols sampleStart sampleStart_image.gdt
  have hboot := Runs.boot s₁.core hinit (fun x _ => rfl) rfl
  have htop : UInt64.ofNat (Gdt.ring0StackTop sampleSymbols) = 0x124000 := by decide
  rw [htop] at hboot
  generalize init sampleSymbols _ = s at hboot
  exact ⟨_, hboot.other { s.core with cs := 0x23 } (fun x _ => rfl) rfl, rfl⟩

/-- It may make a page fault. -/
theorem exception_enters_pageFault : ∃ (s : TrapMachine) (c : Core), s.core.cs = 0x23 ∧
    s.tables.deliver s.core 14 (some 4) = some c ∧
    Entered sampleSymbols s.core 14 (some 4) 0x124000
      (c.runEntry (exceptionStub sampleSymbols 14)) := by
  obtain ⟨s, hruns, hcs⟩ := sample_runs
  have hstack : stackOf sampleSymbols s.core 0x124000 14 = 0x124000 := by
    rw [stackOf, if_neg (by decide), Core.userMode, hcs]
    rfl
  obtain ⟨c, hc, _, hentered⟩ := exception_enters sampleStart_image hruns (v := 14) (by decide)
    (show (some (4 : UInt64)).isSome ↔ 14 ∈ TableRegs.errorCodes by decide) (by rw [hstack]; decide)
  rw [hstack] at hentered
  exact ⟨s, c, hcs, hc, hentered⟩

theorem deliver_interrupt_timer : ∃ s : TrapMachine, s.core.cs = 0x23 ∧
    s.tables.deliver s.core 32 none =
      some { s.core.interrupt KERNEL_CODE_SELECTOR 0x160000 with
        rflags := s.core.rflags &&& ~~~0x34300 } := by
  obtain ⟨s, hruns, hcs⟩ := sample_runs
  exact ⟨s, hcs, deliver_interrupt sampleStart_image hruns (show 0 < 16 by decide)⟩

end Idt

end Zeronix
