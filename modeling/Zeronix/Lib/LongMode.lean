import Zeronix.Lib.Interrupts
import Zeronix.Lib.Paging
import Mathlib.Logic.Function.Basic

/-!
# Into long mode

An x86 that starts in 32-bit protected mode with flat segments, and the instructions that take it
to 64-bit code: they write page tables, load the control registers and a new code segment, and
jump.  From the moment that paging is on, every instruction is fetched, and every operand found,
through the page tables that are in memory then.

Code is laid out at physical addresses, each instruction with its size and with the width that it
was assembled for (`Placed`).  What a block of instructions does can be computed without looking at
where it lies (`run_block`), as long as it is found there.

Paging other than that of long mode, SMEP and SMAP are not part of it, and neither is `rep stosb`
under paging.  A fault is `none`.
-/

/-! ### Words written in halves -/

namespace Memory

variable {m : Memory} {a b x : Nat} {l : List (Nat × Nat)}

theorem load_copy_apart {bytes : List UInt8} (h : b + 8 ≤ a ∨ a + bytes.length ≤ b) :
    (m.copy a bytes).load b = m.load b := by
  refine readLE_congr fun y h₁ h₂ => bytes_copy ?_
  omega

/-- The low half of a word that is zero. -/
theorem load_copy_low (h : m.load a = 0) (hx : x < 2 ^ 32) :
    (m.copy a (leBytes 4 x)).load a = x := by
  have hlow := (holds_copy m a (leBytes 4 x)).readLE
  have hhigh : readLE (m.copy a (leBytes 4 x)).bytes (a + 4) 4 = readLE m.bytes (a + 4) 4 :=
    readLE_congr fun y h₁ _ => bytes_copy (.inr (by rw [length_leBytes]; exact h₁))
  have hzero : readLE m.bytes (a + 4) 4 = 0 := by
    rw [load, show 8 = 4 + 4 from rfl, readLE_add] at h
    omega
  rw [load, show 8 = 4 + 4 from rfl, readLE_add, hlow, hhigh, hzero, Nat.mul_zero, Nat.add_zero]
  exact Nat.mod_eq_of_lt hx

/-- The low halves of several words. -/
def writeLows (m : Memory) (l : List (Nat × Nat)) : Memory :=
  l.foldl (fun m e => m.copy e.1 (leBytes 4 e.2)) m

theorem bytes_writeLows {y : Nat} (h : ∀ e ∈ l, y < e.1 ∨ e.1 + 4 ≤ y) :
    (m.writeLows l).bytes y = m.bytes y := by
  induction l generalizing m with
  | nil => rfl
  | cons e l ih =>
    rw [writeLows, List.foldl_cons]
    refine (ih fun e' he' => h e' (List.mem_cons_of_mem e he')).trans (bytes_copy ?_)
    exact h e List.mem_cons_self

theorem load_writeLows_apart (h : ∀ e ∈ l, Apart b e.1) : (m.writeLows l).load b = m.load b := by
  refine readLE_congr fun y h₁ h₂ => bytes_writeLows fun e he => ?_
  rcases h e he with h | h <;> omega

/-- Each word reads back, when they were zero and share no byte. -/
theorem load_writeLows (hp : l.Pairwise fun e e' => Apart e.1 e'.1)
    (hl : ∀ e ∈ l, e.2 < 2 ^ 32 ∧ m.load e.1 = 0) :
    ∀ e ∈ l, (m.writeLows l).load e.1 = e.2 := by
  induction l generalizing m with
  | nil =>
    intro e he
    simp at he
  | cons e l ih =>
    obtain ⟨hlt, hzero⟩ := hl e List.mem_cons_self
    obtain ⟨hapart, hp⟩ := List.pairwise_cons.mp hp
    rw [List.forall_mem_cons]
    constructor
    · rw [writeLows, List.foldl_cons]
      exact (load_writeLows_apart hapart).trans (load_copy_low hzero hlt)
    · refine ih hp fun e' he' => ?_
      obtain ⟨hlt', hzero'⟩ := hl e' (List.mem_cons_of_mem e he')
      refine ⟨hlt', (load_copy_apart ?_).trans hzero'⟩
      rw [length_leBytes]
      rcases hapart e' he' with h | h <;> omega

end Memory

namespace Zeronix

namespace LongMode

open Memory Paging

inductive Reg where
  | ax | cx | dx | bx | sp | di | si
  deriving DecidableEq, Repr

inductive DataSeg where
  | ds | es | fs | gs | ss
  deriving DecidableEq, Repr

inductive Cr where
  | cr0 | cr3 | cr4
  deriving DecidableEq, Repr

/-- The CPU.  `code` is the part of `CS` that comes from its descriptor, `backward` the direction
flag. -/
structure Bsp where
  reg : Reg → Nat
  ip : Nat
  code : Segment
  seg : DataSeg → Nat
  cr0 : Nat
  cr3 : Nat
  cr4 : Nat
  efer : Nat
  gdtBase : Nat
  gdtLimit : Nat
  backward : Bool
  mem : Memory

inductive BootInstr where
  /-- `movl $v, %r`, or `movabs` -/
  | movImm (r : Reg) (v : Nat)
  /-- `movw $v, %r` -/
  | movWord (r : Reg) (v : Nat)
  /-- `movl %r, a` -/
  | storeAbs (a : Nat) (r : Reg)
  /-- `movl a, %r` -/
  | loadAbs (r : Reg) (a : Nat)
  /-- `movl %r, offset(%base)` -/
  | storeAt (base : Reg) (offset : Nat) (r : Reg)
  | addImm (r : Reg) (v : Nat)
  | orImm (r : Reg) (v : Nat)
  /-- `xorl %r, %r` -/
  | clear (r : Reg)
  | repStosb
  | readCr (r : Reg) (n : Cr)
  | writeCr (n : Cr) (r : Reg)
  /-- `lgdt a`, with a 6-byte pointer at `a` -/
  | lgdt (a : Nat)
  | rdmsr
  | wrmsr
  | pushImm (v : Nat)
  | lret
  | movSeg (s : DataSeg) (r : Reg)
  | jmp (r : Reg)
  | call (target : Nat)
  deriving DecidableEq

def IA32_EFER : Nat := 0xC0000080

namespace Bsp

/-! ### Addresses -/

def paging (c : Bsp) : Bool := c.cr0.testBit 31

/-- The CPU runs 64-bit code. -/
def wide (c : Bsp) : Bool := c.paging && c.efer.testBit 8 && decide c.code.Code64

/-- The physical address of `n` bytes that lie one behind the other, on at most two pages. -/
def range (c : Bsp) (v n : Nat) (ok : Rights → Bool) : Option Nat :=
  if c.paging then do
    let first ← translate c.mem c.cr3 v
    let last ← translate c.mem c.cr3 (v + (n - 1))
    if ok first.rights && ok last.rights && last.phys == first.phys + (n - 1) then some first.phys
    else none
  else some v

/-- Ring 0 obeys `writable` only under `CR0.WP`. -/
def mayWrite (c : Bsp) (r : Rights) : Bool := r.writable || !c.cr0.testBit 16

def load (c : Bsp) (v n : Nat) : Option Nat :=
  (c.range v n fun _ => true).map fun p => readLE c.mem.bytes p n

def store (c : Bsp) (v n x : Nat) : Option Bsp :=
  (c.range v n c.mayWrite).map fun p => { c with mem := c.mem.copy p (leBytes n x) }

/-- The descriptor of a selector. -/
def segment (c : Bsp) (selector : Nat) : Option Segment :=
  if selector / 8 ≠ 0 ∧ selector / 8 * 8 + 7 ≤ c.gdtLimit then
    (c.load (c.gdtBase + selector / 8 * 8) 8).map .ofWord
  else none

/-! ### Instructions -/

def setReg (c : Bsp) (r : Reg) (v : Nat) : Bsp := { c with reg := Function.update c.reg r v }

/-- The low half of a register. -/
def low (c : Bsp) (r : Reg) : Nat := c.reg r % 2 ^ 32

def cr (c : Bsp) : Cr → Nat
  | .cr0 => c.cr0
  | .cr3 => c.cr3
  | .cr4 => c.cr4

/-- Paging is turned on for long mode only. -/
def setCr (c : Bsp) (v : Nat) : Cr → Option Bsp
  | .cr0 =>
    if v.testBit 31 && !(v.testBit 0 && c.cr4.testBit 5 && c.efer.testBit 8) then none
    else some { c with cr0 := v }
  | .cr3 => some { c with cr3 := v }
  | .cr4 => some { c with cr4 := v }

/-- `rep stosb`, in the direction that the flag gives. -/
def stosb (c : Bsp) : Option Bsp :=
  let n := c.low .cx
  let a := c.low .di
  if c.paging then none
  else if c.backward then
    if n ≤ a + 1 then
      some { ((c.setReg .cx 0).setReg .di (a - n)) with
        mem := c.mem.fill (a + 1 - n) n (.ofNat (c.reg .ax)) }
    else none
  else
    some { ((c.setReg .cx 0).setReg .di (a + n)) with
      mem := c.mem.fill a n (.ofNat (c.reg .ax)) }

/-- A return to another segment, with 32-bit words on the stack. -/
def farReturn (c : Bsp) : Option Bsp := do
  let ip ← c.load (c.low .sp) 4
  let selector ← c.load (c.low .sp + 4) 4
  let s ← c.segment (selector % 2 ^ 16)
  if s.present = 1 ∧ s.type / 8 = 3 ∧ s.dpl = 0 ∧ selector % 4 = 0 then
    some { c.setReg .sp ((c.low .sp + 8) % 2 ^ 32) with ip := ip, code := s }
  else none

def setSeg (c : Bsp) (s : DataSeg) (selector : Nat) : Option Bsp := do
  let d ← c.segment selector
  if d.Writable ∧ d.dpl = 0 ∧ selector % 4 = 0 then
    some { c with seg := Function.update c.seg s selector }
  else none

def exec (c : Bsp) : BootInstr → Option Bsp
  | .movImm r v => some (c.setReg r v)
  | .movWord r v => some (c.setReg r (c.reg r / 2 ^ 16 * 2 ^ 16 + v))
  | .storeAbs a r => c.store a 4 (c.low r)
  | .loadAbs r a => (c.load a 4).map (c.setReg r)
  | .storeAt base offset r => c.store ((c.low base + offset) % 2 ^ 32) 4 (c.low r)
  | .addImm r v => some (c.setReg r ((c.low r + v) % 2 ^ 32))
  | .orImm r v => some (c.setReg r (c.low r ||| v))
  | .clear r => some (c.setReg r 0)
  | .repStosb => c.stosb
  | .readCr r n => some (c.setReg r (c.cr n % 2 ^ 32))
  | .writeCr n r => c.setCr (c.low r) n
  | .lgdt a => do
    let limit ← c.load a 2
    let base ← c.load (a + 2) 4
    return { c with gdtBase := base, gdtLimit := limit }
  | .rdmsr =>
    if c.low .cx = IA32_EFER then
      some ((c.setReg .ax (c.efer % 2 ^ 32)).setReg .dx (c.efer / 2 ^ 32 % 2 ^ 32))
    else none
  | .wrmsr =>
    if c.low .cx = IA32_EFER then some { c with efer := c.low .ax + 2 ^ 32 * c.low .dx } else none
  | .pushImm v =>
    let sp := (c.low .sp + (2 ^ 32 - 4)) % 2 ^ 32
    (c.store sp 4 v).map fun c => c.setReg .sp sp
  | .lret => c.farReturn
  | .movSeg s r => c.setSeg s (c.reg r % 2 ^ 16)
  | .jmp r => some { c with ip := c.reg r }
  | .call target =>
    let sp := (c.reg .sp + (2 ^ 64 - 8)) % 2 ^ 64
    (c.store sp 8 c.ip).map fun c => { c.setReg .sp sp with ip := target }

end Bsp

/-! ### Programs -/

/-- An instruction where it stands in memory. -/
structure Coded where
  instr : BootInstr
  size : Nat
  wide : Bool
  deriving DecidableEq

variable {code : Nat → Option Coded} {c c' : Bsp} {wide : Bool} {a b d v n : Nat} {i : BootInstr}
variable {is is' : List BootInstr}

/-- Fetch the instruction at `ip` and execute it. -/
def step (code : Nat → Option Coded) (c : Bsp) : Option Bsp := do
  let first ← c.range c.ip 1 (·.exec)
  let i ← code first
  let _ ← c.range c.ip i.size (·.exec)
  if i.wide = c.wide then Bsp.exec { c with ip := c.ip + i.size } i.instr else none

def run (code : Nat → Option Coded) : Nat → Bsp → Option Bsp
  | 0, c => some c
  | n + 1, c => (step code c).bind (run code n)

/-- The instructions stand one behind the other from `a` to `b`. -/
def Placed (code : Nat → Option Coded) (wide : Bool) : Nat → List BootInstr → Nat → Prop
  | a, [], b => a = b
  | a, i :: is, b =>
    ∃ n, 0 < n ∧ code a = some { instr := i, size := n, wide := wide } ∧
      Placed code wide (a + n) is b

theorem Placed.le (h : Placed code wide a is b) : a ≤ b := by
  induction is generalizing a with
  | nil => exact le_of_eq h
  | cons i is ih =>
    obtain ⟨n, _, _, hrest⟩ := h
    exact le_trans (Nat.le_add_right a n) (ih hrest)

theorem placed_append : Placed code wide a (is ++ is') b ↔
    ∃ m, Placed code wide a is m ∧ Placed code wide m is' b := by
  induction is generalizing a with
  | nil => exact ⟨fun h => ⟨a, rfl, h⟩, fun ⟨m, hm, h⟩ => by subst hm; exact h⟩
  | cons i is ih =>
    constructor
    · rintro ⟨n, hn, hi, hrest⟩
      obtain ⟨m, h, h'⟩ := ih.mp hrest
      exact ⟨m, ⟨n, hn, hi, h⟩, h'⟩
    · rintro ⟨m, ⟨n, hn, hi, h⟩, h'⟩
      exact ⟨n, hn, hi, ih.mpr ⟨m, h, h'⟩⟩

/-- Instructions of one size. -/
theorem placed_of_getElem {size : Nat} (hs : 0 < size)
    (h : ∀ k i, is[k]? = some i →
      code (a + k * size) = some { instr := i, size := size, wide := wide }) :
    Placed code wide a is (a + is.length * size) := by
  induction is generalizing a with
  | nil => exact (by simp : a = a + 0 * size)
  | cons i is ih =>
    have hfirst := h 0 i rfl
    rw [Nat.zero_mul, Nat.add_zero] at hfirst
    refine ⟨size, hs, hfirst, ?_⟩
    have hrest := ih (a := a + size) fun k j hj => by
      have hnext := h (k + 1) j hj
      rwa [Nat.succ_mul, Nat.add_comm (k * size), ← Nat.add_assoc] at hnext
    rwa [List.length_cons, Nat.succ_mul, Nat.add_comm (is.length * size), ← Nat.add_assoc]

theorem run_add (n k : Nat) (c : Bsp) : run code (n + k) c = (run code n c).bind (run code k) := by
  induction n generalizing c with
  | zero => rw [Nat.zero_add, run, Option.bind_some]
  | succ n ih =>
    rw [Nat.add_right_comm, run, run, Option.bind_assoc]
    exact congrArg _ (funext ih)

/-- The code between the physical addresses `a` and `b` is found at a distance of `d`, and may be
executed with the given width. -/
structure Bsp.Fetches (c : Bsp) (wide : Bool) (a b d : Nat) : Prop where
  range : ∀ {v n}, a ≤ v → 0 < n → v + n ≤ b → c.range (v + d) n (·.exec) = some v
  width : c.wide = wide

theorem Bsp.Fetches.mono {a' b' : Nat} (h : c.Fetches wide a b d) (ha : a ≤ a') (hb : b' ≤ b) :
    c.Fetches wide a' b' d where
  range := fun hv hn hle => h.range (le_trans ha hv) hn (le_trans hle hb)
  width := h.width

/-- **One instruction** of a program that is found. -/
theorem step_placed (hp : Placed code wide a (i :: is) b) (hf : c.Fetches wide a b d)
    (hip : c.ip = a + d) : ∃ m, Placed code wide m is b ∧ a ≤ m ∧
      step code c = { c with ip := m + d }.exec i := by
  obtain ⟨n, hn, hi, hrest⟩ := hp
  have hle := hrest.le
  refine ⟨a + n, hrest, Nat.le_add_right a n, ?_⟩
  simp only [step, Option.bind_eq_bind]
  rw [hip, hf.range (le_refl a) Nat.one_pos (by omega), Option.bind_some, hi, Option.bind_some,
    hf.range (le_refl a) hn hle, Option.bind_some, if_pos hf.width.symm, Nat.add_right_comm]

/-! ### Blocks -/

/-- Neither a jump nor a push, and it does not turn paging on. -/
def BootInstr.plain : BootInstr → Bool
  | .writeCr .cr0 _ | .pushImm _ | .lret | .jmp _ | .call _ => false
  | _ => true

/-- The instructions one after the other, wherever they stand. -/
def Bsp.execAll (c : Bsp) (is : List BootInstr) : Option Bsp := is.foldlM Bsp.exec c

theorem Bsp.execAll_cons (c : Bsp) (i : BootInstr) (is : List BootInstr) :
    c.execAll (i :: is) = (c.exec i).bind (·.execAll is) := List.foldlM_cons

theorem Bsp.execAll_append (c : Bsp) (is is' : List BootInstr) :
    c.execAll (is ++ is') = (c.execAll is).bind (·.execAll is') := List.foldlM_append

theorem Bsp.store_ip (c : Bsp) (x v n y : Nat) :
    { c with ip := x }.store v n y = (c.store v n y).map ({ · with ip := x }) := by
  rw [store, store, Option.map_map]
  rfl

/-- A plain instruction does not look at where it stands. -/
theorem Bsp.exec_ip (hi : i.plain = true) (c : Bsp) (x : Nat) :
    { c with ip := x }.exec i = (c.exec i).map ({ · with ip := x }) := by
  cases i with
  | movImm r v | movWord r v | addImm r v | orImm r v | clear r | readCr r n => rfl
  | storeAbs a r | storeAt base offset r => exact c.store_ip x _ _ _
  | loadAbs r a =>
    rw [exec, exec, Option.map_map]
    rfl
  | repStosb =>
    simp only [exec, stosb, apply_ite (Option.map _), Option.map_none, Option.map_some]
    rfl
  | writeCr n r =>
    cases n with
    | cr0 => simp [BootInstr.plain] at hi
    | cr3 | cr4 => rfl
  | lgdt a =>
    have hload : ∀ v n, { c with ip := x }.load v n = c.load v n := fun _ _ => rfl
    simp only [exec, hload]
    cases c.load a 2 with
    | none => rfl
    | some limit =>
      cases c.load (a + 2) 4 with
      | none => rfl
      | some base => rfl
  | rdmsr | wrmsr =>
    simp only [exec, apply_ite (Option.map _), Option.map_none, Option.map_some]
    rfl
  | movSeg s r =>
    have hsegment : ∀ n, { c with ip := x }.segment n = c.segment n := fun _ => rfl
    simp only [exec, setSeg, hsegment]
    cases c.segment (c.reg r % 2 ^ 16) with
    | none => rfl
    | some d =>
      simp only [Option.bind_eq_bind, Option.bind_some, apply_ite (Option.map _), Option.map_none,
        Option.map_some]
  | pushImm v | lret | jmp r | call target => simp [BootInstr.plain] at hi

theorem Bsp.execAll_ip (x : Nat) (his : ∀ i ∈ is, i.plain = true) : ∀ c : Bsp,
    { c with ip := x }.execAll is = (c.execAll is).map ({ · with ip := x }) := by
  induction is with
  | nil => exact fun c => rfl
  | cons i is ih =>
    intro c
    rw [execAll_cons, execAll_cons, exec_ip (his i List.mem_cons_self)]
    cases c.exec i with
    | none => rfl
    | some c' => exact ih (fun i hi => his i (List.mem_cons_of_mem _ hi)) c'

/-- **A block** of plain instructions runs as they do one after the other, as long as what has been
executed of it leaves it in reach. -/
theorem run_block {P : Bsp → Prop} (hf : ∀ {c}, P c → c.Fetches wide a b d)
    (hP : ∀ {c} {x}, P c → P { c with ip := x })
    (hkeep : ∀ i ∈ is, i.plain = true ∧ ∀ {c c'}, P c → c.exec i = some c' → P c') :
    ∀ {c c' v}, P c → a ≤ v → Placed code wide v is b → c.ip = v + d → c.execAll is = some c' →
      run code is.length c = some { c' with ip := b + d } := by
  induction is with
  | nil =>
    intro c c' v _ _ hp hip he
    obtain rfl : v = b := hp
    obtain rfl : c = c' := Option.some.inj he
    rw [← hip]
    rfl
  | cons i is ih =>
    intro c c' v hc hv hp hip he
    obtain ⟨hplain, hi⟩ := hkeep i List.mem_cons_self
    obtain ⟨m, hrest, hle, hstep⟩ := step_placed hp ((hf hc).mono hv (le_refl b)) hip
    rw [Bsp.execAll_cons] at he
    obtain ⟨c₁, h₁, he⟩ := Option.bind_eq_some_iff.mp he
    rw [List.length_cons, run, hstep, Bsp.exec_ip hplain, h₁, Option.map_some, Option.bind_some]
    have hlater : ∀ i ∈ is, i.plain = true := fun i hi => (hkeep i (List.mem_cons_of_mem _ hi)).1
    have he : Bsp.execAll { c₁ with ip := m + d } is = some { c' with ip := m + d } := by
      rw [Bsp.execAll_ip _ hlater, he]
      rfl
    have hrun := ih (fun i hi => hkeep i (List.mem_cons_of_mem _ hi)) (hP (hi hc h₁))
      (le_trans hv hle) hrest rfl he
    exact hrun

theorem Bsp.store_eq {x : Nat} (h : c.store v n x = some c') :
    ∃ p, c.range v n c.mayWrite = some p ∧ c' = { c with mem := c.mem.copy p (leBytes n x) } := by
  obtain ⟨p, hp, rfl⟩ := Option.map_eq_some_iff.mp h
  exact ⟨p, hp, rfl⟩

/-- A plain instruction does not turn paging on. -/
theorem Bsp.exec_plain (hi : i.plain = true) (h : c.exec i = some c') : c'.cr0 = c.cr0 := by
  cases i with
  | movImm r v | movWord r v | addImm r v | orImm r v | clear r | readCr r n =>
    obtain rfl := Option.some.inj h
    rfl
  | storeAbs a r | storeAt base offset r =>
    obtain ⟨p, _, rfl⟩ := store_eq h
    rfl
  | loadAbs r a =>
    obtain ⟨x, _, rfl⟩ := Option.map_eq_some_iff.mp h
    rfl
  | repStosb =>
    simp only [exec, stosb] at h
    split_ifs at h <;> (obtain rfl := Option.some.inj h; rfl)
  | writeCr n r =>
    cases n with
    | cr0 => simp [BootInstr.plain] at hi
    | cr3 | cr4 =>
      obtain rfl := Option.some.inj h
      rfl
  | lgdt a =>
    simp only [exec, Option.bind_eq_bind, Option.bind_eq_some_iff] at h
    obtain ⟨limit, _, base, _, h⟩ := h
    obtain rfl := Option.some.inj h
    rfl
  | rdmsr | wrmsr =>
    simp only [exec] at h
    split_ifs at h
    obtain rfl := Option.some.inj h
    rfl
  | movSeg s r =>
    simp only [exec, setSeg, Option.bind_eq_bind, Option.bind_eq_some_iff] at h
    obtain ⟨d, _, h⟩ := h
    split_ifs at h
    obtain rfl := Option.some.inj h
    rfl
  | pushImm v | lret | jmp r | call target => simp [BootInstr.plain] at hi

/-- Without paging everything is where its address says. -/
theorem Bsp.fetches_flat (h : c.paging = false) : c.Fetches false a b 0 where
  range := by
    intro v n _ _ _
    rw [Bsp.range, h, Nat.add_zero]
    rfl
  width := by rw [wide, h]; rfl

/-- **A block without paging.** -/
theorem run_flat (h : c.paging = false) (his : ∀ i ∈ is, i.plain = true)
    (hp : Placed code false c.ip is b) (he : c.execAll is = some c') :
    run code is.length c = some { c' with ip := b } := by
  refine run_block (P := fun c => c.paging = false) (a := c.ip) (d := 0) Bsp.fetches_flat
    (fun h => h) (fun i hi => ⟨his i hi, fun {c c'} h he => ?_⟩) h (le_refl _) hp rfl he
  show c'.cr0.testBit 31 = false
  rw [Bsp.exec_plain (his i hi) he]
  exact h

/-- It writes registers only, and none that decides where code is found. -/
def BootInstr.quiet : BootInstr → Bool
  | .movImm _ _ | .movWord _ _ | .loadAbs _ _ | .addImm _ _ | .orImm _ _ | .clear _ | .readCr _ _
  | .movSeg _ _ => true
  | _ => false

/-- The same code is found in the same way. -/
structure Bsp.SameView (c c' : Bsp) : Prop where
  mem : c'.mem = c.mem
  cr0 : c'.cr0 = c.cr0
  cr3 : c'.cr3 = c.cr3
  efer : c'.efer = c.efer
  code : c'.code = c.code

theorem Bsp.SameView.trans {c'' : Bsp} (h : c.SameView c') (h' : c'.SameView c'') :
    c.SameView c'' :=
  ⟨h'.mem.trans h.mem, h'.cr0.trans h.cr0, h'.cr3.trans h.cr3, h'.efer.trans h.efer,
    h'.code.trans h.code⟩

theorem Bsp.Fetches.same (h : c.Fetches wide a b d) (hs : c.SameView c') :
    c'.Fetches wide a b d where
  range := by
    intro v n h₁ h₂ h₃
    rw [← h.range h₁ h₂ h₃, Bsp.range, Bsp.range, paging, paging, hs.cr0, hs.mem, hs.cr3]
  width := by rw [← h.width, Bsp.wide, Bsp.wide, paging, paging, hs.cr0, hs.efer, hs.code]

theorem Bsp.exec_quiet (hi : i.quiet = true) (h : c.exec i = some c') : c.SameView c' := by
  cases i with
  | movImm r v | movWord r v | addImm r v | orImm r v | clear r | readCr r n =>
    obtain rfl := Option.some.inj h
    exact ⟨rfl, rfl, rfl, rfl, rfl⟩
  | loadAbs r a =>
    obtain ⟨x, _, rfl⟩ := Option.map_eq_some_iff.mp h
    exact ⟨rfl, rfl, rfl, rfl, rfl⟩
  | movSeg s r =>
    simp only [exec, setSeg, Option.bind_eq_bind, Option.bind_eq_some_iff] at h
    obtain ⟨d, _, h⟩ := h
    split_ifs at h
    obtain rfl := Option.some.inj h
    exact ⟨rfl, rfl, rfl, rfl, rfl⟩
  | storeAbs | storeAt | repStosb | writeCr | lgdt | rdmsr | wrmsr | pushImm | lret | jmp | call =>
    simp [BootInstr.quiet] at hi

theorem BootInstr.plain_of_quiet {i : BootInstr} (h : i.quiet = true) : i.plain = true := by
  cases i with
  | movImm | movWord | loadAbs | addImm | orImm | clear | readCr | movSeg => rfl
  | storeAbs | storeAt | repStosb | writeCr | lgdt | rdmsr | wrmsr | pushImm | lret | jmp | call =>
    simp [BootInstr.quiet] at h

/-- **A block that writes registers only.** -/
theorem run_quiet (hf : c.Fetches wide a b d) (his : ∀ i ∈ is, i.quiet = true)
    (hp : Placed code wide a is b) (hip : c.ip = a + d) (he : c.execAll is = some c') :
    run code is.length c = some { c' with ip := b + d } := by
  have hkeep : ∀ i ∈ is, i.plain = true ∧ ∀ {c₁ c₂ : Bsp}, c.SameView c₁ → c₁.exec i = some c₂ →
      c.SameView c₂ := fun i hi =>
    ⟨BootInstr.plain_of_quiet (his i hi), fun h he => h.trans (Bsp.exec_quiet (his i hi) he)⟩
  exact run_block (P := c.SameView) hf.same (fun h => ⟨h.mem, h.cr0, h.cr3, h.efer, h.code⟩) hkeep
    ⟨rfl, rfl, rfl, rfl, rfl⟩ (le_refl a) hp hip he

end LongMode

end Zeronix
