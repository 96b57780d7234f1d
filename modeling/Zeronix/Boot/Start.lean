import Zeronix.Lib.LongMode
import Zeronix.Mem.Page

/-!
# From the boot loader to `kernel_main`

`src/boot.S`: the loader enters `_start` in 32-bit protected mode.  The code writes three page
tables that show the first 8 MiB twice, at their own addresses and from `KERNEL_VMA` on, turns on
long mode and paging, and calls `kernel_main` at its high address.

The code goes on at its low address when paging comes on, its stack stays low for good, and only
the last jump moves it up: it depends on both windows (`bootMap`).  `linker.ld` puts `.boot` at
1 MiB and `.bootdata` at 4 MiB; that the image ends below 8 MiB is what `boot.S` says of the map.
-/

namespace Zeronix

namespace Boot

open Memory Paging LongMode

/-! ### Data -/

/-- The labels of `.bootdata`, in the order of the source. -/
def pml4 : Nat := BOOTDATA_START
def pdpt : Nat := pml4 + 4096
def pd : Nat := pdpt + 4096
def stackBottom : Nat := pd + 4096
def stackTop : Nat := stackBottom + 16384
def mbiPtr : Nat := stackTop
def magicNum : Nat := mbiPtr + 4
def gdt64 : Nat := magicNum + 4
def gdt64Ptr : Nat := gdt64 + 24

/-- A null descriptor, 64-bit code and data, and the 6-byte pointer behind them. -/
def gdtBytes : List UInt8 :=
  leBytes 8 0 ++ leBytes 8 0x00af9a000000ffff ++ leBytes 8 0x00cf92000000ffff ++
    leBytes 2 (gdt64Ptr - gdt64 - 1) ++ leBytes 4 gdt64

/-! ### Code -/

/-- Where the linker puts the code. -/
structure BootSymbols where
  start : Nat
  longModeEntry : Nat
  longModeHigh : Nat
  kernelMain : Nat

def saveParameters : List BootInstr :=
  [.movImm .sp stackTop, .storeAbs mbiPtr .bx, .storeAbs magicNum .ax]

def clearTables : List BootInstr :=
  [.movImm .di pml4, .clear .ax, .movImm .cx 0x3000, .repStosb]

/-- `PML4[0]` and `PML4[256]` to the PDPT, and `PDPT[0]` to the PD. -/
def linkTables : List BootInstr :=
  [.movImm .di pml4, .movImm .ax pdpt, .orImm .ax 0x03, .storeAt .di 0 .ax,
    .movImm .di pml4, .addImm .di 2048, .movImm .ax pdpt, .orImm .ax 0x03, .storeAt .di 0 .ax,
    .movImm .di pdpt, .movImm .ax pd, .orImm .ax 0x03, .storeAt .di 0 .ax]

/-- Four pages of 2 MiB. -/
def mapPages : List BootInstr :=
  [.movImm .di pd, .movImm .ax 0x83, .storeAt .di 0 .ax,
    .addImm .ax 0x200000, .storeAt .di 8 .ax,
    .addImm .ax 0x200000, .storeAt .di 16 .ax,
    .addImm .ax 0x200000, .storeAt .di 24 .ax]

def loadTables : List BootInstr :=
  [.movImm .ax pml4, .writeCr .cr3 .ax, .lgdt gdt64Ptr]

/-- PAE and PGE, then LME and NXE. -/
def enableLongMode : List BootInstr :=
  [.readCr .ax .cr4, .orImm .ax 0xA0, .writeCr .cr4 .ax,
    .movImm .cx 0xC0000080, .rdmsr, .orImm .ax 0x900, .wrmsr]

/-- Up to the instruction that turns paging on. -/
def beforePaging : List BootInstr :=
  saveParameters ++ clearTables ++ linkTables ++ mapPages ++ loadTables ++ enableLongMode ++
    [.readCr .ax .cr0, .orImm .ax 0x80000000]

def startCode (s : BootSymbols) : List BootInstr :=
  beforePaging ++ [.writeCr .cr0 .ax, .pushImm 0x08, .pushImm s.longModeEntry, .lret]

def loadSegments : List BootInstr :=
  [.movWord .ax 0x10, .movSeg .ds .ax, .movSeg .es .ax, .movSeg .fs .ax, .movSeg .gs .ax,
    .movSeg .ss .ax]

def longModeEntryCode (s : BootSymbols) : List BootInstr :=
  loadSegments ++ [.movImm .ax s.longModeHigh, .jmp .ax]

def restoreParameters : List BootInstr :=
  [.movImm .sp stackTop, .loadAbs .di mbiPtr, .loadAbs .si magicNum]

def longModeHighCode (s : BootSymbols) : List BootInstr :=
  restoreParameters ++ [.call s.kernelMain]

/-! ### The two windows -/

/-- The end of what the boot tables show. -/
def MAPPED : Nat := 0x800000

/-- The first 8 MiB, at their own addresses and from `KERNEL_VMA` on; ring 0 may do everything. -/
def bootMap (v : Nat) : Option Mapping :=
  if v < MAPPED then
    some { phys := v, rights := { writable := true, user := false, exec := true } }
  else if KERNEL_VMA ≤ v ∧ v < KERNEL_VMA + MAPPED then
    some { phys := v - KERNEL_VMA, rights := { writable := true, user := false, exec := true } }
  else none

/-- The words of the three tables. -/
structure BootTables (m : Memory) : Prop where
  first : ∀ i < 512, m.load (pml4 + 8 * i) = if i = 0 ∨ i = 256 then pdpt + 0x03 else 0
  second : ∀ i < 512, m.load (pdpt + 8 * i) = if i = 0 then pd + 0x03 else 0
  third : ∀ i < 512, m.load (pd + 8 * i) = if i < 4 then i * 0x200000 + 0x83 else 0

variable {m m' : Memory} {v : Nat}

/-- The rights below entries that are writable and not for ring 3. -/
def kernelRights : Rights := { writable := true, user := false, exec := true }

theorem large_entries : ∀ k < 4, (k * 0x200000 + 0x83).testBit 0 = true ∧
    (k * 0x200000 + 0x83).testBit 7 = true ∧
    kernelRights.below (k * 0x200000 + 0x83) = kernelRights ∧
    (k * 0x200000 + 0x83) / 2 ^ 21 % 2 ^ 31 = k := by decide

theorem BootTables.walk_pd (h : BootTables m) (v : Nat) :
    walk m v 2 pd kernelRights =
      if v % 2 ^ 30 < MAPPED then some { phys := v % 2 ^ 30, rights := kernelRights }
      else none := by
  have h₂ := h.third (v / 2 ^ 21 % 512) (Nat.mod_lt _ (by decide))
  rw [← entryAt_one] at h₂
  unfold MAPPED
  by_cases hi : v / 2 ^ 21 % 512 < 4
  · rw [if_pos hi] at h₂
    obtain ⟨hp, hl, hr, hframe⟩ := large_entries _ hi
    rw [walk_page h₂ hp (.inr ⟨hl, by decide⟩), hr, inPage_one, hframe, if_pos (by omega)]
    congr 2
    omega
  · rw [if_neg hi] at h₂
    rw [walk_absent h₂ (by decide), if_neg (by omega)]

/-- **The walk through the boot tables.** -/
theorem BootTables.translate (h : BootTables m) (v : Nat) :
    Paging.translate m pml4 v = bootMap v := by
  have hroot : tableOf pml4 = pml4 := by decide
  have hfirst : tableOf (pdpt + 3) = pdpt ∧ Rights.all.below (pdpt + 3) = kernelRights := by decide
  have hsecond : tableOf (pd + 3) = pd ∧ kernelRights.below (pd + 3) = kernelRights := by decide
  have h₄ := h.first (v / 2 ^ 39 % 512) (Nat.mod_lt _ (by decide))
  have h₃ := h.second (v / 2 ^ 30 % 512) (Nat.mod_lt _ (by decide))
  rw [← entryAt_three] at h₄
  rw [← entryAt_two] at h₃
  rw [Paging.translate, hroot]
  unfold bootMap KERNEL_VMA
  by_cases hcan : Canonical v
  · rw [if_pos hcan]
    unfold Canonical at hcan
    by_cases hi : v / 2 ^ 39 % 512 = 0 ∨ v / 2 ^ 39 % 512 = 256
    · rw [if_pos hi] at h₄
      rw [walk_table h₄ (by decide) (by decide), hfirst.1, hfirst.2]
      by_cases hj : v / 2 ^ 30 % 512 = 0
      · rw [if_pos hj] at h₃
        rw [walk_table h₃ (by decide) (by decide), hsecond.1, hsecond.2, h.walk_pd v]
        unfold MAPPED
        rcases hi with hi | hi
        · -- the low window
          have hv : v % 2 ^ 30 = v := by omega
          rw [hv]
          by_cases hlt : v < 0x800000
          · rw [if_pos hlt, if_pos hlt, kernelRights]
          · rw [if_neg hlt, if_neg hlt, if_neg (by omega)]
        · -- the window at `KERNEL_VMA`
          have hv : v % 2 ^ 30 = v - 0xFFFF800000000000 := by omega
          rw [hv, if_neg (show ¬ v < 0x800000 by omega)]
          by_cases hlt : v - 0xFFFF800000000000 < 0x800000
          · rw [if_pos hlt, if_pos (by omega), kernelRights]
          · rw [if_neg hlt, if_neg (by omega)]
      · rw [if_neg hj] at h₃
        rw [walk_absent h₃ (by decide)]
        unfold MAPPED
        rw [if_neg (by omega), if_neg (by omega)]
    · rw [if_neg hi] at h₄
      rw [walk_absent h₄ (by decide)]
      unfold MAPPED
      rw [if_neg (by omega), if_neg (by omega)]
  · rw [if_neg hcan]
    unfold Canonical at hcan
    unfold MAPPED
    rw [if_neg (by omega), if_neg (by omega)]

/-! ### What the code writes -/

/-- The entries that `boot.S` writes, as 32-bit words. -/
def linkWords : List (Nat × Nat) :=
  [(pml4, pdpt + 0x03), (pml4 + 2048, pdpt + 0x03), (pdpt, pd + 0x03)]

def pageWords : List (Nat × Nat) :=
  [(pd, 0x83), (pd + 8, 0x200083), (pd + 16, 0x400083), (pd + 24, 0x600083)]

def tableWords : List (Nat × Nat) := linkWords ++ pageWords

theorem bootTables_written (m : Memory) :
    BootTables ((m.fill pml4 0x3000 0).writeLows tableWords) := by
  have hzero : ∀ {a}, pml4 ≤ a → a + 8 ≤ pml4 + 0x3000 → (m.fill pml4 0x3000 0).load a = 0 :=
    fun h₁ h₂ => m.load_fill_zero h₁ h₂
  have hwords : ∀ e ∈ tableWords, e.2 < 2 ^ 32 ∧ pml4 ≤ e.1 ∧ e.1 + 8 ≤ pml4 + 0x3000 := by decide
  have hapart : tableWords.Pairwise fun e e' => e.1 + 8 ≤ e'.1 ∨ e'.1 + 8 ≤ e.1 := by decide
  have hword := load_writeLows hapart (m := m.fill pml4 0x3000 0) fun e he =>
    ⟨(hwords e he).1, hzero (hwords e he).2.1 (hwords e he).2.2⟩
  -- the entries that are not written
  have hother : ∀ {a}, pml4 ≤ a → a + 8 ≤ pml4 + 0x3000 →
      (∀ e ∈ tableWords, a + 8 ≤ e.1 ∨ e.1 + 8 ≤ a) →
      ((m.fill pml4 0x3000 0).writeLows tableWords).load a = 0 := fun h₁ h₂ h =>
    (load_writeLows_apart h).trans (hzero h₁ h₂)
  unfold tableWords linkWords pageWords pd pdpt at hother hword
  simp only [List.cons_append, List.nil_append, List.forall_mem_cons, List.not_mem_nil,
    IsEmpty.forall_iff, implies_true, and_true] at hother hword
  obtain ⟨h₀, h₁, h₂, h₃, h₄, h₅, h₆⟩ := hword
  refine ⟨fun i hi => ?_, fun i hi => ?_, fun i hi => ?_⟩
  · split_ifs with hentry
    · rcases hentry with rfl | rfl
      · exact h₀
      · exact h₁
    · exact hother (by omega) (by omega) (by omega)
  · split_ifs with hentry
    · subst hentry
      exact h₂
    · unfold pdpt
      exact hother (by omega) (by omega) (by omega)
  · split_ifs with hentry
    · rcases (by omega : i = 0 ∨ i = 1 ∨ i = 2 ∨ i = 3) with rfl | rfl | rfl | rfl
      · exact h₃
      · exact h₄
      · exact h₅
      · exact h₆
    · unfold pd pdpt
      exact hother (by omega) (by omega) (by omega)

/-! ### Before paging -/

variable {c c' : Bsp}

/-- The memory with the registers of the boot loader in `mbi_ptr` and `magic_num`. -/
def savedMemory (c : Bsp) : Memory :=
  (c.mem.copy mbiPtr (leBytes 4 (c.low .bx))).copy magicNum (leBytes 4 (c.low .ax))

/-- What the code leaves in memory before it turns paging on. -/
def bootMemory (c : Bsp) : Memory := ((savedMemory c).fill pml4 0x3000 0).writeLows tableWords

theorem bytes_saved {x : Nat} (h : x < pml4 ∨ pml4 + 0x3000 ≤ x) :
    (bootMemory c).bytes x = (savedMemory c).bytes x := by
  have hwords : ∀ e ∈ tableWords, pml4 ≤ e.1 ∧ e.1 + 4 ≤ pml4 + 0x3000 := by decide
  rw [bootMemory, bytes_writeLows fun e he => by have := hwords e he; omega]
  exact if_neg (by omega)

theorem bytes_bootMemory {x : Nat} (h : x < pml4 ∨ pml4 + 0x3000 ≤ x)
    (hw : x < mbiPtr ∨ gdt64 ≤ x) : (bootMemory c).bytes x = c.mem.bytes x := by
  have hlabels : magicNum = mbiPtr + 4 ∧ gdt64 = mbiPtr + 8 := by decide
  rw [bytes_saved h, savedMemory, bytes_copy (by rw [length_leBytes]; omega),
    bytes_copy (by rw [length_leBytes]; omega)]

theorem parameters_bootMemory (c : Bsp) : readLE (bootMemory c).bytes mbiPtr 4 = c.low .bx ∧
    readLE (bootMemory c).bytes magicNum 4 = c.low .ax := by
  have hbehind : pml4 + 0x3000 ≤ mbiPtr := by decide
  have hlow : ∀ r, c.low r % 256 ^ 4 = c.low r := fun r => Nat.mod_mod _ _
  have hsaved : ∀ a, mbiPtr ≤ a →
      readLE (bootMemory c).bytes a 4 = readLE (savedMemory c).bytes a 4 := fun a ha =>
    readLE_congr fun x hx _ => bytes_saved (.inr (le_trans hbehind (le_trans ha hx)))
  constructor
  · have hkeep : readLE (savedMemory c).bytes mbiPtr 4 =
        readLE (c.mem.copy mbiPtr (leBytes 4 (c.low .bx))).bytes mbiPtr 4 :=
      readLE_congr fun x _ hx => bytes_copy (.inl hx)
    rw [hsaved mbiPtr (le_refl _), hkeep]
    exact (holds_copy _ _ _).readLE.trans (hlow _)
  · rw [hsaved magicNum (Nat.le_add_right _ _)]
    exact (holds_copy _ _ _).readLE.trans (hlow _)

theorem bootMemory_gdt (h : c.mem.Holds gdt64 gdtBytes) : (bootMemory c).Holds gdt64 gdtBytes :=
  h.congr fun x hx _ => bytes_bootMemory (.inr (le_trans (by decide) hx)) (.inr hx)

theorem exec_saveParameters (h : c.paging = false) : ∃ f,
    c.execAll saveParameters = some { c with reg := f, mem := savedMemory c } ∧
      f .sp = stackTop := by
  have h : c.cr0.testBit 31 = false := h
  refine ⟨Function.update c.reg .sp stackTop, ?_, rfl⟩
  simp only [saveParameters, Bsp.execAll, List.foldlM_cons, List.foldlM_nil, Bsp.exec, Bsp.store,
    Bsp.range, Bsp.paging, Bsp.setReg, h, Option.bind_eq_bind, Option.bind_some, Option.map_some,
    Bool.false_eq_true, if_false]
  rfl

theorem exec_clearTables (h : c.paging = false) (hdir : c.backward = false) : ∃ f,
    c.execAll clearTables = some { c with reg := f, mem := c.mem.fill pml4 0x3000 0 } ∧
      f .sp = c.reg .sp := by
  have h : c.cr0.testBit 31 = false := h
  refine ⟨fun r => if r = .di then pml4 + 0x3000 else if r = .ax ∨ r = .cx then 0 else c.reg r, ?_,
    rfl⟩
  simp only [clearTables, Bsp.execAll, List.foldlM_cons, List.foldlM_nil, Bsp.exec, Bsp.stosb,
    Bsp.paging, Bsp.setReg, h, hdir, Option.bind_eq_bind, Option.bind_some, Bool.false_eq_true,
    if_false]
  refine congrArg some ?_
  congr 1
  funext r
  cases r <;> rfl

theorem exec_linkTables (h : c.paging = false) : ∃ f,
    c.execAll linkTables = some { c with reg := f, mem := c.mem.writeLows linkWords } ∧
      f .sp = c.reg .sp := by
  have h : c.cr0.testBit 31 = false := h
  have h₁ : (pml4 % 2 ^ 32 + 0) % 2 ^ 32 = pml4 := by decide
  have h₂ : ((pml4 % 2 ^ 32 + 2048) % 2 ^ 32 % 2 ^ 32 + 0) % 2 ^ 32 = pml4 + 2048 := by decide
  have h₃ : (pdpt % 2 ^ 32 + 0) % 2 ^ 32 = pdpt := by decide
  have h₄ : (pdpt % 2 ^ 32 ||| 0x03) % 2 ^ 32 = pdpt + 0x03 := by decide
  have h₅ : (pd % 2 ^ 32 ||| 0x03) % 2 ^ 32 = pd + 0x03 := by decide
  refine ⟨fun r => if r = .di then pdpt else if r = .ax then pd % 2 ^ 32 ||| 0x03 else c.reg r, ?_,
    rfl⟩
  simp only [linkTables, Bsp.execAll, List.foldlM_cons, List.foldlM_nil, Bsp.exec, Bsp.store,
    Bsp.range, Bsp.paging, Bsp.setReg, Bsp.low, h, Option.bind_eq_bind, Option.bind_some,
    Option.map_some, Bool.false_eq_true, if_false, Function.update_self, Function.update_of_ne,
    ne_eq, reduceCtorEq, not_false_eq_true, h₁, h₂, h₃, h₄, h₅]
  refine congrArg some ?_
  congr 1
  funext r
  cases r <;> rfl

theorem exec_mapPages (h : c.paging = false) : ∃ f,
    c.execAll mapPages = some { c with reg := f, mem := c.mem.writeLows pageWords } ∧
      f .sp = c.reg .sp := by
  have h : c.cr0.testBit 31 = false := h
  refine ⟨fun r => if r = .di then pd else if r = .ax then 0x600083 else c.reg r, ?_, rfl⟩
  simp only [mapPages, Bsp.execAll, List.foldlM_cons, List.foldlM_nil, Bsp.exec, Bsp.store,
    Bsp.range, Bsp.paging, Bsp.setReg, Bsp.low, h, Option.bind_eq_bind, Option.bind_some,
    Option.map_some, Bool.false_eq_true, if_false, Function.update_self, Function.update_of_ne,
    ne_eq, reduceCtorEq, not_false_eq_true, Nat.reducePow, Nat.reduceMod, Nat.reduceAdd]
  refine congrArg some ?_
  congr 1
  funext r
  cases r <;> rfl

theorem gdt_pointer {m : Memory} (h : m.Holds gdt64 gdtBytes) :
    readLE m.bytes gdt64Ptr 2 = 23 ∧ readLE m.bytes (gdt64Ptr + 2) 4 = gdt64 := by
  unfold gdtBytes at h
  obtain ⟨h, hbase⟩ := holds_append.mp h
  obtain ⟨_, hlimit⟩ := holds_append.mp h
  exact ⟨hlimit.readLE, hbase.readLE⟩

theorem gdt_words {m : Memory} (h : m.Holds gdt64 gdtBytes) :
    m.load (gdt64 + 8) = 0x00af9a000000ffff ∧ m.load (gdt64 + 16) = 0x00cf92000000ffff := by
  unfold gdtBytes at h
  obtain ⟨h, _⟩ := holds_append.mp h
  obtain ⟨h, _⟩ := holds_append.mp h
  obtain ⟨h, hdata⟩ := holds_append.mp h
  obtain ⟨_, hcode⟩ := holds_append.mp h
  exact ⟨hcode.readLE, hdata.readLE⟩

theorem exec_loadTables (h : c.paging = false) (hgdt : c.mem.Holds gdt64 gdtBytes) : ∃ f,
    c.execAll loadTables =
      some { c with reg := f, cr3 := pml4, gdtBase := gdt64, gdtLimit := 23 } ∧
      f .sp = c.reg .sp := by
  have h : c.cr0.testBit 31 = false := h
  obtain ⟨hlimit, hbase⟩ := gdt_pointer hgdt
  have hroot : pml4 % 2 ^ 32 = pml4 := by decide
  refine ⟨Function.update c.reg .ax pml4, ?_, rfl⟩
  simp only [loadTables, Bsp.execAll, List.foldlM_cons, List.foldlM_nil, Bsp.exec, Bsp.setCr,
    Bsp.load, Bsp.range, Bsp.paging, Bsp.setReg, Bsp.low, h, Option.bind_eq_bind, Option.bind_some,
    Option.map_some, Bool.false_eq_true, if_false, Function.update_self, hroot, hlimit, hbase]
  rfl

theorem testBit_masked (x mask high : Nat) {i : Nat} (hi : i < 32) (hmask : mask.testBit i = true) :
    ((x ||| mask) % 2 ^ 32 + 2 ^ 32 * high).testBit i = true := by
  have hlow : ((x ||| mask) % 2 ^ 32 + 2 ^ 32 * high) % 2 ^ 32 = (x ||| mask) % 2 ^ 32 := by omega
  have hbit := Nat.testBit_mod_two_pow ((x ||| mask) % 2 ^ 32 + 2 ^ 32 * high) 32 i
  rw [hlow, Nat.testBit_mod_two_pow, Nat.testBit_or, hmask, Bool.or_true, decide_eq_true hi,
    Bool.true_and, Bool.true_and] at hbit
  exact hbit.symm

theorem exec_enableLongMode (c : Bsp) : ∃ f cr4 efer,
    c.execAll enableLongMode = some { c with reg := f, cr4 := cr4, efer := efer } ∧
      f .sp = c.reg .sp ∧ cr4.testBit 5 = true ∧ efer.testBit 8 = true ∧
      efer.testBit 11 = true := by
  refine ⟨_, _, _, rfl, rfl, ?_, ?_, ?_⟩
  · exact testBit_masked (c.cr4 % 2 ^ 32 % 2 ^ 32) 0xA0 0 (by decide) (by decide)
  · exact testBit_masked _ 0x900 _ (by decide) (by decide)
  · exact testBit_masked _ 0x900 _ (by decide) (by decide)

/-- What the code has prepared when it is about to turn paging on. -/
structure Prepared (c c' : Bsp) : Prop where
  mem : c'.mem = bootMemory c
  stack : c'.reg .sp = stackTop
  cr0 : c'.cr0 = c.cr0
  code : c'.code = c.code
  protection : (c'.low .ax).testBit 0 = true
  paging : (c'.low .ax).testBit 31 = true
  cr3 : c'.cr3 = pml4
  pae : c'.cr4.testBit 5 = true
  longMode : c'.efer.testBit 8 = true
  noExecute : c'.efer.testBit 11 = true
  gdtBase : c'.gdtBase = gdt64
  gdtLimit : c'.gdtLimit = 23

theorem exec_beforePaging (h : c.paging = false) (hprot : c.cr0.testBit 0 = true)
    (hdir : c.backward = false) (hgdt : c.mem.Holds gdt64 gdtBytes) :
    ∃ c', c.execAll beforePaging = some c' ∧ Prepared c c' := by
  obtain ⟨f₀, h₀, hs₀⟩ := exec_saveParameters h
  obtain ⟨f₁, h₁, hs₁⟩ := exec_clearTables (c := { c with reg := f₀, mem := savedMemory c }) h hdir
  obtain ⟨f₂, h₂, hs₂⟩ := exec_linkTables (c := { c with
    reg := f₁, mem := (savedMemory c).fill pml4 0x3000 0 }) h
  obtain ⟨f₃, h₃, hs₃⟩ := exec_mapPages (c := { c with
    reg := f₂, mem := ((savedMemory c).fill pml4 0x3000 0).writeLows linkWords }) h
  obtain ⟨f₄, h₄, hs₄⟩ := exec_loadTables (c := { c with reg := f₃, mem := bootMemory c }) h
    (bootMemory_gdt hgdt)
  obtain ⟨f₅, cr4, efer, h₅, hs₅, hpae, hlong, hnx⟩ := exec_enableLongMode { c with
    reg := f₄, mem := bootMemory c, cr3 := pml4, gdtBase := gdt64, gdtLimit := 23 }
  have hwritten : (((savedMemory c).fill pml4 0x3000 0).writeLows linkWords).writeLows pageWords =
      bootMemory c := List.foldl_append.symm
  rw [hwritten] at h₃
  rw [beforePaging, Bsp.execAll_append, Bsp.execAll_append, Bsp.execAll_append, Bsp.execAll_append,
    Bsp.execAll_append, Bsp.execAll_append, h₀, Option.bind_some, h₁, Option.bind_some, h₂,
    Option.bind_some, h₃, Option.bind_some, h₄, Option.bind_some, h₅, Option.bind_some]
  refine ⟨_, rfl, rfl, ?_, rfl, rfl, ?_, ?_, rfl, hpae, hlong, hnx, rfl, rfl⟩
  · exact hs₅.trans (hs₄.trans (hs₃.trans (hs₂.trans (hs₁.trans hs₀))))
  · show ((c.cr0 % 2 ^ 32 % 2 ^ 32 ||| 0x80000000) % 2 ^ 32).testBit 0 = true
    rw [Nat.testBit_mod_two_pow, Nat.testBit_or, Nat.testBit_mod_two_pow, Nat.testBit_mod_two_pow,
      hprot]
    rfl
  · show ((c.cr0 % 2 ^ 32 % 2 ^ 32 ||| 0x80000000) % 2 ^ 32).testBit 31 = true
    rw [Nat.testBit_mod_two_pow, Nat.testBit_or,
      show (0x80000000 : Nat).testBit 31 = true by decide, Bool.or_true]
    rfl

/-! ### Under the boot tables -/

/-- Paging is on, with the boot tables. -/
structure Mapped (c : Bsp) : Prop where
  paging : c.paging = true
  cr3 : c.cr3 = pml4
  tables : BootTables c.mem

theorem bootMap_window {v d : Nat} (hv : v < MAPPED) (hd : d = 0 ∨ d = KERNEL_VMA) :
    bootMap (v + d) = some { phys := v, rights := kernelRights } := by
  unfold bootMap MAPPED KERNEL_VMA kernelRights at *
  rcases hd with rfl | rfl
  · rw [Nat.add_zero, if_pos hv]
  · rw [if_neg (by omega), if_pos (by omega), Nat.add_sub_cancel]

theorem Mapped.range (h : Mapped c) {v n d : Nat} {ok : Rights → Bool}
    (hok : ok kernelRights = true) (hn : 0 < n) (hle : v + n ≤ MAPPED) (hd : d = 0 ∨ d = KERNEL_VMA) :
    c.range (v + d) n ok = some v := by
  have hlast : v + d + (n - 1) = v + (n - 1) + d := by omega
  rw [Bsp.range, if_pos h.paging, h.cr3, hlast, h.tables.translate, h.tables.translate,
    bootMap_window (by omega) hd, bootMap_window (by omega) hd]
  simp [hok]

theorem Mapped.fetches (h : Mapped c) {wide : Bool} {a b d : Nat} (hw : c.wide = wide)
    (hb : b ≤ MAPPED) (hd : d = 0 ∨ d = KERNEL_VMA) : c.Fetches wide a b d where
  range := fun _ hn hle => h.range rfl hn (le_trans hle hb) hd
  width := hw

theorem Mapped.load (h : Mapped c) {v n : Nat} (hn : 0 < n) (hle : v + n ≤ MAPPED) :
    c.load v n = some (readLE c.mem.bytes v n) := by
  have hrange : c.range (v + 0) n (fun _ => true) = some v := h.range rfl hn hle (.inl rfl)
  rw [Bsp.load, ← Nat.add_zero v, hrange]
  rfl

theorem Mapped.store (h : Mapped c) {v n : Nat} (x : Nat) (hn : 0 < n) (hle : v + n ≤ MAPPED) :
    c.store v n x = some { c with mem := c.mem.copy v (leBytes n x) } := by
  have hrange : c.range (v + 0) n c.mayWrite = some v := h.range rfl hn hle (.inl rfl)
  rw [Bsp.store, ← Nat.add_zero v, hrange]
  rfl

theorem BootTables.congr (h : BootTables m) (hm : ∀ x < pml4 + 0x3000, m'.bytes x = m.bytes x) :
    BootTables m' := by
  have hkeep : ∀ {b}, b + 8 ≤ pml4 + 0x3000 → m'.load b = m.load b := fun hb =>
    readLE_congr fun x _ hx => hm x (lt_of_lt_of_le hx hb)
  have hbelow : ∀ {i} k, k ≤ 8192 → i < 512 → pml4 + k + 8 * i + 8 ≤ pml4 + 0x3000 := by
    intro i k hk hi
    omega
  refine ⟨fun i hi => ?_, fun i hi => ?_, fun i hi => ?_⟩
  · exact (hkeep (hbelow 0 (by decide) hi)).trans (h.first i hi)
  · exact (hkeep (hbelow 4096 (by decide) hi)).trans (h.second i hi)
  · exact (hkeep (hbelow 8192 (by decide) hi)).trans (h.third i hi)

/-- The descriptor table of `boot.S` is in use. -/
structure Described (c : Bsp) : Prop where
  holds : c.mem.Holds gdt64 gdtBytes
  base : c.gdtBase = gdt64
  limit : c.gdtLimit = 23

theorem Mapped.segment_code (h : Mapped c) (hg : Described c) :
    c.segment 0x08 = some (.ofWord 0x00af9a000000ffff) := by
  have hload : c.load (gdt64 + 8) 8 = some (c.mem.load (gdt64 + 8)) :=
    h.load (by decide) (by decide)
  rw [Bsp.segment, hg.limit, hg.base, if_pos (by decide), hload, (gdt_words hg.holds).1]
  rfl

theorem Mapped.segment_data (h : Mapped c) (hg : Described c) :
    c.segment 0x10 = some (.ofWord 0x00cf92000000ffff) := by
  have hload : c.load (gdt64 + 16) 8 = some (c.mem.load (gdt64 + 16)) :=
    h.load (by decide) (by decide)
  rw [Bsp.segment, hg.limit, hg.base, if_pos (by decide), hload, (gdt_words hg.holds).2]
  rfl

/-! ### From paging to `kernel_main` -/

theorem Mapped.exec_pushImm (h : Mapped c) {sp : Nat} (v : Nat) (hsp : c.reg .sp = sp)
    (hlo : 4 ≤ sp) (hhi : sp ≤ MAPPED) : c.exec (.pushImm v) =
      some { c with
        reg := Function.update c.reg .sp (sp - 4), mem := c.mem.copy (sp - 4) (leBytes 4 v) } := by
  unfold MAPPED at hhi
  have hlow : (c.low .sp + (2 ^ 32 - 4)) % 2 ^ 32 = sp - 4 := by
    rw [Bsp.low, hsp]
    omega
  rw [Bsp.exec, hlow, h.store v (by decide) (by unfold MAPPED; omega)]
  rfl

theorem Mapped.exec_lret (h : Mapped c) (hg : Described c) {sp ip : Nat} (hsp : c.reg .sp = sp)
    (hhi : sp + 8 ≤ MAPPED) (hip : readLE c.mem.bytes sp 4 = ip)
    (hcs : readLE c.mem.bytes (sp + 4) 4 = 0x08) : c.exec .lret =
      some { c with
        reg := Function.update c.reg .sp (sp + 8), ip := ip
        code := .ofWord 0x00af9a000000ffff } := by
  unfold MAPPED at hhi
  have hlow : c.low .sp = sp ∧ (sp + 8) % 2 ^ 32 = sp + 8 := by
    rw [Bsp.low, hsp]
    omega
  simp only [Bsp.exec, Bsp.farReturn, Option.bind_eq_bind]
  rw [hlow.1, h.load (by decide) (by unfold MAPPED; omega), Option.bind_some,
    h.load (by decide) (by unfold MAPPED; omega), Option.bind_some, hip, hcs, hlow.2]
  rw [show 0x08 % 2 ^ 16 = 0x08 from rfl, h.segment_code hg, Option.bind_some, if_pos (by decide)]
  rfl

theorem Mapped.exec_loadSegments (h : Mapped c) (hg : Described c) (high : Nat) : ∃ f,
    c.execAll (loadSegments ++ [.movImm .ax high]) =
      some { c with reg := f, seg := fun _ => 0x10 } ∧ f .ax = high := by
  have hax : (c.reg .ax / 2 ^ 16 * 2 ^ 16 + 0x10) % 2 ^ 16 = 0x10 := by omega
  have hseg : ∀ (d : DataSeg) (u : DataSeg → Nat),
      Bsp.exec { c with
        reg := Function.update c.reg .ax (c.reg .ax / 2 ^ 16 * 2 ^ 16 + 0x10), seg := u }
        (.movSeg d .ax) = some { c with
          reg := Function.update c.reg .ax (c.reg .ax / 2 ^ 16 * 2 ^ 16 + 0x10)
          seg := Function.update u d 0x10 } := by
    intro d u
    have hdata : ∀ f, Bsp.segment { c with reg := f, seg := u } 0x10 = _ := fun _ =>
      h.segment_data hg
    simp only [Bsp.exec, Bsp.setSeg, Option.bind_eq_bind, Function.update_self]
    rw [hax, hdata, Option.bind_some, if_pos (by decide)]
  refine ⟨Function.update (Function.update c.reg .ax (c.reg .ax / 2 ^ 16 * 2 ^ 16 + 0x10)) .ax high,
    ?_, rfl⟩
  have hall : Function.update (Function.update (Function.update (Function.update (Function.update
      c.seg .ds 0x10) .es 0x10) .fs 0x10) .gs 0x10) .ss 0x10 = fun _ => 0x10 := by
    funext d
    cases d <;> rfl
  have hword : c.exec (.movWord .ax 0x10) = some { c with
      reg := Function.update c.reg .ax (c.reg .ax / 2 ^ 16 * 2 ^ 16 + 0x10), seg := c.seg } := rfl
  rw [loadSegments, List.cons_append, Bsp.execAll_cons, hword, Option.bind_some, List.cons_append,
    Bsp.execAll_cons, hseg, Option.bind_some, List.cons_append, Bsp.execAll_cons, hseg,
    Option.bind_some, List.cons_append, Bsp.execAll_cons, hseg, Option.bind_some, List.cons_append,
    Bsp.execAll_cons, hseg, Option.bind_some, List.cons_append, Bsp.execAll_cons, hseg,
    Option.bind_some, hall]
  rfl

theorem Mapped.exec_restoreParameters (h : Mapped c) {mbi magic : Nat}
    (hmbi : readLE c.mem.bytes mbiPtr 4 = mbi) (hmagic : readLE c.mem.bytes magicNum 4 = magic) :
    ∃ f, c.execAll restoreParameters = some { c with reg := f } ∧ f .sp = stackTop ∧ f .di = mbi ∧
      f .si = magic := by
  have hload : ∀ f a, a + 4 ≤ MAPPED →
      Bsp.load { c with reg := f } a 4 = some (readLE c.mem.bytes a 4) := fun _ _ ha =>
    h.load (by decide) ha
  refine ⟨Function.update (Function.update (Function.update c.reg .sp stackTop) .di mbi) .si magic,
    ?_, rfl, rfl, rfl⟩
  have hsp : c.exec (.movImm .sp stackTop) =
      some { c with reg := Function.update c.reg .sp stackTop } := rfl
  rw [restoreParameters, Bsp.execAll_cons, hsp, Option.bind_some, Bsp.execAll_cons, Bsp.exec,
    hload _ _ (by decide), hmbi, Option.map_some, Option.bind_some, Bsp.setReg, Bsp.execAll_cons,
    Bsp.exec, hload _ _ (by decide), hmagic]
  rfl

theorem Mapped.exec_call (h : Mapped c) {sp : Nat} (target : Nat) (hsp : c.reg .sp = sp)
    (hlo : 8 ≤ sp) (hhi : sp ≤ MAPPED) : c.exec (.call target) =
      some { c with
        reg := Function.update c.reg .sp (sp - 8), ip := target
        mem := c.mem.copy (sp - 8) (leBytes 8 c.ip) } := by
  unfold MAPPED at hhi
  have hlow : (c.reg .sp + (2 ^ 64 - 8)) % 2 ^ 64 = sp - 8 := by
    rw [hsp]
    omega
  rw [Bsp.exec, hlow, h.store c.ip (by decide) (by unfold MAPPED; omega)]
  rfl

/-! ### The way from `_start` -/

variable {code : Nat → Option Coded} {s : BootSymbols} {c₀ : Bsp} {a b : Nat}

/-- What holds from the moment paging is on. -/
structure OnTheWay (c₀ c : Bsp) : Prop where
  mapped : Mapped c
  described : Described c
  longMode : c.efer.testBit 8 = true
  noExecute : c.efer.testBit 11 = true
  mbi : readLE c.mem.bytes mbiPtr 4 = c₀.low .bx
  magic : readLE c.mem.bytes magicNum 4 = c₀.low .ax
  kept : ∀ x, x < BOOTDATA_START ∨ gdt64 ≤ x → c.mem.bytes x = c₀.mem.bytes x

structure SameControl (c c' : Bsp) : Prop where
  cr0 : c'.cr0 = c.cr0
  cr3 : c'.cr3 = c.cr3
  efer : c'.efer = c.efer
  gdtBase : c'.gdtBase = c.gdtBase
  gdtLimit : c'.gdtLimit = c.gdtLimit

theorem OnTheWay.stack (h : OnTheWay c₀ c) (hs : SameControl c c')
    (hm : ∀ x, x < stackTop - 8 ∨ stackTop ≤ x → c'.mem.bytes x = c.mem.bytes x) :
    OnTheWay c₀ c' where
  mapped := by
    refine ⟨?_, hs.cr3.trans h.mapped.cr3, h.mapped.tables.congr fun x hx => hm x (.inl ?_)⟩
    · rw [Bsp.paging, hs.cr0]
      exact h.mapped.paging
    · exact lt_of_lt_of_le hx (by decide)
  described := by
    refine ⟨h.described.holds.congr fun x hx _ => hm x (.inr ?_), hs.gdtBase.trans h.described.base,
      hs.gdtLimit.trans h.described.limit⟩
    exact le_trans (by decide) hx
  longMode := by rw [hs.efer]; exact h.longMode
  noExecute := by rw [hs.efer]; exact h.noExecute
  mbi := by rw [← h.mbi]; exact readLE_congr fun x hx _ => hm x (.inr hx)
  magic := by
    rw [← h.magic]
    exact readLE_congr fun x hx _ => hm x (.inr (le_trans (Nat.le_add_right _ _) hx))
  kept := by
    intro x hx
    refine (hm x ?_).trans (h.kept x hx)
    exact hx.imp (fun h => lt_of_lt_of_le h (by decide)) (le_trans (by decide))

theorem bytes_push (m : Memory) {a x : Nat} (l : List UInt8) (ha : stackTop - 8 ≤ a)
    (hl : a + l.length ≤ stackTop) (hx : x < stackTop - 8 ∨ stackTop ≤ x) :
    (m.copy a l).bytes x = m.bytes x :=
  bytes_copy (hx.imp (fun h => lt_of_lt_of_le h ha) (le_trans hl))

theorem step_paging (hprep : Prepared c₀ c) (hgdt : c₀.mem.Holds gdt64 gdtBytes)
    (hoff : c₀.paging = false) {is : List BootInstr}
    (hp : Placed code false a (.writeCr .cr0 .ax :: is) b) (hip : c.ip = a) :
    ∃ c' m, step code c = some c' ∧ OnTheWay c₀ c' ∧ Placed code false m is b ∧ c'.ip = m ∧
      c'.reg .sp = stackTop ∧ c'.code = c₀.code := by
  have hflat : c.paging = false := by
    rw [Bsp.paging, hprep.cr0]
    exact hoff
  obtain ⟨m, hrest, _, hstep⟩ := step_placed hp (Bsp.fetches_flat hflat) hip
  refine ⟨{ c with ip := m, cr0 := c.low .ax }, m, ?_, ?_, hrest, rfl, hprep.stack, hprep.code⟩
  · rw [hstep, Bsp.exec, Bsp.setCr]
    refine if_neg ?_
    show ¬ ((c.low .ax).testBit 31 && !((c.low .ax).testBit 0 && c.cr4.testBit 5 &&
      c.efer.testBit 8)) = true
    rw [hprep.protection, hprep.pae, hprep.longMode, hprep.paging]
    simp
  · have hparams := parameters_bootMemory c₀
    rw [← hprep.mem] at hparams
    have htables : BootTables c.mem := hprep.mem ▸ bootTables_written (savedMemory c₀)
    have hholds : c.mem.Holds gdt64 gdtBytes := hprep.mem ▸ bootMemory_gdt hgdt
    refine ⟨⟨hprep.paging, hprep.cr3, htables⟩, ⟨hholds, hprep.gdtBase, hprep.gdtLimit⟩,
      hprep.longMode, hprep.noExecute, hparams.1, hparams.2, fun x hx => ?_⟩
    show c.mem.bytes x = c₀.mem.bytes x
    rw [hprep.mem]
    refine bytes_bootMemory ?_ ?_
    · exact hx.imp (fun h => h) (le_trans (by decide))
    · exact hx.imp (fun h => lt_of_lt_of_le h (by decide)) (fun h => h)

theorem run_farReturn (h : OnTheWay c₀ c) (hsp : c.reg .sp = stackTop) (hcode : ¬ c.code.Code64)
    {entry : Nat} (hentry : entry < 2 ^ 32)
    (hp : Placed code false a [.pushImm 0x08, .pushImm entry, .lret] b) (hb : b ≤ MAPPED)
    (hip : c.ip = a) :
    ∃ c', run code 3 c = some c' ∧ OnTheWay c₀ c' ∧ c'.wide = true ∧ c'.ip = entry := by
  have hwidth : ∀ {c' : Bsp}, c'.code = c.code → c'.wide = false := by
    intro c' hc'
    rw [Bsp.wide, hc', decide_eq_false hcode, Bool.and_false]
  have hroom : 8 ≤ stackTop ∧ stackTop ≤ MAPPED := by decide
  -- the selector
  obtain ⟨m₁, hp₁, _, hstep₁⟩ := step_placed hp (h.mapped.fetches (hwidth rfl) hb (.inl rfl)) hip
  have hexec₁ := Mapped.exec_pushImm (c := { c with ip := m₁ }) ⟨h.mapped.1, h.mapped.2, h.mapped.3⟩
    0x08 hsp (by omega) hroom.2
  have h₁ : OnTheWay c₀ { c with
      reg := Function.update c.reg .sp (stackTop - 4), ip := m₁
      mem := c.mem.copy (stackTop - 4) (leBytes 4 0x08) } :=
    h.stack ⟨rfl, rfl, rfl, rfl, rfl⟩ fun x => bytes_push c.mem _ (by omega)
      (by rw [length_leBytes]; omega)
  -- the address
  obtain ⟨m₂, hp₂, _, hstep₂⟩ := step_placed hp₁ (h₁.mapped.fetches (hwidth rfl) hb (.inl rfl)) rfl
  have hexec₂ := Mapped.exec_pushImm (c := { c with
      reg := Function.update c.reg .sp (stackTop - 4), ip := m₂
      mem := c.mem.copy (stackTop - 4) (leBytes 4 0x08) }) ⟨h₁.mapped.1, h₁.mapped.2, h₁.mapped.3⟩
    entry (show _ = stackTop - 4 from rfl) (by omega) (by omega)
  have hsub : stackTop - 4 - 4 = stackTop - 8 := by omega
  rw [hsub] at hexec₂
  have h₂ : OnTheWay c₀ { c with
      reg := Function.update (Function.update c.reg .sp (stackTop - 4)) .sp (stackTop - 8), ip := m₂
      mem := (c.mem.copy (stackTop - 4) (leBytes 4 0x08)).copy (stackTop - 8) (leBytes 4 entry) } :=
    h₁.stack ⟨rfl, rfl, rfl, rfl, rfl⟩ fun x => bytes_push _ _ (le_refl _)
      (by rw [length_leBytes]; omega)
  -- the return
  obtain ⟨m₃, _, _, hstep₃⟩ := step_placed hp₂ (h₂.mapped.fetches (hwidth rfl) hb (.inl rfl)) rfl
  have hread : readLE ((c.mem.copy (stackTop - 4) (leBytes 4 0x08)).copy (stackTop - 8)
      (leBytes 4 entry)).bytes (stackTop - 8) 4 = entry :=
    (holds_copy _ _ _).readLE.trans (Nat.mod_eq_of_lt hentry)
  have hselector : readLE ((c.mem.copy (stackTop - 4) (leBytes 4 0x08)).copy (stackTop - 8)
      (leBytes 4 entry)).bytes (stackTop - 8 + 4) 4 = 0x08 := by
    rw [show stackTop - 8 + 4 = stackTop - 4 by omega]
    refine (readLE_congr fun x hx _ => bytes_copy (.inr ?_)).trans (holds_copy _ _ _).readLE
    rw [length_leBytes]
    omega
  have hexec₃ := Mapped.exec_lret (c := { c with
      reg := Function.update (Function.update c.reg .sp (stackTop - 4)) .sp (stackTop - 8), ip := m₃
      mem := (c.mem.copy (stackTop - 4) (leBytes 4 0x08)).copy (stackTop - 8) (leBytes 4 entry) })
    ⟨h₂.mapped.1, h₂.mapped.2, h₂.mapped.3⟩ ⟨h₂.described.1, h₂.described.2, h₂.described.3⟩
    (show _ = stackTop - 8 from rfl) (by omega) hread hselector
  have hs₁ := hstep₁.trans hexec₁
  have hs₂ := hstep₂.trans hexec₂
  have hs₃ := hstep₃.trans hexec₃
  refine ⟨{ c with
      reg := Function.update (Function.update (Function.update c.reg .sp (stackTop - 4)) .sp
        (stackTop - 8)) .sp (stackTop - 8 + 8)
      ip := entry, code := .ofWord 0x00af9a000000ffff
      mem := (c.mem.copy (stackTop - 4) (leBytes 4 0x08)).copy (stackTop - 8) (leBytes 4 entry) },
    ?_, h₂.stack ⟨rfl, rfl, rfl, rfl, rfl⟩ fun x _ => rfl, ?_, rfl⟩
  · rw [run, hs₁, Option.bind_some, run, hs₂, Option.bind_some, run, hs₃, Option.bind_some, run]
  · show (c.paging && c.efer.testBit 8 && decide (Segment.ofWord 0x00af9a000000ffff).Code64) = true
    rw [h.mapped.paging, h.longMode]
    decide

theorem run_longModeEntry (h : OnTheWay c₀ c) (hw : c.wide = true)
    (hp : Placed code true a (longModeEntryCode s) b) (hb : b ≤ MAPPED) (hip : c.ip = a) :
    ∃ c', run code (longModeEntryCode s).length c = some c' ∧ OnTheWay c₀ c' ∧ c'.wide = true ∧
      c'.ip = s.longModeHigh ∧ ∀ d, c'.seg d = 0x10 := by
  have hcode : longModeEntryCode s =
      (loadSegments ++ [.movImm .ax s.longModeHigh]) ++ [.jmp .ax] := rfl
  rw [hcode] at hp ⊢
  obtain ⟨m, hblock, hjmp⟩ := placed_append.mp hp
  obtain ⟨f, hexec, hf⟩ := h.mapped.exec_loadSegments h.described s.longModeHigh
  have hm : m ≤ MAPPED := le_trans hjmp.le hb
  have hrun := run_quiet (h.mapped.fetches hw hm (.inl rfl))
    (by simp [loadSegments, BootInstr.quiet]) hblock hip hexec
  have h' : OnTheWay c₀ { c with reg := f, seg := fun _ => 0x10, ip := m + 0 } :=
    h.stack ⟨rfl, rfl, rfl, rfl, rfl⟩ fun x _ => rfl
  obtain ⟨m', _, _, hstep⟩ := step_placed hjmp (h'.mapped.fetches hw hb (.inl rfl)) rfl
  refine ⟨{ c with reg := f, seg := fun _ => 0x10, ip := f .ax }, ?_,
    h.stack ⟨rfl, rfl, rfl, rfl, rfl⟩ fun x _ => rfl, hw, hf, fun d => rfl⟩
  rw [List.length_append, run_add, hrun, Option.bind_some, List.length_singleton, run, hstep]
  rfl

theorem run_longModeHigh (h : OnTheWay c₀ c) (hw : c.wide = true)
    (hp : Placed code true a (longModeHighCode s) b) (hb : b ≤ MAPPED)
    (hip : c.ip = a + KERNEL_VMA) :
    ∃ c', run code (longModeHighCode s).length c = some c' ∧ OnTheWay c₀ c' ∧ c'.wide = true ∧
      c'.ip = s.kernelMain ∧ c'.seg = c.seg ∧ c'.reg .sp = stackTop - 8 ∧
      c'.reg .di = c₀.low .bx ∧ c'.reg .si = c₀.low .ax := by
  have hroom : 8 ≤ stackTop ∧ stackTop ≤ MAPPED := by decide
  obtain ⟨m, hblock, hcall⟩ := placed_append.mp hp
  obtain ⟨f, hexec, hsp, hdi, hsi⟩ := h.mapped.exec_restoreParameters h.mbi h.magic
  have hm : m ≤ MAPPED := le_trans hcall.le hb
  have hrun := run_quiet (h.mapped.fetches hw hm (.inr rfl))
    (by simp [restoreParameters, BootInstr.quiet]) hblock hip hexec
  have h' : ∀ x, OnTheWay c₀ { c with reg := f, ip := x } := fun x =>
    h.stack ⟨rfl, rfl, rfl, rfl, rfl⟩ fun x _ => rfl
  obtain ⟨m', _, _, hstep⟩ := step_placed hcall ((h' _).mapped.fetches hw hb (.inr rfl)) rfl
  have hexec' := (h' (m' + KERNEL_VMA)).mapped.exec_call s.kernelMain hsp hroom.1 hroom.2
  refine ⟨{ c with
      reg := Function.update f .sp (stackTop - 8), ip := s.kernelMain
      mem := c.mem.copy (stackTop - 8) (leBytes 8 (m' + KERNEL_VMA)) },
    ?_, h.stack ⟨rfl, rfl, rfl, rfl, rfl⟩ fun x => bytes_push c.mem _ (le_refl _) ?_, hw, rfl, rfl,
    rfl, hdi, hsi⟩
  · rw [longModeHighCode, List.length_append, run_add, hrun, Option.bind_some,
      List.length_singleton, run, hstep, hexec', Option.bind_some, run]
  · rw [length_leBytes]
    omega

/-- Where the linker puts the code: `.boot` below `.bootdata`, and `.text` where the boot tables
show it. -/
structure InPlace (code : Nat → Option Coded) (s : BootSymbols) : Prop where
  start : ∃ b, Placed code false s.start (startCode s) b ∧ b ≤ BOOTDATA_START
  entry : ∃ b, Placed code true s.longModeEntry (longModeEntryCode s) b ∧ b ≤ BOOTDATA_START
  high : ∃ a b, s.longModeHigh = a + KERNEL_VMA ∧ Placed code true a (longModeHighCode s) b ∧
    b ≤ MAPPED

/-- How the boot loader enters `_start`: 32-bit code without paging, the image in memory. -/
structure AtStart (s : BootSymbols) (c : Bsp) : Prop where
  ip : c.ip = s.start
  protection : c.cr0.testBit 0 = true
  paging : c.paging = false
  code : ¬ c.code.Code64
  forward : c.backward = false
  data : c.mem.Holds gdt64 gdtBytes

/-- How `kernel_main` is entered, from a start in `c₀`. -/
structure AtKernelMain (s : BootSymbols) (c₀ c : Bsp) : Prop where
  ip : c.ip = s.kernelMain
  wide : c.wide = true
  seg : ∀ d, c.seg d = 0x10
  stack : c.reg .sp = stackTop - 8
  mbi : c.reg .di = c₀.low .bx
  magic : c.reg .si = c₀.low .ax
  noExecute : c.efer.testBit 11 = true
  map : ∀ v, Paging.translate c.mem c.cr3 v = bootMap v
  kept : ∀ x, x < BOOTDATA_START ∨ gdt64 ≤ x → c.mem.bytes x = c₀.mem.bytes x

/-- **From the boot loader to `kernel_main`.**  From every state of the registers and of the
memory, the code runs without a fault to the first instruction of `kernel_main`, in 64-bit mode,
with the parameters of the boot loader, under page tables that show exactly the two windows. -/
theorem start_enters_kernel_main (hcode : InPlace code s) (hc : AtStart s c) :
    ∃ n c', run code n c = some c' ∧ AtKernelMain s c c' := by
  obtain ⟨b₁, hstart, hb₁⟩ := hcode.start
  obtain ⟨b₂, hentry, hb₂⟩ := hcode.entry
  obtain ⟨a₃, b₃, hhigh, hplaced, hb₃⟩ := hcode.high
  have hdata : BOOTDATA_START ≤ MAPPED ∧ BOOTDATA_START < 2 ^ 32 := by decide
  have hlow : s.longModeEntry < 2 ^ 32 := lt_of_le_of_lt (hentry.le.trans hb₂) hdata.2
  -- up to the switch that turns paging on
  obtain ⟨m, hblock, hrest⟩ := placed_append.mp hstart
  obtain ⟨c₁, hexec, hprep⟩ := exec_beforePaging hc.paging hc.protection hc.forward hc.data
  rw [← hc.ip] at hblock
  have hrun₁ := run_flat hc.paging (by decide) hblock hexec
  have hprep' : Prepared c { c₁ with ip := m } := ⟨hprep.mem, hprep.stack, hprep.cr0, hprep.code,
    hprep.protection, hprep.paging, hprep.cr3, hprep.pae, hprep.longMode, hprep.noExecute,
    hprep.gdtBase, hprep.gdtLimit⟩
  obtain ⟨c₂, m₂, hstep, h₂, hrest, hip₂, hsp₂, hcode₂⟩ :=
    step_paging hprep' hc.data hc.paging hrest rfl
  -- the three jumps
  obtain ⟨c₃, hrun₃, h₃, hw₃, hip₃⟩ := run_farReturn h₂ hsp₂ (by rw [hcode₂]; exact hc.code) hlow
    hrest (hb₁.trans hdata.1) hip₂
  obtain ⟨c₄, hrun₄, h₄, hw₄, hip₄, hseg⟩ :=
    run_longModeEntry h₃ hw₃ hentry (hb₂.trans hdata.1) hip₃
  obtain ⟨c₅, hrun₅, h₅, hw₅, hip₅, hseg₅, hsp₅, hdi, hsi⟩ :=
    run_longModeHigh h₄ hw₄ hplaced hb₃ (hip₄.trans hhigh)
  refine ⟨beforePaging.length + (1 + (3 + ((longModeEntryCode s).length +
    (longModeHighCode s).length))), c₅, ?_, hip₅, hw₅, ?_, hsp₅, hdi, hsi, h₅.noExecute, ?_,
    h₅.kept⟩
  · rw [run_add, hrun₁, Option.bind_some, run_add, run, hstep, Option.bind_some, run,
      Option.bind_some, run_add, hrun₃, Option.bind_some, run_add, hrun₄, Option.bind_some, hrun₅]
  · intro d
    rw [hseg₅, hseg d]
  · intro v
    rw [h₅.mapped.cr3, h₅.mapped.tables.translate]

/-! ### A boot -/

def sampleSymbols : BootSymbols where
  start := 0x100000
  longModeEntry := 0x200000
  longModeHigh := 0x300000 + KERNEL_VMA
  kernelMain := 0x310000 + KERNEL_VMA

/-- Instructions of eight bytes each. -/
def sampleCode (x : Nat) : Option Coded :=
  if x < 0x200000 then
    ((startCode sampleSymbols)[(x - 0x100000) / 8]?).map ({ instr := ·, size := 8, wide := false })
  else if x < 0x300000 then
    ((longModeEntryCode sampleSymbols)[(x - 0x200000) / 8]?).map
      ({ instr := ·, size := 8, wide := true })
  else
    ((longModeHighCode sampleSymbols)[(x - 0x300000) / 8]?).map
      ({ instr := ·, size := 8, wide := true })

def sampleStart : Bsp where
  reg r := if r = .ax then 0x36d76289 else if r = .bx then 0x10000 else 0
  ip := 0x100000
  code := .ofWord 0x00cf9a000000ffff
  seg _ := 0x18
  cr0 := 1
  cr3 := 0
  cr4 := 0
  efer := 0
  gdtBase := 0
  gdtLimit := 0
  backward := false
  mem := Memory.copy { bytes := fun _ => 0, stores := [] } gdt64 gdtBytes

theorem inPlace_sampleCode : InPlace sampleCode sampleSymbols where
  start := by
    refine ⟨_, placed_of_getElem (show 0 < 8 by decide) fun k i hi => ?_, by decide⟩
    have hk := (List.getElem?_eq_some_iff.mp hi).1
    have hlen : (startCode sampleSymbols).length < 100 := by decide
    have hdiv : (0x100000 + k * 8 - 0x100000) / 8 = k := by omega
    show sampleCode (0x100000 + k * 8) = _
    rw [sampleCode, if_pos (by omega), hdiv, hi]
    rfl
  entry := by
    refine ⟨_, placed_of_getElem (show 0 < 8 by decide) fun k i hi => ?_, by decide⟩
    have hk := (List.getElem?_eq_some_iff.mp hi).1
    have hlen : (longModeEntryCode sampleSymbols).length < 100 := by decide
    have hdiv : (0x200000 + k * 8 - 0x200000) / 8 = k := by omega
    show sampleCode (0x200000 + k * 8) = _
    rw [sampleCode, if_neg (by omega), if_pos (by omega), hdiv, hi]
    rfl
  high := by
    refine ⟨0x300000, _, rfl, placed_of_getElem (show 0 < 8 by decide) fun k i hi => ?_, by decide⟩
    have hdiv : (0x300000 + k * 8 - 0x300000) / 8 = k := by omega
    rw [sampleCode, if_neg (by omega), if_neg (by omega), hdiv, hi]
    rfl

/-- The magic number of the boot loader and its information at `0x10000`; the last byte that is
shown, and the first that is not. -/
theorem start_enters_kernel_main_sample : ∃ n c', run sampleCode n sampleStart = some c' ∧
    c'.ip = 0x310000 + KERNEL_VMA ∧ c'.reg .di = 0x10000 ∧ c'.reg .si = 0x36d76289 ∧
    Paging.translate c'.mem c'.cr3 (KERNEL_VMA + 0x7fffff) =
      some { phys := 0x7fffff, rights := kernelRights } ∧
    Paging.translate c'.mem c'.cr3 0x800000 = none := by
  have hstart : AtStart sampleSymbols sampleStart :=
    ⟨rfl, by decide, by decide, by decide, rfl, holds_copy _ _ _⟩
  obtain ⟨n, c', hrun, h⟩ := start_enters_kernel_main inPlace_sampleCode hstart
  refine ⟨n, c', hrun, h.ip, h.mbi.trans (by decide), h.magic.trans (by decide), ?_, ?_⟩
  · rw [h.map]
    decide
  · rw [h.map]
    decide

end Boot

end Zeronix
