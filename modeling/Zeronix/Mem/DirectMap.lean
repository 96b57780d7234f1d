import Zeronix.Mem.AddressSpaces
import Zeronix.Mem.BuddyAnswers

/-!
# The window on physical memory

`init_kernel_page_table` shows the usable areas at `KERNEL_VMA`, page by page from the start of an
area on, and then maps some ranges again, rounded outward.  The allocator rounds the areas inward
and leaves out what is reserved.  So every page that it can hand out is shown, and no later range
is for that page (`direct_map`).
-/

namespace Zeronix

open Radix BuddyAllocator Session Mapper

/-! ### The layout of the kernel -/

namespace BootLayout

/-- The ranges that `kernel_main` reserves. -/
def reserved (l : BootLayout) : List (Nat × Nat) :=
  [(l.kernelStart, l.kernelEnd), (BOOTDATA_START, BOOTDATA_END), (l.mbiStart, l.mbiEnd)]

/-- A section lies in the pages of the kernel. -/
structure InKernel (l : BootLayout) (start stop : Nat) : Prop where
  word : start < Word.modulus
  above : KERNEL_VMA + l.kernelStart / PAGE_SIZE * PAGE_SIZE ≤ start
  below : stop ≤ KERNEL_VMA + (l.kernelEnd + (PAGE_SIZE - 1)) / PAGE_SIZE * PAGE_SIZE

/-- What `linker.ld` and `boot.S` promise: the kernel is not empty, its sections lie in its
pages, and the boot information is found at a 32-bit address and has a 32-bit size. -/
structure Linked (l : BootLayout) : Prop where
  kernel : l.kernelStart < l.kernelEnd
  mbi : l.mbiStart < 2 ^ 32
  mbiSize : l.mbiEnd < l.mbiStart + 2 ^ 32
  text : l.InKernel l.textStart l.textEnd
  rodata : l.InKernel l.rodataStart l.rodataEnd
  data : l.InKernel l.dataStart l.dataEnd
  bss : l.InKernel l.bssStart l.bssEnd

end BootLayout

namespace Page

variable {l : BootLayout} {memMap : List MemoryArea} {start stop x y : Nat} {c : Call}
variable {flags : EntryFlags}

/-! ### Pages of a loop -/

theorem mem_pageSteps {addr : Nat} :
    addr ∈ pageSteps start stop ↔ ∃ i, addr = start + i * PAGE_SIZE ∧ addr < stop := by
  unfold pageSteps PAGE_SIZE
  simp only [List.mem_map, List.mem_range]
  constructor
  · rintro ⟨i, hi, rfl⟩
    exact ⟨i, rfl, by omega⟩
  · rintro ⟨i, rfl, hlt⟩
    exact ⟨i, by omega, rfl⟩

theorem exists_step {a : MemoryArea} (h : a.HasPage x) :
    ∃ phys ∈ pageSteps a.startAddress.toNat a.endAddress.toNat, phys / PAGE_SIZE = x := by
  obtain ⟨hlo, hhi⟩ := h
  refine ⟨_, mem_pageSteps.mpr ⟨(x * PAGE_SIZE - a.startAddress.toNat + (PAGE_SIZE - 1)) / PAGE_SIZE,
    rfl, ?_⟩, ?_⟩
  · unfold PAGE_SIZE at *
    omega
  · unfold PAGE_SIZE at *
    omega

theorem mem_rangePages {addr : Nat} (h : addr ∈ rangePages start stop) : stop < Word.modulus ∧
    (start < Word.modulus → PAGE_SIZE ∣ addr ∧ start / PAGE_SIZE * PAGE_SIZE ≤ addr ∧
      addr < (stop + (PAGE_SIZE - 1)) / PAGE_SIZE * PAGE_SIZE ∧ addr < Word.modulus) := by
  obtain ⟨i, rfl, hlt⟩ := mem_pageSteps.mp h
  cases hup : alignUp stop PAGE_SIZE with
  | none =>
    rw [hup] at hlt
    simp at hlt
  | some stop' =>
    rw [hup, Option.getD_some] at hlt
    obtain ⟨hge, hstop, ⟨q, rfl⟩, hword⟩ := alignUp_spec hup
    refine ⟨lt_of_le_of_lt hge hword, fun hstart => ?_⟩
    rw [alignDown_spec hstart] at hlt ⊢
    refine ⟨Nat.dvd_add (Nat.dvd_mul_left _ _) (Nat.dvd_mul_left _ _), Nat.le_add_right _ _, ?_,
      lt_trans hlt hword⟩
    unfold PAGE_SIZE at *
    omega

/-! ### Pages of the window -/

theorem pageBits_window (hy : y < 2 ^ 47) : pageBits (KERNEL_VMA + y) = 2 ^ 35 + y / PAGE_SIZE := by
  unfold pageBits KERNEL_VMA PAGE_SIZE
  omega

theorem rangeCalls_off (hk : l.kernelStart < l.kernelEnd) (hin : l.InKernel start stop)
    (hclear : Clear l.reserved (y / PAGE_SIZE)) (hy : y < 2 ^ 47)
    (hc : c ∈ rangeCalls start stop flags) : pageBits c.virt ≠ pageBits (KERNEL_VMA + y) := by
  obtain ⟨addr, haddr, rfl⟩ := List.mem_map.mp hc
  obtain ⟨⟨q, rfl⟩, hlo, hhi, hword⟩ := (mem_rangePages haddr).2 hin.word
  have habove := hin.above
  have hbelow := hin.below
  rw [pageBits_window hy]
  intro hbits
  -- a byte of the page and of the kernel
  refine hclear (l.kernelStart, l.kernelEnd) List.mem_cons_self
    (max l.kernelStart (y / PAGE_SIZE * PAGE_SIZE)) (le_max_right _ _) ?_ ⟨le_max_left _ _, ?_⟩
  · unfold pageBits KERNEL_VMA PAGE_SIZE Word.modulus at *
    simp only at hbits
    omega
  · unfold pageBits KERNEL_VMA PAGE_SIZE Word.modulus at *
    simp only at hbits
    omega

theorem identityCalls_off (hstart : start < 2 ^ 46) (hstop : stop < 2 ^ 46) (hy : y < 2 ^ 47)
    (hc : c ∈ identityCalls start stop flags) : pageBits c.virt ≠ pageBits (KERNEL_VMA + y) := by
  obtain ⟨addr, haddr, rfl⟩ := List.mem_map.mp hc
  obtain ⟨_, _, hhi, _⟩ := (mem_rangePages haddr).2 (lt_trans hstart (by decide))
  rw [pageBits_window hy]
  unfold pageBits PAGE_SIZE at *
  simp only
  omega

/-- **No range is for a page without a reserved byte.** -/
theorem rangesCalls_off (hl : l.Linked) (hclear : Clear l.reserved (y / PAGE_SIZE)) (hy : y < 2 ^ 47) :
    ∀ c ∈ rangesCalls l, pageBits c.virt ≠ pageBits (KERNEL_VMA + y) := by
  intro c hc
  have hmbi := hl.mbi
  have hsize := hl.mbiSize
  simp only [rangesCalls, List.mem_append] at hc
  rcases hc with hc | hc | hc | hc | hc | hc | hc
  · obtain ⟨addr, haddr, _⟩ := List.mem_map.mp hc
    have hword := (mem_rangePages haddr).1
    have hkernel := hl.kernel
    refine rangeCalls_off hl.kernel ⟨by omega, ?_, ?_⟩ hclear hy hc
    · have := Nat.div_mul_le_self l.kernelStart PAGE_SIZE
      omega
    · unfold PAGE_SIZE
      omega
  · exact identityCalls_off (by decide) (by decide) hy hc
  · exact identityCalls_off (by omega) (by omega) hy hc
  · exact rangeCalls_off hl.kernel hl.text hclear hy hc
  · exact rangeCalls_off hl.kernel hl.rodata hclear hy hc
  · exact rangeCalls_off hl.kernel hl.data hclear hy hc
  · exact rangeCalls_off hl.kernel hl.bss hclear hy hc

/-- What the processor finds in the window on page `x`. -/
def window (x : Nat) : Translation where
  frame := x * PAGE_SIZE
  user := false
  writable := true
  nx := true

theorem windowCalls_translation (hlow : ∀ a ∈ memMap, a.usable = true → a.endAddress.toNat ≤ 2 ^ 47)
    (hy : y < 2 ^ 47) (hc : c ∈ windowCalls memMap)
    (hbits : pageBits c.virt = pageBits (KERNEL_VMA + y)) :
    c.translation = window (y / PAGE_SIZE) := by
  obtain ⟨a, ha, hc⟩ := List.mem_flatMap.mp hc
  obtain ⟨phys, hphys, rfl⟩ := List.mem_map.mp hc
  obtain ⟨_, _, hlt⟩ := mem_pageSteps.mp hphys
  obtain ⟨ha, husable⟩ := List.mem_filter.mp ha
  have hphys : phys < 2 ^ 47 := lt_of_lt_of_le hlt (hlow a ha husable)
  rw [Nat.add_comm, pageBits_window hphys, pageBits_window hy, Nat.add_left_cancel_iff] at hbits
  have hmask := PageTableEntry.and_mask_eq (show phys < 2 ^ 52 by omega)
  rw [Call.translation, window, hmask, ← hbits]
  rfl

theorem exists_windowCall {a : MemoryArea} (ha : a ∈ memMap) (husable : a.usable = true)
    (hlow : a.endAddress.toNat ≤ 2 ^ 47) (hy : y < 2 ^ 47) (hpage : a.HasPage (y / PAGE_SIZE)) :
    ∃ c ∈ windowCalls memMap, pageBits c.virt = pageBits (KERNEL_VMA + y) := by
  obtain ⟨phys, hphys, hpage⟩ := exists_step hpage
  obtain ⟨_, _, hlt⟩ := mem_pageSteps.mp hphys
  refine ⟨_, List.mem_flatMap.mpr ⟨a, List.mem_filter.mpr ⟨ha, husable⟩,
    List.mem_map.mpr ⟨phys, hphys, rfl⟩⟩, ?_⟩
  simp only
  rw [Nat.add_comm, pageBits_window (lt_of_lt_of_le hlt hlow), pageBits_window hy, hpage]

theorem lastCall_kernelCalls (hlow : ∀ a ∈ memMap, a.usable = true → a.endAddress.toNat ≤ 2 ^ 47)
    (hl : l.Linked) {a : MemoryArea} (ha : a ∈ memMap) (husable : a.usable = true)
    (hpage : a.HasPage (y / PAGE_SIZE)) (hclear : Clear l.reserved (y / PAGE_SIZE)) (hy : y < 2 ^ 47) :
    (lastCall (kernelCalls memMap l) (KERNEL_VMA + y)).map Call.translation =
      some (window (y / PAGE_SIZE)) := by
  rw [kernelCalls, lastCall_append, lastCall_eq_none.mpr (rangesCalls_off hl hclear hy), Option.none_or]
  cases hlast : lastCall (windowCalls memMap) (KERNEL_VMA + y) with
  | none =>
    obtain ⟨c, hc, hbits⟩ := exists_windowCall ha husable (hlow a ha husable) hy hpage
    exact absurd hbits (lastCall_eq_none.mp hlast c hc)
  | some c =>
    obtain ⟨hc, hbits⟩ := lastCall_eq_some hlast
    rw [Option.map_some, windowCalls_translation hlow hy hc hbits]

/-! ### The kernel's page table -/

/-- Every byte of page `x` is found at its place in the window, by the kernel alone, and may be
written. -/
def Shown (m : Memory) (pml4 x : Nat) : Prop :=
  ∀ y, y / PAGE_SIZE = x → walk m pml4 (KERNEL_VMA + y) = some (window x)

theorem shown_of_tag {metadata : List PageInfo} {b : BuddyAllocator} {mem : Memory} {pml4 : Nat}
    {pm : PhysMem} (hlen : metadata.length ≤ MAX_SUPPORTED_PAGES) (hareas : DisjointAreas memMap)
    (hlow : ∀ a ∈ memMap, a.usable = true → a.endAddress.toNat ≤ 2 ^ 47) (hl : l.Linked)
    (hnew : BuddyAllocator.new metadata memMap l.reserved = some b)
    (hinit : initKernelPageTable { buddy := b, mem := mem } memMap l = some (pml4, pm))
    (hx : (b.tag x).isSome = true) : (x + 1) * PAGE_SIZE ≤ 2 ^ 47 ∧ Shown pm.mem pml4 x ∧
      ∀ c ∈ rangesCalls l, pageBits c.virt ≠ pageBits (KERNEL_VMA + x * PAGE_SIZE) := by
  obtain ⟨L₀, hI₀, _, hfree, hfrom⟩ := fresh_of_new hlen hareas.pages hnew
  obtain ⟨pm₀, hled₀, hzero, hmap⟩ := initKernelPageTable_run (Ledger.start hI₀ hfree) hinit
  have hwalk : ∀ v, walk pm.mem pml4 v =
      (lastCall (kernelCalls memMap l) v).map Call.translation := by
    rcases walk_of_mapAll hled₀ List.mem_cons_self hzero (kernelCalls memMap l) with
      ⟨hnone, _⟩ | ⟨pm', he, hwalk⟩
    · exact absurd (hmap.symm.trans hnone) (by simp)
    · obtain rfl := Option.some.inj (hmap.symm.trans he)
      exact hwalk
  obtain ⟨⟨o, c⟩, ht⟩ := Option.isSome_iff_exists.mp hx
  obtain ⟨⟨a, ha, husable, hpage⟩, hclear⟩ := page_of_tag hfrom ht
  have hbound : (x + 1) * PAGE_SIZE ≤ 2 ^ 47 := hpage.2.trans (hlow a ha husable)
  have hbelow : ∀ {y}, y / PAGE_SIZE = x → y < 2 ^ 47 := fun hy =>
    lt_of_lt_of_le ((Nat.div_lt_iff_lt_mul (by decide)).mp (hy ▸ Nat.lt_succ_self _)) hbound
  have hself : x * PAGE_SIZE / PAGE_SIZE = x := Nat.mul_div_cancel _ (by decide)
  refine ⟨hbound, fun y hy => ?_, rangesCalls_off hl (by rw [hself]; exact hclear) (hbelow hself)⟩
  subst hy
  rw [hwalk, lastCall_kernelCalls hlow hl ha husable hpage hclear (hbelow rfl)]

/-- **The window shows everything that the allocator can hand out.**  After
`init_kernel_page_table`, each page that was free at first is mapped to itself, and no range that
is mapped later is for it; so each page of a block that is ever handed out is shown. -/
theorem direct_map {metadata : List PageInfo} {b : BuddyAllocator} {mem : Memory} {pml4 : Nat}
    {pm : PhysMem} (hlen : metadata.length ≤ MAX_SUPPORTED_PAGES) (hareas : DisjointAreas memMap)
    (hlow : ∀ a ∈ memMap, a.usable = true → a.endAddress.toNat ≤ 2 ^ 47) (hl : l.Linked)
    (hnew : BuddyAllocator.new metadata memMap l.reserved = some b)
    (hinit : initKernelPageTable { buddy := b, mem := mem } memMap l = some (pml4, pm)) :
    (∀ x, (b.info x).isFree = true → Shown pm.mem pml4 x ∧
      ∀ c ∈ rangesCalls l, pageBits c.virt ≠ pageBits (KERNEL_VMA + x * PAGE_SIZE)) ∧
    ∀ s, Reach b s → ∀ addr o, (addr, o) ∈ s.live → ∀ x, InBlock addr o x → Shown pm.mem pml4 x := by
  obtain ⟨L₀, hI₀, _, hfree, _⟩ := fresh_of_new hlen hareas.pages hnew
  have hshown : ∀ {x}, (b.tag x).isSome = true → Shown pm.mem pml4 x ∧
      ∀ c ∈ rangesCalls l, pageBits c.virt ≠ pageBits (KERNEL_VMA + x * PAGE_SIZE) :=
    fun hx => (shown_of_tag hlen hareas hlow hl hnew hinit hx).2
  refine ⟨fun x hx => ?_, fun s hs addr o hlive x hx => ?_⟩
  · obtain ⟨o, ht⟩ := hI₀.isFree_iff.mp hx
    exact hshown (by rw [ht]; rfl)
  · have hled := hs.ledger hI₀ hfree
    refine (hshown ?_).1
    rw [← hled.pages x, (hled.block_of_page (.live hlive) hx).1]
    rfl

/-! ### A kernel of four sections -/

/-- One page for each section, the last one not full. -/
def fourSections : BootLayout where
  kernelStart := 0x100000
  kernelEnd := 0x104800
  mbiStart := 0x10000
  mbiEnd := 0x10400
  textStart := KERNEL_VMA + 0x101000
  textEnd := KERNEL_VMA + 0x102000
  rodataStart := KERNEL_VMA + 0x102000
  rodataEnd := KERNEL_VMA + 0x103000
  dataStart := KERNEL_VMA + 0x103000
  dataEnd := KERNEL_VMA + 0x104000
  bssStart := KERNEL_VMA + 0x104000
  bssEnd := KERNEL_VMA + 0x105000

theorem fourSections_linked : fourSections.Linked where
  kernel := by decide
  mbi := by decide
  mbiSize := by decide
  text := ⟨by decide, by decide, by decide⟩
  rodata := ⟨by decide, by decide, by decide⟩
  data := ⟨by decide, by decide, by decide⟩
  bss := ⟨by decide, by decide, by decide⟩

/-- An area that starts in the middle of page `1`; the boot information is on page `16`. -/
theorem direct_map_unaligned : ∃ b pml4 pm,
    BuddyAllocator.new (List.replicate 32 default) [⟨0x1800, 0x20000, 1⟩] fourSections.reserved =
      some b ∧
    initKernelPageTable { buddy := b, mem := { bytes := fun _ => 0, stores := [] } }
      [⟨0x1800, 0x20000, 1⟩] fourSections = some (pml4, pm) ∧
    (b.info 2).isFree = true ∧ walk pm.mem pml4 (KERNEL_VMA + 0x2123) = some (window 2) := by
  have hrun : ((BuddyAllocator.new (List.replicate 32 default) [⟨0x1800, 0x20000, 1⟩]
      fourSections.reserved).bind fun b => (initKernelPageTable
        { buddy := b, mem := { bytes := fun _ => 0, stores := [] } } [⟨0x1800, 0x20000, 1⟩]
        fourSections).map fun _ => (b.info 2).isFree) = some true := by decide +kernel
  obtain ⟨b, hnew, hrun⟩ := Option.bind_eq_some_iff.mp hrun
  obtain ⟨⟨pml4, pm⟩, hinit, hfree⟩ := Option.map_eq_some_iff.mp hrun
  have hareas : DisjointAreas [⟨0x1800, 0x20000, 1⟩] := List.pairwise_singleton _ _
  have hmap := direct_map (by decide) hareas (by decide) fourSections_linked hnew hinit
  exact ⟨b, pml4, pm, hnew, hinit, hfree, (hmap.1 2 hfree).1 0x2123 (by decide)⟩

/-- An area that is listed twice: the allocator hands out its first page for two tables, and no
page of the area is found. -/
theorem listed_twice_not_shown : ∃ b pml4 pm, fourSections.Linked ∧
    BuddyAllocator.new (List.replicate 32 default) [⟨0x1000, 0x10000, 1⟩, ⟨0x1000, 0x10000, 1⟩]
      fourSections.reserved = some b ∧
    initKernelPageTable { buddy := b, mem := { bytes := fun _ => 0, stores := [] } }
      [⟨0x1000, 0x10000, 1⟩, ⟨0x1000, 0x10000, 1⟩] fourSections = some (pml4, pm) ∧
    (b.info 2).isFree = true ∧ walk pm.mem pml4 (KERNEL_VMA + 0x2000) = none := by
  have hrun : ((BuddyAllocator.new (List.replicate 32 default)
      [⟨0x1000, 0x10000, 1⟩, ⟨0x1000, 0x10000, 1⟩] fourSections.reserved).bind fun b =>
        (initKernelPageTable { buddy := b, mem := { bytes := fun _ => 0, stores := [] } }
          [⟨0x1000, 0x10000, 1⟩, ⟨0x1000, 0x10000, 1⟩] fourSections).map fun x =>
            ((b.info 2).isFree, walk x.2.mem x.1 (KERNEL_VMA + 0x2000))) = some (true, none) := by
    decide +kernel
  obtain ⟨b, hnew, hrun⟩ := Option.bind_eq_some_iff.mp hrun
  obtain ⟨⟨pml4, pm⟩, hinit, hrun⟩ := Option.map_eq_some_iff.mp hrun
  obtain ⟨hfree, hwalk⟩ := Prod.mk.inj hrun
  exact ⟨b, pml4, pm, fourSections_linked, hnew, hinit, hfree, hwalk⟩

end Page

end Zeronix
