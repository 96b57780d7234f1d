import Zeronix.Mem.DirectMap
import Zeronix.Mem.Room

/-!
# Mapping with room for the tables

How many frames a run of `map` calls needs.  A call below a last table that is there takes none
(`map_buddy`), and one that turns to another last table takes three at most, so the turns of the
run bound what it takes (`mapAll_room`).  With room for those of the kernel's mappings
`init_kernel_page_table` returns (`initKernelPageTable_room`).
-/

namespace Zeronix

open Radix BuddyAllocator Session

namespace Mapper

open PageTableEntry

variable {σ : Space} {b : BuddyAllocator} {live : List (Nat × Nat)} {pm pm' : PhysMem}
variable {r t u i virt phys order n : Nat} {p : List Nat} {F : EntryFlags}

/-! ### Tables that are there -/

theorem present_of_descend (hd : σ.scheme.descend (entry pm.mem) r (i :: p) = some u)
    (ht : σ.scheme.descend (entry pm.mem) r p = some t) : isPresent (entry pm.mem t i) = true := by
  obtain ⟨t', ht', hchild⟩ := Scheme.descend_cons.mp hd
  obtain rfl := Option.some.inj (ht.symm.trans ht')
  by_contra hno
  rw [child_eq, if_neg hno] at hchild
  simp at hchild

theorem getOrCreateTable_buddy {e : Nat} (hpres : isPresent (pm.mem.load e) = true)
    (he : getOrCreateTable pm e F = some (t, pm')) : pm'.buddy = pm.buddy := by
  rw [getOrCreateTable, ensureTable, hpres, if_neg (by simp), Option.bind_eq_bind,
    Option.bind_some] at he
  obtain ⟨_, _, he⟩ := Option.map_eq_some_iff.mp he
  obtain ⟨_, rfl⟩ := Prod.mk.inj he
  rfl

/-- **Mapping below a table that is there** takes no frame. -/
theorem map_buddy (h : Tables σ b live pm) (hr : σ.root r)
    (hd : σ.scheme.descend (entry pm.mem) r (indices virt).tail = some u)
    (he : map pm r virt phys F = some pm') : pm'.buddy = pm.buddy := by
  simp only [map, Option.bind_eq_bind, Option.bind_eq_some_iff] at he
  obtain ⟨⟨pdpt, pm₁⟩, e₁, ⟨pd, pm₂⟩, e₂, ⟨pt, pm₃⟩, e₃, he⟩ := he
  obtain rfl := Option.some.inj he
  have hp3 := path_indices (σ := σ) virt
  have hp2 := hp3.tail
  obtain ⟨t₂, ht₂, _⟩ := Scheme.descend_cons.mp hd
  obtain ⟨t₁, ht₁, _⟩ := Scheme.descend_cons.mp ht₂
  obtain ⟨_, hg₁, hd₁⟩ := getOrCreateTable_grew h hr hp2.tail rfl e₁
  obtain ⟨_, hg₂, hd₂⟩ := getOrCreateTable_grew hg₁.tables hr hp2 hd₁ e₂
  have hway₁ := hg₁.along.mono hr hp3 hd
  have hway₂ := hg₂.along.mono hr hp3 hway₁
  have h₁ := getOrCreateTable_buddy (present_of_descend ht₁ rfl) e₁
  have h₂ := getOrCreateTable_buddy (present_of_descend (hg₁.along.mono hr hp2 ht₂) hd₁) e₂
  have h₃ := getOrCreateTable_buddy (present_of_descend hway₂ hd₂) e₃
  exact h₃.trans (h₂.trans h₁)

/-! ### Runs -/

/-- How often a run of calls turns to another 2 MiB of addresses, and so to another last table,
than the call before. -/
def turns : Option Nat → List Call → Nat
  | _, [] => 0
  | last, c :: calls =>
    (if last = some (c.virt / 2 ^ 21) then 0 else 1) + turns (some (c.virt / 2 ^ 21)) calls

theorem tail_indices {v w : Nat} (h : v / 2 ^ 21 = w / 2 ^ 21) :
    (indices v).tail = (indices w).tail := by
  simp only [indices, List.tail_cons, index_eq, List.cons.injEq, and_true]
  omega

/-- **A run of `map` calls** returns when there is room for three tables at each of its turns. -/
theorem mapAll_room (hord : order < MAX_ORDER) (hr : σ.root r) (calls : List Call) :
    ∀ {pm live} last, Tables σ b live pm → Room b pm.buddy order (n + 3 * turns last calls + 3) →
      (∀ v, last = some (v / 2 ^ 21) →
        ∃ u, σ.scheme.descend (entry pm.mem) r (indices v).tail = some u) →
      ∃ pm' k, mapAll pm r calls = some pm' ∧ pm.buddy.takeFrames k = some pm'.buddy ∧
        Room b pm'.buddy order (n + 3) := by
  induction calls with
  | nil => exact fun _ _ hroom _ => ⟨_, 0, rfl, rfl, hroom⟩
  | cons c calls ih =>
    intro pm live last h hroom hlast
    have hcons : mapAll pm r (c :: calls) =
        (map pm r c.virt c.phys c.flags).bind fun pm => mapAll pm r calls := List.foldlM_cons
    rw [turns] at hroom
    rcases map_spec h hr c.virt c.phys c.flags with
      ⟨_, hnone⟩ | ⟨pm₁, new, pt, he, hlen, hg, hd, _⟩
    · obtain ⟨a, hsome, _⟩ := hroom.takeFrames hord
      simp [hnone] at hsome
    have hnext : ∀ v, some (c.virt / 2 ^ 21) = some (v / 2 ^ 21) →
        ∃ u, σ.scheme.descend (entry pm₁.mem) r (indices v).tail = some u :=
      fun v hv => ⟨pt, by rw [tail_indices (Option.some.inj hv.symm)]; exact hd⟩
    have hroom₁ : Room b pm₁.buddy order (n + 3 * turns (some (c.virt / 2 ^ 21)) calls + 3) := by
      by_cases hsame : last = some (c.virt / 2 ^ 21)
      · obtain ⟨u, hu⟩ := hlast c.virt hsame
        rw [map_buddy h hr hu he]
        exact hroom.mono (by omega)
      · rw [if_neg hsame] at hroom
        obtain ⟨a, htake, ha⟩ := Room.takeFrames hord
          (hroom.mono (k := n + 3 * turns (some (c.virt / 2 ^ 21)) calls + 3 + new.length) (by omega))
        obtain rfl := Option.some.inj (hg.taken.symm.trans htake)
        exact ha
    obtain ⟨pm₂, k, he₂, htake, hroom₂⟩ := ih _ hg.tables hroom₁ hnext
    refine ⟨pm₂, new.length + k, by rw [hcons, he]; exact he₂, ?_, hroom₂⟩
    rw [takeFrames_add, hg.taken]
    exact htake

end Mapper

namespace Page

open Mapper

variable {b : BuddyAllocator} {pm pm' : PhysMem} {l : BootLayout} {memMap : List MemoryArea}
variable {pml4 order n start stop : Nat} {flags : EntryFlags}

/-! ### The calls of the kernel -/

/-- A loop whose rounds are calls of `map`, also when it panics. -/
theorem foldlM_eq_mapAll {α : Type} {round : PhysMem → α → Option PhysMem} (f : α → Call)
    (l : List α) (hround : ∀ pm, ∀ a ∈ l,
      round pm a = map pm pml4 (f a).virt (f a).phys (f a).flags) :
    ∀ pm, l.foldlM round pm = mapAll pm pml4 (l.map f) := by
  induction l with
  | nil => exact fun _ => rfl
  | cons a l ih =>
    intro pm
    rw [List.map_cons, mapAll, List.foldlM_cons, List.foldlM_cons, hround pm a List.mem_cons_self]
    congr 1
    funext pm₁
    exact ih (fun pm a ha => hround pm a (List.mem_cons_of_mem _ ha)) pm₁

theorem mapArea_run {area : MemoryArea} (h : area.endAddress.toNat ≤ 2 ^ 47) (pm : PhysMem) :
    mapArea pml4 pm area = mapAll pm pml4 (areaCalls area) := by
  refine foldlM_eq_mapAll _ _ (fun pm phys hphys => ?_) pm
  obtain ⟨_, _, hlt⟩ := mem_pageSteps.mp hphys
  obtain ⟨virt, hvirt⟩ := physToVirt_of_lt (Nat.lt_of_lt_of_le hlt h)
  rw [mapWindowPage, hvirt, physToVirt_eq_some hvirt]
  rfl

theorem mapAreas_run (areas : List MemoryArea) (h : ∀ a ∈ areas, a.endAddress.toNat ≤ 2 ^ 47) :
    ∀ pm, areas.foldlM (mapArea pml4) pm = mapAll pm pml4 (areas.flatMap areaCalls) := by
  induction areas with
  | nil => exact fun _ => rfl
  | cons a areas ih =>
    intro pm
    rw [List.flatMap_cons, mapAll_append, List.foldlM_cons, mapArea_run (h a List.mem_cons_self)]
    congr 1
    funext pm₁
    exact ih (fun a ha => h a (List.mem_cons_of_mem _ ha)) pm₁

theorem setRange_run (hstart : KERNEL_VMA ≤ start) (hword : start < Word.modulus)
    (hstop : stop + PAGE_SIZE < Word.modulus) (pm : PhysMem) :
    setRange pm pml4 start stop flags = mapAll pm pml4 (rangeCalls start stop flags) := by
  obtain ⟨stop', hup⟩ := alignUp_some hstop
  rw [setRange, rangeCalls, rangePages, hup, Option.getD_some]
  refine foldlM_eq_mapAll _ _ (fun pm addr haddr => ?_) pm
  obtain ⟨i, rfl, _⟩ := mem_pageSteps.mp haddr
  have hge : KERNEL_VMA ≤ alignDown start PAGE_SIZE + i * PAGE_SIZE := by
    rw [alignDown_spec hword]
    unfold KERNEL_VMA PAGE_SIZE at *
    omega
  rw [mapKernelPage, Word.sub, if_pos hge]
  rfl

theorem setIdentityRange_run (hstop : stop + PAGE_SIZE < Word.modulus) (pm : PhysMem) :
    setIdentityRange pm pml4 start stop flags =
      mapAll pm pml4 (identityCalls start stop flags) := by
  obtain ⟨stop', hup⟩ := alignUp_some hstop
  rw [setIdentityRange, identityCalls, rangePages, hup, Option.getD_some]
  exact foldlM_eq_mapAll (fun addr => { virt := addr, phys := addr, flags := flags }) _
    (fun _ _ _ => rfl) pm

theorem setSection_run (h : l.InKernel start stop) (hk : l.kernelEnd ≤ 2 ^ 46) (pm : PhysMem) :
    setRange pm pml4 start stop flags = mapAll pm pml4 (rangeCalls start stop flags) := by
  have habove := h.above
  have hbelow := h.below
  refine setRange_run (by omega) h.word ?_ pm
  unfold KERNEL_VMA PAGE_SIZE Word.modulus at *
  omega

/-- **The mappings of the kernel** are the run of its calls, also when that panics. -/
theorem mapKernel_run (hl : l.Linked) (hk : l.kernelEnd ≤ 2 ^ 46)
    (hlow : ∀ a ∈ memMap, a.usable = true → a.endAddress.toNat ≤ 2 ^ 47) (pm : PhysMem) :
    mapKernel pm pml4 memMap l = mapAll pm pml4 (kernelCalls memMap l) := by
  have hareas : ∀ a ∈ memMap.filter (·.usable), a.endAddress.toNat ≤ 2 ^ 47 := fun a ha =>
    hlow a (List.mem_filter.mp ha).1 (List.mem_filter.mp ha).2
  have hkernel := hl.kernel
  have hmbi := hl.mbi
  have hsize := hl.mbiSize
  obtain ⟨kstart, hkstart⟩ := physToVirt_of_lt (show l.kernelStart < 2 ^ 47 by omega)
  obtain ⟨kend, hkend⟩ := physToVirt_of_lt (show l.kernelEnd < 2 ^ 47 by omega)
  have hfirst : ∀ pm flags, setRange pm pml4 kstart kend flags =
      mapAll pm pml4 (rangeCalls kstart kend flags) := by
    intro pm flags
    have hstart := physToVirt_eq_some hkstart
    have hend := physToVirt_eq_some hkend
    unfold KERNEL_VMA at hstart hend
    refine setRange_run ?_ ?_ ?_ pm
    · unfold KERNEL_VMA
      omega
    · unfold Word.modulus
      omega
    · unfold PAGE_SIZE Word.modulus
      omega
  have hboot : ∀ pm flags, setIdentityRange pm pml4 BOOTDATA_START BOOTDATA_END flags =
      mapAll pm pml4 (identityCalls BOOTDATA_START BOOTDATA_END flags) :=
    fun pm _ => setIdentityRange_run (by decide) pm
  have hinfo : ∀ pm flags, setIdentityRange pm pml4 l.mbiStart l.mbiEnd flags =
      mapAll pm pml4 (identityCalls l.mbiStart l.mbiEnd flags) := by
    intro pm flags
    refine setIdentityRange_run ?_ pm
    unfold PAGE_SIZE Word.modulus
    omega
  rw [kernelCalls, rangesCalls, windowCalls, ← physToVirt_eq_some hkstart,
    ← physToVirt_eq_some hkend]
  simp only [mapKernel, mapAll_append, Option.bind_eq_bind, mapAreas_run _ hareas, hkstart, hkend,
    Option.bind_some, hfirst, hboot, hinfo, setSection_run hl.text hk, setSection_run hl.rodata hk,
    setSection_run hl.data hk, setSection_run hl.bss hk]

/-- A frame for a PML4. -/
theorem allocPml4_room (h : Room b pm.buddy order (n + 1)) (hord : order < MAX_ORDER) :
    ∃ f pm₁ live, allocPml4 pm = some (f, pm₁) ∧ f < 2 ^ 47 ∧ pm₁.mem = pm.mem ∧
      pm.buddy.takeFrames 1 = some pm₁.buddy ∧ Room b pm₁.buddy order n ∧
      Ledger b { allocator := pm₁.buddy, live := (f, 0) :: live } := by
  obtain ⟨live, hled⟩ := h.ledger
  obtain ⟨a', htake', hroom⟩ := Room.takeFrames (k := 1) hord h
  rcases takeFrame_cases hled with ⟨_, hnone⟩ | ⟨f, a, he, htake, _, hlt, _, hled'⟩
  · simp [hnone] at htake'
  · obtain rfl := Option.some.inj (htake.symm.trans htake')
    refine ⟨f, { pm with buddy := a }, live, ?_, hlt, rfl, htake, hroom, hled'⟩
    rw [allocPml4, he]

/-- **The kernel's page table** is built when there is room for its tables. -/
theorem initKernelPageTable_room (hord : order < MAX_ORDER) (hl : l.Linked)
    (hk : l.kernelEnd ≤ 2 ^ 46)
    (hlow : ∀ a ∈ memMap, a.usable = true → a.endAddress.toNat ≤ 2 ^ 47)
    (h : Room b pm.buddy order (n + 3 * turns none (kernelCalls memMap l) + 3 + 1)) :
    ∃ pml4 pm' k, initKernelPageTable pm memMap l = some (pml4, pm') ∧
      pm.buddy.takeFrames k = some pm'.buddy ∧ Room b pm'.buddy order (n + 3) := by
  obtain ⟨f, pm₁, live, halloc, hlt, hmem, htake, hroom, hled⟩ := allocPml4_room h hord
  obtain ⟨virt, hvirt⟩ := physToVirt_of_lt hlt
  obtain ⟨htab, _⟩ := tables_of_zero (m := pm₁.mem.fill f PAGE_SIZE 0) (σ := .single f)
    (fun hr => hr) hled List.mem_cons_self fun i hi => entry_fill_self _ _ hi
  obtain ⟨pm', k, he, htake', hroom'⟩ := mapAll_room hord rfl (kernelCalls memMap l) none htab
    hroom (by simp)
  refine ⟨f, pm', 1 + k, ?_, ?_, hroom'⟩
  · simp only [initKernelPageTable, halloc, Option.bind_eq_bind, Option.bind_some, clearPml4, hvirt,
      Option.map_some, mapKernel_run hl hk hlow, he]
    rfl
  · rw [takeFrames_add, htake]
    exact htake'

end Page

end Zeronix
