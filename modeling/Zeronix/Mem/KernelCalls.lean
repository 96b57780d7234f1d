import Zeronix.Mem.Page
import Zeronix.Mem.PageWalk

/-!
# The calls of `init_kernel_page_table`

`init_kernel_page_table` is a run of `map` calls: the window on the usable areas first
(`windowCalls`), then the ranges of the kernel, of the boot data and of the sections
(`rangesCalls`).  What the processor finds afterwards is therefore what the last call for a page
says.
-/

namespace Zeronix

open Mapper

namespace Page

variable {pml4 : Nat} {pm pm' : PhysMem} {flags : EntryFlags}

/-! ### Loops over `map` -/

theorem mapAll_append (pm : PhysMem) (pml4 : Nat) (calls later : List Call) :
    mapAll pm pml4 (calls ++ later) = (mapAll pm pml4 calls).bind fun pm => mapAll pm pml4 later :=
  List.foldlM_append

/-- A loop whose rounds are calls of `map` is a run of `map`. -/
theorem mapAll_of_foldlM {α : Type} {round : PhysMem → α → Option PhysMem} (f : α → Call)
    (hround : ∀ {pm a pm'}, round pm a = some pm' →
      map pm pml4 (f a).virt (f a).phys (f a).flags = some pm') (l : List α) :
    ∀ {pm}, l.foldlM round pm = some pm' → mapAll pm pml4 (l.map f) = some pm' := by
  induction l with
  | nil => exact fun h => h
  | cons a l ih =>
    intro pm h
    rw [List.foldlM_cons, Option.bind_eq_bind, Option.bind_eq_some_iff] at h
    obtain ⟨pm₁, h₁, h⟩ := h
    have hrest := ih h
    rw [mapAll] at hrest ⊢
    rw [List.map_cons, List.foldlM_cons, hround h₁]
    exact hrest

/-! ### The window -/

theorem physToVirt_eq_some {phys virt : Nat} (h : physToVirt phys = some virt) :
    virt = phys + KERNEL_VMA := by
  unfold physToVirt at h
  split at h
  · exact (Option.some.inj h).symm
  · simp at h

/-- The pages of an area, from its start on. -/
def areaCalls (area : MemoryArea) : List Call :=
  (pageSteps area.startAddress.toNat area.endAddress.toNat).map fun phys =>
    { virt := phys + KERNEL_VMA
      phys := phys
      flags := EntryFlags.PRESENT ||| EntryFlags.WRITABLE ||| EntryFlags.NX }

def windowCalls (memMap : List MemoryArea) : List Call :=
  (memMap.filter (·.usable)).flatMap areaCalls

theorem mapArea_eq {area : MemoryArea} (h : mapArea pml4 pm area = some pm') :
    mapAll pm pml4 (areaCalls area) = some pm' := by
  refine mapAll_of_foldlM _ (fun {pm phys pm'} h => ?_) _ h
  obtain ⟨virt, hvirt, h⟩ := Option.bind_eq_some_iff.mp h
  rw [physToVirt_eq_some hvirt] at h
  exact h

theorem mapAreas_eq (areas : List MemoryArea) : ∀ {pm}, areas.foldlM (mapArea pml4) pm = some pm' →
    mapAll pm pml4 (areas.flatMap areaCalls) = some pm' := by
  induction areas with
  | nil => exact fun h => h
  | cons a areas ih =>
    intro pm h
    rw [List.foldlM_cons, Option.bind_eq_bind, Option.bind_eq_some_iff] at h
    obtain ⟨pm₁, h₁, h⟩ := h
    rw [List.flatMap_cons, mapAll_append, mapArea_eq h₁]
    exact ih h

/-! ### Ranges -/

/-- The pages of a range that is rounded outward. -/
def rangePages (start stop : Nat) : List Nat :=
  pageSteps (alignDown start PAGE_SIZE) ((alignUp stop PAGE_SIZE).getD 0)

def rangeCalls (start stop : Nat) (flags : EntryFlags) : List Call :=
  (rangePages start stop).map fun addr => { virt := addr, phys := addr - KERNEL_VMA, flags := flags }

def identityCalls (start stop : Nat) (flags : EntryFlags) : List Call :=
  (rangePages start stop).map fun addr => { virt := addr, phys := addr, flags := flags }

theorem setRange_eq {start stop : Nat} (h : setRange pm pml4 start stop flags = some pm') :
    mapAll pm pml4 (rangeCalls start stop flags) = some pm' := by
  simp only [setRange, Option.bind_eq_bind, Option.bind_eq_some_iff] at h
  obtain ⟨stop', hstop, h⟩ := h
  rw [rangeCalls, rangePages, hstop, Option.getD_some]
  refine mapAll_of_foldlM _ (fun {pm addr pm'} h => ?_) _ h
  obtain ⟨phys, hphys, h⟩ := Option.bind_eq_some_iff.mp h
  rw [(Word.sub_eq_some.mp hphys).2] at h
  exact h

theorem setIdentityRange_eq {start stop : Nat}
    (h : setIdentityRange pm pml4 start stop flags = some pm') :
    mapAll pm pml4 (identityCalls start stop flags) = some pm' := by
  simp only [setIdentityRange, Option.bind_eq_bind, Option.bind_eq_some_iff] at h
  obtain ⟨stop', hstop, h⟩ := h
  rw [identityCalls, rangePages, hstop, Option.getD_some]
  exact mapAll_of_foldlM _ (fun h => h) _ h

/-! ### All of them -/

/-- The calls that come after the window. -/
def rangesCalls (l : BootLayout) : List Call :=
  rangeCalls (l.kernelStart + KERNEL_VMA) (l.kernelEnd + KERNEL_VMA)
      (EntryFlags.PRESENT ||| EntryFlags.WRITABLE ||| EntryFlags.NX ||| EntryFlags.GLOBAL) ++
    (identityCalls BOOTDATA_START BOOTDATA_END
        (EntryFlags.PRESENT ||| EntryFlags.WRITABLE ||| EntryFlags.NX) ++
    (identityCalls l.mbiStart l.mbiEnd
        (EntryFlags.PRESENT ||| EntryFlags.WRITABLE ||| EntryFlags.NX) ++
    (rangeCalls l.textStart l.textEnd (EntryFlags.PRESENT ||| EntryFlags.GLOBAL) ++
    (rangeCalls l.rodataStart l.rodataEnd
        (EntryFlags.PRESENT ||| EntryFlags.NX ||| EntryFlags.GLOBAL) ++
    (rangeCalls l.dataStart l.dataEnd
        (EntryFlags.PRESENT ||| EntryFlags.WRITABLE ||| EntryFlags.NX ||| EntryFlags.GLOBAL) ++
      rangeCalls l.bssStart l.bssEnd
        (EntryFlags.PRESENT ||| EntryFlags.WRITABLE ||| EntryFlags.NX ||| EntryFlags.GLOBAL))))))

def kernelCalls (memMap : List MemoryArea) (l : BootLayout) : List Call :=
  windowCalls memMap ++ rangesCalls l

/-- **The mappings of the kernel** are the run of its calls. -/
theorem mapKernel_eq {memMap : List MemoryArea} {l : BootLayout}
    (h : mapKernel pm pml4 memMap l = some pm') :
    mapAll pm pml4 (kernelCalls memMap l) = some pm' := by
  simp only [mapKernel, Option.bind_eq_bind, Option.bind_eq_some_iff] at h
  obtain ⟨pm₁, h₁, _, hstart, _, hstop, pm₂, h₂, pm₃, h₃, pm₄, h₄, pm₅, h₅, pm₆, h₆, pm₇, h₇, h₈⟩ := h
  rw [physToVirt_eq_some hstart, physToVirt_eq_some hstop] at h₂
  rw [kernelCalls, rangesCalls, windowCalls, mapAll_append, mapAreas_eq _ h₁, Option.bind_some,
    mapAll_append, setRange_eq h₂, Option.bind_some,
    mapAll_append, setIdentityRange_eq h₃, Option.bind_some,
    mapAll_append, setIdentityRange_eq h₄, Option.bind_some,
    mapAll_append, setRange_eq h₅, Option.bind_some,
    mapAll_append, setRange_eq h₆, Option.bind_some,
    mapAll_append, setRange_eq h₇, Option.bind_some]
  exact setRange_eq h₈

/-- No call is for user code, and none lets code write where it may execute. -/
theorem kernelCalls_flags {memMap : List MemoryArea} {l : BootLayout} {c : Call}
    (hc : c ∈ kernelCalls memMap l) :
    c.flags.user = false ∧ (c.flags.writable = true → c.flags.nx = true) := by
  have hrange : ∀ {start stop flags}, c ∈ rangeCalls start stop flags → c.flags = flags := by
    intro start stop flags h
    obtain ⟨_, _, rfl⟩ := List.mem_map.mp h
    rfl
  have hidentity : ∀ {start stop flags}, c ∈ identityCalls start stop flags → c.flags = flags := by
    intro start stop flags h
    obtain ⟨_, _, rfl⟩ := List.mem_map.mp h
    rfl
  rcases List.mem_append.mp hc with h | h
  · obtain ⟨a, _, h⟩ := List.mem_flatMap.mp h
    obtain ⟨_, _, rfl⟩ := List.mem_map.mp h
    exact ⟨rfl, fun _ => rfl⟩
  · simp only [rangesCalls, List.mem_append] at h
    rcases h with h | h | h | h | h | h | h
    · rw [hrange h]; decide
    · rw [hidentity h]; decide
    · rw [hidentity h]; decide
    · rw [hrange h]; decide
    · rw [hrange h]; decide
    · rw [hrange h]; decide
    · rw [hrange h]; decide

end Page

end Zeronix
