import Zeronix.Mem.BuddyRuns
import Zeronix.Mem.HeapRuns

/-!
# Growing the heap

When `alloc` finds no block, it asks the buddy allocator for a chunk and tries again.  The size it
compares with a chunk is computed for a block at address zero; a chunk is a multiple of every
alignment it can serve, so the size is right for the chunk as well, and a block that the chunk was
merged into has the chunk inside.  One chunk is therefore enough (`alloc_grows_once`).
-/

namespace Zeronix

open Extents

/-- The chunk lies in the memory that the buddy allocator manages. -/
def Backed (phys : Nat) : Prop := phys + CHUNK_SIZE ≤ MAX_SUPPORTED_PAGES * PAGE_SIZE

/-- The buddy allocator answers with chunks that are aligned and backed.  The runs of the heap take
their chunks from any source, so this is what the kernel has for the hypothesis of
`alloc_grows_once`. -/
theorem backed_of_allocate {b a b' : BuddyAllocator} {live : List (Nat × Nat)}
    (h : Session.Ledger b { allocator := a, live := live })
    (hlen : b.metadata.length ≤ MAX_SUPPORTED_PAGES) {phys : Nat}
    (he : a.allocate CHUNK_ORDER = some (some phys, b')) : CHUNK_SIZE ∣ phys ∧ Backed phys := by
  rcases h.allocateWhere CHUNK_ORDER (fun _ => true) with hnone | ⟨p, a', hsome, -, hled⟩
  · rw [BuddyAllocator.allocate, hnone] at he
    cases he
  · rw [BuddyAllocator.allocate, hsome] at he
    cases he
    obtain ⟨q, hq, hdvd, hle⟩ := hled.live_spec List.mem_cons_self
    obtain rfl : p = q := Nat.eq_of_mul_eq_mul_right (by decide) hq
    have hsize : CHUNK_SIZE = 2 ^ CHUNK_ORDER * PAGE_SIZE := by decide
    rw [Backed, hsize, ← Nat.add_mul]
    exact ⟨Nat.mul_dvd_mul_right hdvd _, Nat.mul_le_mul_right _ (hle.trans hlen)⟩

theorem required_eq {layout : Layout} (hreq : Heap.required layout ≤ CHUNK_SIZE) :
    AllocLayout.requiredBlockSize 0 layout allocationGeometry = some (Heap.required layout) := by
  unfold Heap.required at hreq ⊢
  cases hn : AllocLayout.requiredBlockSize 0 layout allocationGeometry with
  | none =>
    rw [hn] at hreq
    exact absurd hreq (by decide)
  | some n => rfl

theorem align_dvd_chunk {layout : Layout} (hreq : Heap.required layout ≤ CHUNK_SIZE) :
    layout.align ∣ CHUNK_SIZE := by
  have hsize : CHUNK_SIZE = 2 ^ 22 := by decide
  have hle := AllocLayout.align_le_of_required (k := 3) (by decide) rfl (required_eq hreq)
    (by decide)
  have hpow : 2 ^ Nat.log2 layout.align ≤ 2 ^ 22 := by
    rw [← layout.align_pow, ← hsize]
    exact hle.trans hreq
  rw [layout.align_pow, hsize]
  exact pow_dvd_pow 2 ((Nat.pow_le_pow_iff_right (by decide)).mp hpow)

theorem fits_chunk {layout : Layout} (hreq : Heap.required layout ≤ CHUNK_SIZE) {phys : Nat}
    (hdvd : CHUNK_SIZE ∣ phys) (hbacked : Backed phys) :
    ∃ p, fits layout (phys + KERNEL_VMA, CHUNK_SIZE) = some p := by
  have hchunk : CHUNK_SIZE ∣ phys + KERNEL_VMA := (Nat.dvd_add_right hdvd).mpr (by decide)
  have hend : phys + KERNEL_VMA + CHUNK_SIZE + CHUNK_SIZE ≤ Word.modulus := by
    have hbound : MAX_SUPPORTED_PAGES * PAGE_SIZE + KERNEL_VMA + CHUNK_SIZE ≤ Word.modulus := by
      decide
    unfold Backed at hbacked
    omega
  exact AllocLayout.allocationForBlock_of_required (k := 3) (by decide) rfl (required_eq hreq) hreq
    ((align_dvd_chunk hreq).trans hchunk) (Nat.dvd_trans (by decide) hchunk) (by decide)
    (show 8 ≤ CHUNK_SIZE by decide) hend

theorem fits_grow {layout : Layout} (hreq : Heap.required layout ≤ CHUNK_SIZE) {phys : Nat}
    (hdvd : CHUNK_SIZE ∣ phys) (hbacked : Backed phys) (s : HeapShape) :
    ∃ d ∈ (s.grow (phys + KERNEL_VMA)).free, ∃ p, fits layout d = some p := by
  obtain ⟨p, hp⟩ := fits_chunk hreq hdvd hbacked
  obtain ⟨d, hd, hstart, hend⟩ := exists_insertMerge (phys + KERNEL_VMA, CHUNK_SIZE) s.free
  obtain ⟨p', hp', -⟩ :=
    AllocLayout.allocationForBlock_mono (k := 3) (by decide) rfl hstart hend hp
  exact ⟨d, hd, p', hp'⟩

section Growth

variable {head : Nat} {m : Memory} {s : HeapShape} {asked layout : Layout}

/-- **One chunk is enough**: once the heap has grown, the search succeeds. -/
theorem allocate_after_grow (hr : Represents m head s) (h : s.WF head) (hhead : 0 < head)
    (hn : AllocLayout.normalizeLayout asked 8 = some layout)
    (hreq : Heap.required layout ≤ CHUNK_SIZE) {phys : Nat} {supply : List Nat}
    (hsup : Supply head s.chunks (phys :: supply)) (hbacked : Backed phys) :
    ∃ m₁ ptr m₂, Heap.growHeap m head phys = some m₁ ∧
      Heap.allocateFromFreeList m₁ head layout = some (some ptr, m₂) := by
  have hc : Word.add phys KERNEL_VMA = some (phys + KERNEL_VMA) :=
    if_pos (hsup.direct phys List.mem_cons_self)
  obtain ⟨hfresh, -⟩ := hsup.uncons hc
  obtain ⟨m₁, hgrow, hr₁, -⟩ := growHeap_spec hr h hc hfresh
  obtain ⟨d, hd, p, hp⟩ := fits_grow hreq (hsup.aligned phys List.mem_cons_self) hbacked s
  rcases allocateFromFreeList_spec hr₁ (h.grow hfresh) hhead hn with ⟨hno, -⟩ |
    ⟨_, _, _, p', m₂, -, -, -, he, -⟩
  · rw [hno d hd] at hp
    cases hp
  · exact ⟨m₁, p'.userPtr, m₂, hgrow, he⟩

theorem allocLoop_once (hr : Represents m head s) (h : s.WF head) (hhead : 0 < head)
    (hn : AllocLayout.normalizeLayout asked 8 = some layout) {supply : List Nat}
    (hsup : Supply head s.chunks supply) (hbacked : ∀ phys ∈ supply, Backed phys) :
    ∃ r m' rest, Heap.allocLoop head layout supply m = some (r, m', rest) ∧
      (rest = supply ∨ ∃ phys, supply = phys :: rest) ∧
      (r = none → CHUNK_SIZE < Heap.required layout ∨ supply = []) := by
  rw [Heap.allocLoop]
  rcases allocateFromFreeList_spec hr h hhead hn with ⟨-, he⟩ | ⟨_, _, _, p, m', -, -, -, he, -⟩
  · simp only [he, Option.bind_eq_bind, Option.bind_some]
    by_cases hreq : Heap.required layout > CHUNK_SIZE
    · exact ⟨none, m, supply, if_pos hreq, .inl rfl, fun _ => .inl hreq⟩
    · simp only [if_neg hreq]
      cases supply with
      | nil => exact ⟨none, m, [], rfl, .inl rfl, fun _ => .inr rfl⟩
      | cons phys supply =>
        obtain ⟨m₁, ptr, m₂, hgrow, hagain⟩ := allocate_after_grow hr h hhead hn
          (Nat.le_of_not_lt hreq) hsup (hbacked phys List.mem_cons_self)
        refine ⟨some ptr, m₂, supply, ?_, .inr ⟨phys, rfl⟩, fun hnone => by cases hnone⟩
        simp only [hgrow, Option.bind_some]
        rw [Heap.allocLoop, hagain]
        rfl
  · refine ⟨some p.userPtr, m', supply, ?_, .inl rfl, fun hnone => by cases hnone⟩
    simp only [he, Option.bind_eq_bind, Option.bind_some]

end Growth

namespace HeapState

/-- **`alloc` grows the heap at most once.**  On every run, for every layout that is accepted: when
a chunk is large enough for it, the search after `grow_heap` succeeds, whether the chunk was merged
or not; `alloc` returns after at most one chunk; and it answers null only when a chunk is too small
or the buddy allocator has none. -/
theorem alloc_grows_once {head : Nat} {st : HeapState} (hhead : 0 < head) (hlt : head < 2 ^ 64)
    (hr : Reach head (fun _ _ _ => True) st) {asked layout : Layout}
    (hn : AllocLayout.normalizeLayout asked 8 = some layout) {supply : List Nat}
    (hsup : Supply head st.chunks supply) (hbacked : ∀ phys ∈ supply, Backed phys) :
    (∀ phys rest, supply = phys :: rest → Heap.required layout ≤ CHUNK_SIZE →
      ∃ m₁ ptr m₂, Heap.growHeap (Heap.ensureHeadInitialized st.fresh head) head phys = some m₁ ∧
        Heap.allocateFromFreeList m₁ head layout = some (some ptr, m₂)) ∧
    ∃ r m rest, Heap.alloc st.fresh head asked supply = some (r, m, rest) ∧
      (rest = supply ∨ ∃ phys, supply = phys :: rest) ∧
      (r = none → CHUNK_SIZE < Heap.required layout ∨ supply = []) := by
  obtain ⟨s, hs⟩ := hr.inv hhead hlt
  obtain ⟨hrep, -⟩ := hs.ensure hhead hlt
  rw [← hs.chunks] at hsup
  constructor
  · rintro phys rest rfl hreq
    exact allocate_after_grow hrep hs.wf hhead hn hreq hsup (hbacked phys List.mem_cons_self)
  · obtain ⟨r, m, rest, he, hrest, hnull⟩ := allocLoop_once hrep hs.wf hhead hn hsup hbacked
    refine ⟨r, m, rest, ?_, hrest, hnull⟩
    rw [Heap.alloc, hn]
    exact he

/-- The first request of a run asks for one of two chunks. -/
theorem alloc_grows_once_first : ∃ r m rest,
    Heap.alloc blank.fresh 0x1000 smallLayout [0x400000, 0x800000] = some (r, m, rest) ∧
      r.isSome = true ∧ 1 ≤ rest.length := by
  obtain ⟨layout, hn⟩ : ∃ layout, AllocLayout.normalizeLayout smallLayout 8 = some layout :=
    Option.isSome_iff_exists.mp (by decide)
  have hreq : (AllocLayout.normalizeLayout smallLayout 8).map (fun layout =>
    decide (Heap.required layout ≤ CHUNK_SIZE)) = some true := by decide +kernel
  have hsup : Supply 0x1000 blank.chunks [0x400000, 0x800000] := by
    constructor <;> decide +kernel
  have hstart : Reach 0x1000 (fun _ _ _ => True) blank := .start (by decide +kernel)
  have hbacked : ∀ phys ∈ [0x400000, 0x800000], Backed phys := by
    unfold Backed
    decide
  obtain ⟨-, r, m, rest, he, hrest, hnull⟩ :=
    alloc_grows_once (by decide) (by decide) hstart hn hsup hbacked
  refine ⟨r, m, rest, he, ?_, ?_⟩
  · rw [hn, Option.map_some, Option.some.injEq, decide_eq_true_eq] at hreq
    cases r with
    | some ptr => rfl
    | none =>
      rcases hnull rfl with hlarge | hnil
      · omega
      · cases hnil
  · rcases hrest with rfl | ⟨phys, hphys⟩
    · decide
    · cases hphys
      decide

end HeapState

end Zeronix
