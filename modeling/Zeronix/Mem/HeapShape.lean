import Zeronix.Mem.HeapLists

/-!
# The shape of the heap

What the heap is about, without the memory it is written in: the free blocks in address
order, the allocations in use and the chunks the heap is made of.  `HeapShape.WF` says
that they are laid out as they should be, every block in a chunk and no two overlapping,
and the three lemmas `WF.take`, `WF.give` and `WF.grow` say that the three things that
happen to a heap keep it so.

`HeapShape.Conserved` says that no byte of the chunks is lost.  Giving back and growing
keep that; taking does when what is left of the block is nothing or large enough to be a
block of its own.
-/

namespace Zeronix

open Extents

/-- A block in use: where its header is, how much of it is used, and the pointer its owner
has for the layout that was asked for. -/
structure Allocation where
  header : Nat
  used : Nat
  ptr : Nat
  layout : Layout
  deriving DecidableEq

namespace Allocation

def extent (a : Allocation) : Nat × Nat := (a.header, a.used)

/-- The pointer lies behind header and back pointer, with room for the user's bytes. -/
structure WF (head : Nat) (a : Allocation) : Prop where
  block : IsBlock head a.extent
  header : a.header + HEAP_NODE_SIZE + BACK_PTR_SIZE ≤ a.ptr
  room : a.ptr + max a.layout.size 1 ≤ a.header + a.used
  align : a.layout.align ∣ a.ptr

end Allocation

structure HeapShape where
  free : List (Nat × Nat)
  live : List Allocation
  chunks : List Nat

namespace HeapShape

def chunkExtents (s : HeapShape) : List (Nat × Nat) := s.chunks.map fun c => (c, CHUNK_SIZE)

def liveExtents (s : HeapShape) : List (Nat × Nat) := s.live.map Allocation.extent

structure WF (head : Nat) (s : HeapShape) : Prop where
  separated : Separated s.free
  free : ∀ b ∈ s.free, IsBlock head b
  live : ∀ a ∈ s.live, a.WF head
  apart : s.live.Pairwise fun a a' => Apart a.extent a'.extent
  liveFree : ∀ a ∈ s.live, ∀ b ∈ s.free, Apart a.extent b
  inside : ∀ x, Covered s.free x ∨ Covered s.liveExtents x → Covered s.chunkExtents x

/-- No byte of the chunks is lost. -/
structure Conserved (s : HeapShape) : Prop where
  covered : ∀ x, Covered s.chunkExtents x → Covered s.free x ∨ Covered s.liveExtents x
  total : total s.free + total s.liveExtents = CHUNK_SIZE * s.chunks.length

/-- What is left of a block after a part of it was taken goes back among the others, if it
is large enough. -/
def remainder (b : Nat × Nat) (used : Nat) (l : List (Nat × Nat)) : List (Nat × Nat) :=
  if MIN_FREE_BLOCK_SIZE ≤ b.2 - used then insertMerge (b.1 + used, b.2 - used) l else l

/-! ### Extents of blocks -/

theorem pos_of_isBlock {head : Nat} {b : Nat × Nat} (h : IsBlock head b) : 0 < b.2 :=
  lt_of_lt_of_le (by decide) h.header

theorem apart_of_not_has {a b : Nat × Nat} (ha : 0 < a.2) (hb : 0 < b.2)
    (h : ∀ x, Has a x → ¬ Has b x) : Apart a b := by
  by_contra hn
  have h1 := h (max a.1 b.1)
  unfold Has at h1
  unfold Apart at hn
  omega

theorem apart_insertMerge {e b : Nat × Nat} {l : List (Nat × Nat)} (he : 0 < e.2)
    (hpos : ∀ c ∈ insertMerge b l, 0 < c.2) (hb : Apart e b) (hl : ∀ c ∈ l, Apart e c) :
    ∀ c ∈ insertMerge b l, Apart e c := by
  intro c hc
  refine apart_of_not_has he (hpos c hc) fun x hx hcx => ?_
  rcases (covered_insertMerge b l x).mp ⟨c, hc, hcx⟩ with h | ⟨d, hd, h⟩
  · unfold Has at hx h
    unfold Apart at hb
    omega
  · have := hl d hd
    unfold Has at hx h
    unfold Apart at this
    omega

theorem isBlock_insertMerge {head : Nat} {b : Nat × Nat} {l : List (Nat × Nat)}
    (hb : IsBlock head b) (hl : ∀ c ∈ l, IsBlock head c) :
    ∀ c ∈ insertMerge b l, IsBlock head c :=
  forall_insertMerge (fun _ _ h ha hc => ha.join h hc) hb hl

/-- Two allocations in use are the same or apart. -/
theorem WF.eq_or_apart {head : Nat} {s : HeapShape} (h : WF head s) {a c : Allocation}
    (ha : a ∈ s.live) (hc : c ∈ s.live) : a = c ∨ Apart a.extent c.extent := by
  refine List.Pairwise.forall_of_forall_of_flip
    (R := fun a c : Allocation => a = c ∨ Apart a.extent c.extent) (fun _ _ => .inl rfl)
    (h.apart.imp fun hac => .inr hac) (h.apart.imp fun hac => .inr (Or.symm hac)) ha hc

/-! ### Growing -/

/-- A chunk that shares no address with the chunks so far. -/
structure Fresh (head : Nat) (s : HeapShape) (c : Nat) : Prop where
  block : IsBlock head (c, CHUNK_SIZE)
  new : ∀ x, Has (c, CHUNK_SIZE) x → ¬ Covered s.chunkExtents x

def grow (s : HeapShape) (c : Nat) : HeapShape :=
  { s with free := insertMerge (c, CHUNK_SIZE) s.free, chunks := c :: s.chunks }

theorem Fresh.apart_free {head c : Nat} {s : HeapShape} (hf : Fresh head s c) (h : WF head s) :
    ∀ b ∈ s.free, Apart (c, CHUNK_SIZE) b := by
  intro b hb
  refine apart_of_not_has (pos_of_isBlock hf.block) (pos_of_isBlock (h.free b hb)) fun x hx hbx => ?_
  exact hf.new x hx (h.inside x (.inl ⟨b, hb, hbx⟩))

theorem Fresh.apart_live {head c : Nat} {s : HeapShape} (hf : Fresh head s c) (h : WF head s) :
    ∀ a ∈ s.live, Apart a.extent (c, CHUNK_SIZE) := by
  intro a ha
  refine apart_of_not_has (pos_of_isBlock (h.live a ha).block) (pos_of_isBlock hf.block)
    fun x hx hc => ?_
  exact hf.new x hc (h.inside x (.inr ⟨a.extent, List.mem_map_of_mem ha, hx⟩))

theorem WF.grow {head c : Nat} {s : HeapShape} (h : WF head s) (hf : Fresh head s c) :
    WF head (s.grow c) := by
  have hfree := isBlock_insertMerge hf.block h.free
  refine ⟨?_, hfree, h.live, h.apart, fun a ha => ?_, fun x hx => ?_⟩
  · exact h.separated.insertMerge (fun b hb => pos_of_isBlock (h.free b hb))
      (pos_of_isBlock hf.block) (hf.apart_free h)
  · exact apart_insertMerge (pos_of_isBlock (h.live a ha).block)
      (fun b hb => pos_of_isBlock (hfree b hb)) (hf.apart_live h a ha) (h.liveFree a ha)
  · simp only [HeapShape.grow, chunkExtents, List.map_cons, covered_cons] at hx ⊢
    rw [covered_insertMerge] at hx
    rcases hx with (hx | hx) | hx
    · exact .inl hx
    · exact .inr (h.inside x (.inl hx))
    · exact .inr (h.inside x (.inr hx))

theorem Conserved.grow {s : HeapShape} (h : Conserved s) (c : Nat) : Conserved (s.grow c) := by
  refine ⟨fun x hx => ?_, ?_⟩
  · simp only [HeapShape.grow, chunkExtents, List.map_cons, covered_cons] at hx
    simp only [HeapShape.grow, covered_insertMerge]
    rcases hx with hx | hx
    · exact .inl (.inl hx)
    · rcases h.covered x hx with hx | hx
      · exact .inl (.inr hx)
      · exact .inr hx
  · have ht := h.total
    simp only [HeapShape.grow, total_insertMerge, liveExtents, List.length_cons] at ht ⊢
    rw [Nat.mul_add]
    omega

/-! ### Taking -/

/-- `a` is cut from the front of the block `b`. -/
structure CutFrom (b : Nat × Nat) (a : Allocation) : Prop where
  start : a.header = b.1
  used : a.used ≤ b.2
  header : a.header + HEAP_NODE_SIZE + BACK_PTR_SIZE ≤ a.ptr
  room : a.ptr + max a.layout.size 1 ≤ a.header + a.used
  align : a.layout.align ∣ a.ptr

section Take

variable {head : Nat} {s : HeapShape} {l₁ l₂ : List (Nat × Nat)} {b : Nat × Nat} {a : Allocation}

/-- The shape after `a` was cut from `b`, the other free blocks being `l`. -/
def take (s : HeapShape) (b : Nat × Nat) (l : List (Nat × Nat)) (a : Allocation) : HeapShape :=
  { s with free := remainder b a.used l, live := a :: s.live }

theorem CutFrom.isBlock (ha : CutFrom b a) (hb : IsBlock head b) : IsBlock head a.extent := by
  obtain ⟨h1, h2, h3, h4⟩ := hb
  have h5 := ha.start
  have h6 := ha.used
  have h7 := ha.header
  have h8 := ha.room
  unfold HEAP_NODE_SIZE BACK_PTR_SIZE at *
  refine ⟨?_, ?_, ?_, ?_⟩ <;> simp only [Allocation.extent, HEAP_NODE_SIZE] <;> omega

/-- What is left of the block is a block. -/
theorem CutFrom.rest (ha : CutFrom b a) (hb : IsBlock head b)
    (hrem : MIN_FREE_BLOCK_SIZE ≤ b.2 - a.used) : IsBlock head (b.1 + a.used, b.2 - a.used) := by
  obtain ⟨h1, h2, h3, h4⟩ := hb
  have h6 := ha.used
  unfold MIN_FREE_BLOCK_SIZE HEAP_NODE_SIZE BACK_PTR_SIZE at *
  refine ⟨?_, ?_, ?_, ?_⟩ <;> simp only [HEAP_NODE_SIZE] <;> omega

theorem WF.others (h : WF head s) (hs : s.free = l₁ ++ b :: l₂) :
    IsBlock head b ∧ Separated (l₁ ++ l₂) ∧ (∀ c ∈ l₁ ++ l₂, IsBlock head c) ∧
      ∀ c ∈ l₁ ++ l₂, Apart b c := by
  have hsep := h.separated
  have hfree := h.free
  rw [hs] at hsep hfree
  obtain ⟨hs₁, hs₂, hs₃⟩ := List.pairwise_append.mp hsep
  obtain ⟨hs₄, hs₅⟩ := List.pairwise_cons.mp hs₂
  refine ⟨hfree b (by simp), List.pairwise_append.mpr ⟨hs₁, hs₅, fun c hc d hd =>
    hs₃ c hc d (by simp [hd])⟩, fun c hc => hfree c (List.perm_middle.mem_iff.mpr (by simp_all)),
    fun c hc => ?_⟩
  rcases List.mem_append.mp hc with hc | hc
  · exact .inr (le_of_lt (hs₃ c hc b (by simp)))
  · exact .inl (le_of_lt (hs₄ c hc))

theorem CutFrom.apart (ha : CutFrom b a) {c : Nat × Nat} (h : Apart b c) : Apart a.extent c := by
  have h1 := ha.start
  have h2 := ha.used
  unfold Apart Allocation.extent at *
  simp only
  omega

/-- The remainder is apart from whatever the whole block is apart from, and from the part
that was taken. -/
theorem forall_remainder {P : Nat × Nat → Prop} {l : List (Nat × Nat)} {used : Nat}
    (hl : ∀ c ∈ l, P c)
    (hr : MIN_FREE_BLOCK_SIZE ≤ b.2 - used → ∀ c ∈ insertMerge (b.1 + used, b.2 - used) l, P c) :
    ∀ c ∈ remainder b used l, P c := by
  intro c hc
  rw [remainder] at hc
  split at hc
  · rename_i hrem
    exact hr hrem c hc
  · exact hl c hc

theorem covered_remainder {l : List (Nat × Nat)} {used x : Nat} (hused : used ≤ b.2)
    (h : Covered (remainder b used l) x) : Has b x ∧ b.1 + used ≤ x ∨ Covered l x := by
  rw [remainder] at h
  split at h
  · rcases (covered_insertMerge _ _ _).mp h with h | h
    · unfold Has at *
      simp only at h
      exact .inl (by omega)
    · exact .inr h
  · exact .inr h

theorem WF.take (h : WF head s) (hs : s.free = l₁ ++ b :: l₂) (ha : CutFrom b a) :
    WF head (s.take b (l₁ ++ l₂) a) := by
  obtain ⟨hb, hsep, hfree, hapart⟩ := h.others hs
  have hbm : b ∈ s.free := by
    rw [hs]
    simp
  have hrest : ∀ c ∈ l₁ ++ l₂, MIN_FREE_BLOCK_SIZE ≤ b.2 - a.used →
      Apart (b.1 + a.used, b.2 - a.used) c := by
    intro c hc _
    have h1 := hapart c hc
    have h2 := ha.used
    unfold Apart at *
    simp only
    omega
  have hblocks : ∀ c ∈ remainder b a.used (l₁ ++ l₂), IsBlock head c :=
    forall_remainder hfree fun hrem => isBlock_insertMerge (ha.rest hb hrem) hfree
  have hmem : ∀ c ∈ l₁ ++ l₂, c ∈ s.free := by
    intro c hc
    rw [hs]
    exact List.perm_middle.mem_iff.mpr (List.mem_cons_of_mem b hc)
  refine ⟨?_, hblocks, ?_, ?_, ?_, fun x hx => ?_⟩
  · simp only [HeapShape.take, remainder]
    split
    · rename_i hrem
      exact hsep.insertMerge (fun c hc => pos_of_isBlock (hfree c hc))
        (pos_of_isBlock (ha.rest hb hrem)) fun c hc => hrest c hc hrem
    · exact hsep
  · intro c hc
    rcases List.mem_cons.mp hc with rfl | hc
    · exact ⟨ha.isBlock hb, ha.header, ha.room, ha.align⟩
    · exact h.live c hc
  · exact List.pairwise_cons.mpr ⟨fun c hc => ha.apart (Or.symm (h.liveFree c hc b hbm)), h.apart⟩
  · intro c hc
    rcases List.mem_cons.mp hc with rfl | hc
    · refine forall_remainder (fun d hd => ha.apart (hapart d hd)) fun hrem => ?_
      refine apart_insertMerge (pos_of_isBlock (ha.isBlock hb)) (fun d hd => pos_of_isBlock
        (isBlock_insertMerge (ha.rest hb hrem) hfree d hd)) ?_ fun d hd => ha.apart (hapart d hd)
      exact .inl (by simp only [Allocation.extent, ha.start]; omega)
    · refine forall_remainder (fun d hd => h.liveFree c hc d (hmem d hd)) fun hrem => ?_
      refine apart_insertMerge (pos_of_isBlock (h.live c hc).block) (fun d hd => pos_of_isBlock
        (isBlock_insertMerge (ha.rest hb hrem) hfree d hd)) ?_
        fun d hd => h.liveFree c hc d (hmem d hd)
      have h1 := h.liveFree c hc b hbm
      have h2 := ha.used
      unfold Apart at *
      simp only
      omega
  · refine h.inside x ?_
    simp only [HeapShape.take, liveExtents, List.map_cons, covered_cons] at hx ⊢
    rw [hs, covered_append, covered_cons]
    rcases hx with hx | hx | hx
    · rcases covered_remainder ha.used hx with hx | hx
      · exact .inl (.inr (.inl hx.1))
      · rcases (covered_append _ _ _).mp hx with hx | hx
        · exact .inl (.inl hx)
        · exact .inl (.inr (.inr hx))
    · refine .inl (.inr (.inl ?_))
      have h1 := ha.start
      have h2 := ha.used
      unfold Has Allocation.extent at *
      simp only at hx
      omega
    · exact .inr hx

/-- **Taking loses no byte** when the remainder is empty or large enough to be kept. -/
theorem Conserved.take (h : Conserved s) (hs : s.free = l₁ ++ b :: l₂) (ha : CutFrom b a)
    (hrem : b.2 = a.used ∨ MIN_FREE_BLOCK_SIZE ≤ b.2 - a.used) :
    Conserved (s.take b (l₁ ++ l₂) a) := by
  have hstart := ha.start
  have hused := ha.used
  refine ⟨fun x hx => ?_, ?_⟩
  · have hcov := h.covered x hx
    rw [hs, covered_append, covered_cons] at hcov
    simp only [HeapShape.take, liveExtents, List.map_cons, covered_cons, remainder]
    -- an address of the block is in the part taken or in the remainder
    have hb : Has b x → Has a.extent x ∨ Has (b.1 + a.used, b.2 - a.used) x := by
      unfold Has Allocation.extent
      simp only
      omega
    split
    · rw [covered_insertMerge, covered_append]
      rcases hcov with (hc | hc | hc) | hc
      · exact .inl (.inr (.inl hc))
      · rcases hb hc with hc | hc
        · exact .inr (.inl hc)
        · exact .inl (.inl hc)
      · exact .inl (.inr (.inr hc))
      · exact .inr (.inr hc)
    · rename_i hno
      have hall : b.2 = a.used := hrem.resolve_right hno
      rw [covered_append]
      rcases hcov with (hc | hc | hc) | hc
      · exact .inl (.inl hc)
      · rcases hb hc with hc | hc
        · exact .inr (.inl hc)
        · unfold Has at hc
          simp only at hc
          omega
      · exact .inl (.inr hc)
      · exact .inr (.inr hc)
  · have ht := h.total
    simp only [hs, total_append, total_cons, liveExtents, HeapShape.take, List.map_cons,
      remainder] at ht ⊢
    split
    · rw [total_insertMerge, total_append]
      simp only [Allocation.extent]
      omega
    · rename_i hno
      have hall : b.2 = a.used := hrem.resolve_right hno
      simp only [Allocation.extent, total_append]
      omega

end Take

/-! ### Giving back -/

/-- The shape after `a` was given back. -/
def give (s : HeapShape) (a : Allocation) : HeapShape :=
  { s with free := insertMerge a.extent s.free, live := s.live.erase a }

section Give

variable {head : Nat} {s : HeapShape} {a : Allocation}

theorem WF.apart_erase (h : WF head s) (ha : a ∈ s.live) :
    ∀ c ∈ s.live.erase a, Apart a.extent c.extent := by
  have hperm := List.perm_cons_erase ha
  have hpw := (hperm.pairwise_iff fun {c d : Allocation} (hcd : Apart c.extent d.extent) =>
    Or.symm hcd).mp h.apart
  exact (List.pairwise_cons.mp hpw).1

theorem covered_live_erase (ha : a ∈ s.live) (x : Nat) :
    Covered s.liveExtents x ↔ Has a.extent x ∨ Covered ((s.live.erase a).map Allocation.extent) x := by
  have hperm := (List.perm_cons_erase ha).map Allocation.extent
  rw [← covered_cons, ← List.map_cons]
  unfold Covered liveExtents
  simp only [hperm.mem_iff]

theorem total_live_erase (ha : a ∈ s.live) : Extents.total s.liveExtents =
    a.extent.2 + Extents.total ((s.live.erase a).map Allocation.extent) := by
  have hperm := ((List.perm_cons_erase ha).map Allocation.extent).map Prod.snd
  simpa [Extents.total, liveExtents] using hperm.sum_eq

theorem WF.give (h : WF head s) (ha : a ∈ s.live) : WF head (s.give a) := by
  have hblock := (h.live a ha).block
  have hblocks := isBlock_insertMerge hblock h.free
  refine ⟨?_, hblocks, fun c hc => h.live c (List.mem_of_mem_erase hc), ?_, fun c hc => ?_,
    fun x hx => ?_⟩
  · exact h.separated.insertMerge (fun b hb => pos_of_isBlock (h.free b hb))
      (pos_of_isBlock hblock) (h.liveFree a ha)
  · exact h.apart.sublist List.erase_sublist
  · have hc' := List.mem_of_mem_erase hc
    exact apart_insertMerge (pos_of_isBlock (h.live c hc').block)
      (fun b hb => pos_of_isBlock (hblocks b hb)) (Or.symm (h.apart_erase ha c hc))
      (h.liveFree c hc')
  · refine h.inside x ?_
    simp only [HeapShape.give, covered_insertMerge] at hx
    rw [covered_live_erase ha]
    rcases hx with (hx | hx) | hx
    · exact .inr (.inl hx)
    · exact .inl hx
    · exact .inr (.inr hx)

theorem Conserved.give (h : Conserved s) (ha : a ∈ s.live) : Conserved (s.give a) := by
  refine ⟨fun x hx => ?_, ?_⟩
  · have hcov := h.covered x hx
    rw [covered_live_erase ha] at hcov
    simp only [HeapShape.give, covered_insertMerge, liveExtents]
    rcases hcov with hc | hc | hc
    · exact .inl (.inr hc)
    · exact .inl (.inl hc)
    · exact .inr hc
  · have ht := h.total
    rw [total_live_erase ha] at ht
    simp only [HeapShape.give, total_insertMerge, liveExtents]
    omega

end Give

end HeapShape

end Zeronix
