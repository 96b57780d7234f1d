import Zeronix.Mem.HeapShape

/-!
# The heap functions refine the shape

`Represents m head s` ties the memory to a shape: the free list is in the links, every
block in use has its size in its header and its address in its back pointer.  Each
function of `src/mem/alloc.rs` is then one of the steps of the shape, and writes to no
word of a block in use other than the one it is about (`Spares`).
-/

namespace Zeronix

open Extents

structure Represents (m : Memory) (head : Nat) (s : HeapShape) : Prop where
  list : FreeList m head s.free
  header : ∀ a ∈ s.live, HeapNode.size m a.header = a.used
  back : ∀ a ∈ s.live, m.load (a.ptr - BACK_PTR_SIZE) = a.header

/-- The word at `x` is outside every one of the blocks in use. -/
def Spares (live : List Allocation) (x : Nat) : Prop :=
  ∀ a ∈ live, x + 8 ≤ a.header ∨ a.header + a.used ≤ x

theorem HeaderWord.spares {head x : Nat} {l : List (Nat × Nat)} {live : List Allocation}
    (h : HeaderWord head l x) (hl : ∀ b ∈ l, IsBlock head b) (hlive : ∀ a ∈ live, a.WF head)
    (hap : ∀ a ∈ live, ∀ b ∈ l, Apart a.extent b) : Spares live x := by
  intro a ha
  have h1 := (hlive a ha).block.off
  have h2 := (hlive a ha).block.header
  simp only [Allocation.extent] at h1 h2
  unfold HEAP_NODE_SIZE at h2
  rcases h with h | h | ⟨b, hb, h⟩
  · omega
  · omega
  · have h3 := hap a ha b hb
    have h4 := (hl b hb).header
    unfold HEAP_NODE_SIZE at h4
    unfold Apart Allocation.extent at h3
    simp only at h3
    omega

theorem Represents.of_spares {m m' : Memory} {head : Nat} {s : HeapShape} {live : List Allocation}
    {free : List (Nat × Nat)} {chunks : List Nat} (h : Represents m head s)
    (hsub : ∀ a ∈ live, a ∈ s.live) (hwf : ∀ a ∈ live, a.WF head)
    (hw : Memory.Wrote (Spares live) m m') (hfree : FreeList m' head free) :
    Represents m' head { free := free, live := live, chunks := chunks } := by
  have hkeep : ∀ a ∈ live, ∀ x, a.header ≤ x → x + 8 ≤ a.header + a.used →
      m'.load x = m.load x := by
    intro a ha x h1 h2
    refine hw.load_eq fun y hy => ?_
    unfold Memory.Apart
    have := hy a ha
    omega
  refine ⟨hfree, fun a ha => ?_, fun a ha => ?_⟩
  · have h1 := (hwf a ha).block.header
    unfold HEAP_NODE_SIZE Allocation.extent at h1
    exact (hkeep a ha a.header (le_refl _) (by simp only at h1; omega)).trans
      (h.header a (hsub a ha))
  · have h1 := (hwf a ha).header
    have h2 := (hwf a ha).room
    unfold HEAP_NODE_SIZE BACK_PTR_SIZE at h1
    refine (hkeep a ha (a.ptr - BACK_PTR_SIZE) ?_ ?_).trans (h.back a (hsub a ha))
    · unfold BACK_PTR_SIZE
      omega
    · unfold BACK_PTR_SIZE
      omega

/-! ### Writing a header -/

section Header

variable {m : Memory} {head : Nat} {l : List (Nat × Nat)} {b : Nat × Nat}

theorem wrote_initNode (m : Memory) (head : Nat) (l : List (Nat × Nat)) (hb : b ∈ l) :
    Memory.Wrote (HeaderWord head l) m (ListNode.initAt m (HeapNode.listNode b.1)) := by
  refine ((Memory.Wrote.refl _ m).store _ ?_).store _ ?_
  · exact .inr (.inr ⟨b, hb, .inr (.inl rfl)⟩)
  · exact .inr (.inr ⟨b, hb, .inr (.inr rfl)⟩)

theorem wrote_initAt (m : Memory) (head size : Nat) (l : List (Nat × Nat)) (hb : b ∈ l) :
    Memory.Wrote (HeaderWord head l) m (HeapNode.initAt m b.1 size) := by
  refine Memory.Wrote.trans ?_ (wrote_initNode _ head l hb)
  refine (((Memory.Wrote.refl _ m).store _ ?_).store _ ?_).store _ ?_
  · exact .inr (.inr ⟨b, hb, .inl rfl⟩)
  · exact .inr (.inr ⟨b, hb, .inr (.inl rfl)⟩)
  · exact .inr (.inr ⟨b, hb, .inr (.inr rfl)⟩)

theorem size_initNode (m : Memory) (block : Nat) :
    HeapNode.size (ListNode.initAt m (HeapNode.listNode block)) block = HeapNode.size m block := by
  unfold ListNode.initAt ListNode.setPrev ListNode.setNext HeapNode.listNode HeapNode.size
  rw [Memory.load_store_apart _ _ (by unfold Memory.Apart; omega),
    Memory.load_store_apart _ _ (by unfold Memory.Apart; omega)]

theorem size_initAt (m : Memory) (block : Nat) {size : Nat} (hs : size < 2 ^ 64) :
    HeapNode.size (HeapNode.initAt m block size) block = size := by
  unfold HeapNode.initAt
  rw [size_initNode]
  unfold ListNode.setPrev ListNode.setNext HeapNode.listNode HeapNode.size HeapNode.setSize
  rw [Memory.load_store_apart _ _ (by unfold Memory.Apart; omega),
    Memory.load_store_apart _ _ (by unfold Memory.Apart; omega), Memory.load_store_self _ _ hs]

theorem FreeList.of_inside {m' : Memory} (h : FreeList m head l) (hb : IsBlock head b)
    (hap : ∀ c ∈ l, Apart b c) {W : Nat → Prop} (hw : Memory.Wrote W m m')
    (hin : ∀ x, W x → b.1 ≤ x ∧ x + 8 ≤ b.1 + b.2) : FreeList m' head l := by
  refine h.congr fun x hx => hw.load_eq fun y hy => ?_
  have h1 := hin y hy
  have h2 := hb.off
  unfold Memory.Apart
  rcases hx with hx | hx | ⟨c, hc, hx⟩
  · omega
  · omega
  · have h3 := hap c hc
    have h4 := (h.block c hc).header
    unfold HEAP_NODE_SIZE at h4
    unfold Apart at h3
    omega

theorem FreeList.insert_fresh (h : FreeList m head l) (hsep : Separated l) (hb : IsBlock head b)
    (hap : ∀ c ∈ l, Apart b c) :
    ∃ m', Heap.insertAndCoalesce (HeapNode.initAt m b.1 b.2) head b.1 = some m' ∧
      FreeList m' head (insertMerge b l) ∧ Memory.Wrote (HeaderWord head (b :: l)) m m' := by
  have hb1 := hb.pos
  have hb2 := hb.lt
  have hb3 := hb.header
  unfold HEAP_NODE_SIZE at hb3
  have hfl : FreeList (HeapNode.initAt m b.1 b.2) head l := by
    have hw : Memory.Wrote (fun x => x = b.1 ∨ x = b.1 + 8 ∨ x = b.1 + 16) m
        (HeapNode.initAt m b.1 b.2) :=
      (((((Memory.Wrote.refl _ m).store _ (.inl rfl)).store _ (.inr (.inl rfl))).store _
        (.inr (.inr rfl))).store _ (.inr (.inl rfl))).store _ (.inr (.inr rfl))
    exact h.of_inside hb hap hw fun x hx => by omega
  obtain ⟨m', hins, hfl', hw⟩ := hfl.insertAndCoalesce_spec hsep hb
    (size_initAt m b.1 (by omega)) hap
  refine ⟨m', hins, hfl', (wrote_initAt m head b.2 (b :: l) (by simp)).trans hw⟩

end Header

/-! ### Growing and giving back -/

section Ops

variable {m : Memory} {head : Nat} {s : HeapShape}

theorem growHeap_spec (hr : Represents m head s) (h : s.WF head) {phys c : Nat}
    (hc : Word.add phys KERNEL_VMA = some c) (hf : HeapShape.Fresh head s c) :
    ∃ m', Heap.growHeap m head phys = some m' ∧ Represents m' head (s.grow c) ∧
      Memory.Wrote (Spares s.live) m m' := by
  obtain ⟨m', hins, hfl, hw⟩ := hr.list.insert_fresh h.separated hf.block (hf.apart_free h)
  have hsp : Memory.Wrote (Spares s.live) m m' := hw.mono fun x hx => by
    refine hx.spares ?_ h.live ?_
    · intro b hb
      rcases List.mem_cons.mp hb with rfl | hb
      · exact hf.block
      · exact h.free b hb
    · intro a ha b hb
      rcases List.mem_cons.mp hb with rfl | hb
      · exact hf.apart_live h a ha
      · exact h.liveFree a ha b hb
  refine ⟨m', ?_, hr.of_spares (fun a ha => ha) h.live hsp hfl, hsp⟩
  simp only [Heap.growHeap, hc, Option.bind_eq_bind, Option.bind_some]
  exact hins

theorem FreeList.head_links {l : List (Nat × Nat)} (h : FreeList m head l) (hhead : 0 < head) :
    ListNode.next m head ≠ 0 ∧ ListNode.prev m head ≠ 0 := by
  have hne : ∀ y ∈ head :: nodes l, y ≠ 0 := by
    intro y hy
    rcases List.mem_cons.mp hy with rfl | hy
    · omega
    · obtain ⟨b, _, rfl⟩ := List.mem_map.mp hy
      unfold HeapNode.listNode
      omega
  constructor
  · rw [h.list.ring.next_head]
    exact hne _ (Ring.headD_mem head (nodes l))
  · rw [h.list.ring.prev_head]
    exact hne _ (Ring.getLastD_mem head (nodes l))

theorem ensureHeadInitialized_eq {l : List (Nat × Nat)} (h : FreeList m head l)
    (hhead : 0 < head) : Heap.ensureHeadInitialized m head = m := by
  obtain ⟨hnext, hprev⟩ := h.head_links hhead
  rw [Heap.ensureHeadInitialized, if_neg]
  rintro (h' | h')
  · exact hnext h'
  · exact hprev h'

theorem dealloc_spec (hr : Represents m head s) (h : s.WF head) (hhead : 0 < head)
    {a : Allocation} (ha : a ∈ s.live) :
    ∃ m', Heap.dealloc m head a.ptr = some m' ∧ Represents m' head (s.give a) ∧
      Memory.Wrote (Spares (s.live.erase a)) m m' := by
  have hwf := h.live a ha
  have h1 := hwf.header
  have h2 := hwf.block.header
  unfold HEAP_NODE_SIZE at h1 h2
  have hfl : FreeList (ListNode.initAt m (HeapNode.listNode a.header)) head s.free := by
    have hw : Memory.Wrote (fun x => x = a.header + 8 ∨ x = a.header + 16) m
        (ListNode.initAt m (HeapNode.listNode a.header)) :=
      ((Memory.Wrote.refl _ m).store _ (.inl rfl)).store _ (.inr rfl)
    refine hr.list.of_inside hwf.block (h.liveFree a ha) hw fun x hx => ?_
    simp only [Allocation.extent] at h2 ⊢
    omega
  obtain ⟨m', hins, hfl', hw⟩ := hfl.insertAndCoalesce_spec h.separated hwf.block
    ((size_initNode m a.header).trans (hr.header a ha)) (h.liveFree a ha)
  have hsp : Memory.Wrote (Spares (s.live.erase a)) m m' := by
    refine ((wrote_initNode m head (a.extent :: s.free) (b := a.extent) (by simp)).trans hw).mono
      fun x hx => hx.spares ?_ (fun c hc => h.live c (List.mem_of_mem_erase hc)) ?_
    · intro b hb
      rcases List.mem_cons.mp hb with rfl | hb
      · exact hwf.block
      · exact h.free b hb
    · intro c hc b hb
      rcases List.mem_cons.mp hb with rfl | hb
      · exact Or.symm (h.apart_erase ha c hc)
      · exact h.liveFree c (List.mem_of_mem_erase hc) b hb
  refine ⟨m', ?_, hr.of_spares (fun c hc => List.mem_of_mem_erase hc)
    (fun c hc => h.live c (List.mem_of_mem_erase hc)) hsp hfl', hsp⟩
  have hback : Heap.headerFromUserPtr m a.ptr = some a.header := by
    rw [Heap.headerFromUserPtr, Word.sub, if_pos (by unfold BACK_PTR_SIZE at *; omega)]
    exact congrArg some (hr.back a ha)
  have hptr : a.ptr ≠ 0 := by
    unfold BACK_PTR_SIZE at h1
    omega
  simp only [Heap.dealloc, if_neg hptr, hback, ensureHeadInitialized_eq hr.list hhead,
    Option.bind_eq_bind, Option.bind_some]
  exact hins

/-! ### Taking -/

section Take

variable {l l₁ l₂ : List (Nat × Nat)} {b : Nat × Nat}

theorem FreeList.removeBlock (h : FreeList m head (l₁ ++ b :: l₂)) :
    FreeList (ListNode.listRemove m (HeapNode.listNode b.1)) head (l₁ ++ l₂) ∧
      Memory.Wrote (HeaderWord head (l₁ ++ b :: l₂)) m
        (ListNode.listRemove m (HeapNode.listNode b.1)) := by
  have hlist := h.list
  rw [nodes_append, nodes_cons] at hlist
  obtain ⟨hl, hw⟩ := hlist.remove
  rw [← nodes_cons, ← nodes_append] at hw
  rw [← nodes_append] at hl
  have hmem : ∀ c ∈ l₁ ++ l₂, c ∈ l₁ ++ b :: l₂ := fun c hc =>
    List.perm_middle.mem_iff.mpr (List.mem_cons_of_mem b hc)
  have hsub : (l₁ ++ l₂).Sublist (l₁ ++ b :: l₂) :=
    (List.Sublist.refl l₁).append (List.sublist_cons_self b l₂)
  refine ⟨⟨hl, fun c hc => ?_, h.sorted.sublist hsub, fun c hc => h.block c (hmem c hc)⟩,
    hw.mono fun x hx => .of_node hx⟩
  have hload := hw.load_eq fun x hx => FreeList.apart_node (h.block c (hmem c hc)) h.block
    (fun d hd => FreeList.eq_or_apart h.sorted (hmem c hc) hd) hx
  exact hload.trans (h.size c (hmem c hc))

theorem keepRemainder_spec (used : Nat) (h : FreeList m head l) (hsep : Separated l)
    (hle : used ≤ b.2) (hlt : b.1 + b.2 ≤ 2 ^ 64)
    (hrest : MIN_FREE_BLOCK_SIZE ≤ b.2 - used → IsBlock head (b.1 + used, b.2 - used))
    (hap : ∀ c ∈ l, Apart (b.1 + used, b.2 - used) c) :
    ∃ m', Heap.keepRemainder m head b.1 used (b.2 - used) = some m' ∧
      FreeList m' head (HeapShape.remainder b used l) ∧
      Memory.Wrote (fun x => HeaderWord head l x ∨
        b.1 + used ≤ x ∧ x + 8 ≤ b.1 + b.2) m m' := by
  rw [Heap.keepRemainder, HeapShape.remainder]
  by_cases hrem : MIN_FREE_BLOCK_SIZE ≤ b.2 - used
  · have hblock := hrest hrem
    obtain ⟨m', hins, hfl, hw⟩ := h.insert_fresh hsep hblock hap
    have hadd : Word.add b.1 used = some (b.1 + used) := by
      rw [Word.add_eq_some]
      unfold MIN_FREE_BLOCK_SIZE at hrem
      unfold Word.modulus
      exact ⟨by omega, rfl⟩
    rw [if_pos hrem, if_pos hrem]
    refine ⟨m', ?_, hfl, hw.mono fun x hx => ?_⟩
    · simp only [hadd, Option.bind_eq_bind, Option.bind_some]
      exact hins
    · have h1 := hblock.header
      unfold HEAP_NODE_SIZE at h1
      rcases hx with hx | hx | ⟨c, hc, hx⟩
      · exact .inl (.inl hx)
      · exact .inl (.inr (.inl hx))
      · rcases List.mem_cons.mp hc with rfl | hc
        · simp only at hx h1
          exact .inr (by omega)
        · exact .inl (.inr (.inr ⟨c, hc, hx⟩))
  · rw [if_neg hrem, if_neg hrem]
    exact ⟨m, rfl, h, .refl _ m⟩

theorem spares_of_free (h : s.WF head) (hb : b ∈ s.free) {x : Nat} (h1 : b.1 ≤ x)
    (h2 : x + 8 ≤ b.1 + b.2) : Spares s.live x := by
  intro a ha
  have h3 := h.liveFree a ha b hb
  unfold Apart Allocation.extent at h3
  simp only at h3
  omega

theorem takeFromBlock_spec (hr : Represents m head s) (h : s.WF head)
    (hs : s.free = l₁ ++ b :: l₂) {a : Allocation} (ha : HeapShape.CutFrom b a) :
    ∃ m', Heap.takeFromBlock m head b.1 b.2 { userPtr := a.ptr, usedSize := a.used } = some m' ∧
      Represents m' head (s.take b (l₁ ++ l₂) a) ∧ Memory.Wrote (Spares s.live) m m' := by
  obtain ⟨hb, hsep, hfree, hapart⟩ := h.others hs
  have hbm : b ∈ s.free := by
    rw [hs]
    simp
  have hwf := h.take hs ha
  have ha1 := ha.start
  have ha2 := ha.used
  have ha3 := ha.header
  have ha4 := ha.room
  have hb1 := hb.pos
  have hb2 := hb.lt
  unfold HEAP_NODE_SIZE BACK_PTR_SIZE at ha3
  have hlist := hr.list
  rw [hs] at hlist
  obtain ⟨hfl₁, hw₁⟩ := hlist.removeBlock
  obtain ⟨m₂, hkeep, hfl₂, hw₂⟩ := keepRemainder_spec a.used (b := b) hfl₁ hsep ha2 hb2
    (ha.rest hb) (fun c hc => by
      have h1 := hapart c hc
      unfold Apart at *
      simp only
      omega)
  have hw₃ : Memory.Wrote (fun x => x = b.1 ∨ x = a.ptr - BACK_PTR_SIZE) m₂
      ((HeapNode.setSize m₂ b.1 a.used).store (a.ptr - BACK_PTR_SIZE) b.1) :=
    ((Memory.Wrote.refl _ m₂).store _ (.inl rfl)).store _ (.inr rfl)
  have hfl₃ : FreeList ((HeapNode.setSize m₂ b.1 a.used).store (a.ptr - BACK_PTR_SIZE) b.1) head
      (HeapShape.remainder b a.used (l₁ ++ l₂)) := by
    refine hfl₂.of_inside (ha.isBlock hb) (hwf.liveFree a List.mem_cons_self) hw₃ fun x hx => ?_
    unfold BACK_PTR_SIZE at hx
    simp only [Allocation.extent]
    omega
  have hsp : Memory.Wrote (Spares s.live) m
      ((HeapNode.setSize m₂ b.1 a.used).store (a.ptr - BACK_PTR_SIZE) b.1) := by
    have hheaders : ∀ x, HeaderWord head (l₁ ++ b :: l₂) x → Spares s.live x := fun x hx =>
      hx.spares (hs ▸ h.free) h.live (hs ▸ h.liveFree)
    refine ((hw₁.mono hheaders).trans (hw₂.mono fun x hx => ?_)).trans (hw₃.mono fun x hx => ?_)
    · rcases hx with hx | hx
      · exact hheaders x (hx.mono fun c hc =>
          ⟨c, List.perm_middle.mem_iff.mpr (List.mem_cons_of_mem b hc), rfl⟩)
      · exact spares_of_free h hbm (by omega) (by omega)
    · unfold BACK_PTR_SIZE at hx
      exact spares_of_free h hbm (by omega) (by omega)
  refine ⟨_, ?_, ?_, hsp⟩
  · have hsub : Word.sub b.2 a.used = some (b.2 - a.used) := by
      rw [Word.sub_eq_some]
      exact ⟨ha2, rfl⟩
    have hback : Word.sub a.ptr BACK_PTR_SIZE = some (a.ptr - BACK_PTR_SIZE) := by
      rw [Word.sub_eq_some]
      exact ⟨by unfold BACK_PTR_SIZE; omega, rfl⟩
    simp only [Heap.takeFromBlock, hsub, hkeep, hback, Option.bind_eq_bind, Option.bind_some]
    rfl
  · have hrep : Represents _ head { s with free := HeapShape.remainder b a.used (l₁ ++ l₂) } :=
      hr.of_spares (fun c hc => hc) h.live hsp hfl₃
    refine ⟨hfl₃, fun c hc => ?_, fun c hc => ?_⟩
    · rcases List.mem_cons.mp hc with rfl | hc
      · rw [ha1, HeapNode.size, Memory.load_store_apart _ _ (by
          unfold Memory.Apart BACK_PTR_SIZE
          omega)]
        exact Memory.load_store_self m₂ b.1 (by omega)
      · exact hrep.header c hc
    · rcases List.mem_cons.mp hc with rfl | hc
      · rw [ha1]
        exact Memory.load_store_self _ _ (by omega)
      · exact hrep.back c hc

end Take

/-! ### Searching -/

/-- Whether a block fits. -/
def fits (layout : Layout) (b : Nat × Nat) : Option AllocationPlacement :=
  AllocLayout.allocationForBlock b.1 b.2 layout allocationGeometry

theorem firstFit_spec (layout : Layout) (rest : List (Nat × Nat)) :
    ∀ (done : List (Nat × Nat)) (fuel : Nat), FreeList m head (done ++ rest) →
      rest.length < fuel →
      ((∀ b ∈ rest, fits layout b = none) ∧
        Heap.firstFit m head layout fuel ((nodes rest).headD head) = some none) ∨
      ∃ l₁ b l₂ p, rest = l₁ ++ b :: l₂ ∧ (∀ c ∈ l₁, fits layout c = none) ∧
        fits layout b = some p ∧
        Heap.firstFit m head layout fuel ((nodes rest).headD head) = some (some (b.1, b.2, p)) := by
  induction rest with
  | nil =>
    intro done fuel _ hfuel
    obtain ⟨fuel, rfl⟩ : ∃ f, fuel = f + 1 := ⟨fuel - 1, by simp at hfuel; omega⟩
    refine .inl ⟨by simp, ?_⟩
    simp [Heap.firstFit]
  | cons b rest ih =>
    intro done fuel h hfuel
    obtain ⟨fuel, rfl⟩ : ∃ f, fuel = f + 1 := ⟨fuel - 1, by simp at hfuel; omega⟩
    have hne := h.node_ne_head (b := b) (by simp)
    have hsize := h.size b (by simp)
    simp only [nodes_cons, List.headD_cons]
    rw [Heap.firstFit, if_neg hne]
    simp only [FreeList.ofListNode_listNode, hsize]
    cases hp : AllocLayout.allocationForBlock b.1 b.2 layout allocationGeometry with
    | some p =>
      exact .inr ⟨[], b, rest, p, rfl, by simp, hp, rfl⟩
    | none =>
      rw [h.next_eq]
      have hassoc : done ++ b :: rest = (done ++ [b]) ++ rest := by simp
      rw [hassoc] at h
      rcases ih (done ++ [b]) fuel h (by simpa using hfuel) with ⟨hno, he⟩ |
        ⟨l₁, c, l₂, p, rfl, hno, hc, he⟩
      · refine .inl ⟨fun c hc => ?_, he⟩
        rcases List.mem_cons.mp hc with rfl | hc
        · exact hp
        · exact hno c hc
      · refine .inr ⟨b :: l₁, c, l₂, p, rfl, fun d hd => ?_, hc, he⟩
        rcases List.mem_cons.mp hd with rfl | hd
        · exact hp
        · exact hno d hd

theorem listEmpty_iff {l : List (Nat × Nat)} (h : FreeList m head l) (hhead : 0 < head) :
    ListNode.listEmpty m head = true ↔ l = [] := by
  obtain ⟨hn, hp⟩ := h.head_links hhead
  have hnext := h.list.ring.next_head
  cases l with
  | nil =>
    have hprev := h.list.ring.prev_head
    simp only [nodes_nil, List.headD_nil, List.getLastD_nil] at hnext hprev
    simp [ListNode.listEmpty, hnext, hprev]
  | cons b l =>
    have hne := h.node_ne_head (b := b) (by simp)
    simp only [nodes_cons, List.headD_cons] at hnext
    rw [hnext] at hn
    simp [ListNode.listEmpty, hp, hnext, hn, hne, Nat.ne_of_gt hhead]

/-! ### Allocating -/

theorem cutFrom_of_fits {asked layout : Layout} (hn : AllocLayout.normalizeLayout asked 8 = some layout)
    {b : Nat × Nat} {p : AllocationPlacement} (hp : fits layout b = some p) :
    HeapShape.CutFrom b
      { header := b.1, used := p.usedSize, ptr := p.userPtr, layout := asked } := by
  have hpl := AllocLayout.allocationForBlock_spec (k := 3) (by omega) rfl hp
  obtain ⟨hsize, halign⟩ := AllocLayout.normalizeLayout_spec (k := 3) hn
  refine ⟨rfl, hpl.used, hpl.header, ?_, halign.trans hpl.align⟩
  rw [← hsize]
  exact hpl.room

theorem allocateFromFreeList_spec (hr : Represents m head s) (h : s.WF head) (hhead : 0 < head)
    {asked layout : Layout} (hn : AllocLayout.normalizeLayout asked 8 = some layout) :
    ((∀ b ∈ s.free, fits layout b = none) ∧
      Heap.allocateFromFreeList m head layout = some (none, m)) ∨
    ∃ l₁ b l₂ p m', s.free = l₁ ++ b :: l₂ ∧ (∀ c ∈ l₁, fits layout c = none) ∧
      fits layout b = some p ∧
      Heap.allocateFromFreeList m head layout = some (some p.userPtr, m') ∧
      Represents m' head (s.take b (l₁ ++ l₂)
        { header := b.1, used := p.usedSize, ptr := p.userPtr, layout := asked }) ∧
      Memory.Wrote (Spares s.live) m m' := by
  have hempty := listEmpty_iff hr.list hhead
  rw [Heap.allocateFromFreeList]
  by_cases hnil : s.free = []
  · refine .inl ⟨by simp [hnil], ?_⟩
    rw [if_pos (hempty.mpr hnil)]
  · have hfirst := firstFit_spec layout s.free [] Word.modulus hr.list hr.list.length_lt
    rw [if_neg fun he => hnil (hempty.mp he), hr.list.list.ring.next_head]
    rcases hfirst with ⟨hno, he⟩ | ⟨l₁, b, l₂, p, hs, hno, hp, he⟩
    · refine .inl ⟨hno, ?_⟩
      simp only [he, Option.bind_eq_bind, Option.bind_some]
    · obtain ⟨m', htake, hrep, hw⟩ := takeFromBlock_spec hr h hs (cutFrom_of_fits hn hp)
      refine .inr ⟨l₁, b, l₂, p, m', hs, hno, hp, ?_, hrep, hw⟩
      simp only [he, Option.bind_eq_bind, Option.bind_some]
      simp only [htake, Option.bind_some]
      rfl

/-- The chunks that the buddy allocator may answer with: aligned, in the direct map, and
disjoint from each other, from the chunks so far and from the list head. -/
structure Supply (head : Nat) (chunks supply : List Nat) : Prop where
  aligned : ∀ phys ∈ supply, CHUNK_SIZE ∣ phys
  direct : ∀ phys ∈ supply, phys + KERNEL_VMA < Word.modulus
  disjoint : supply.Pairwise fun phys phys' => Apart (phys, CHUNK_SIZE) (phys', CHUNK_SIZE)
  fresh : ∀ phys ∈ supply, ∀ c ∈ chunks, Apart (phys + KERNEL_VMA, CHUNK_SIZE) (c, CHUNK_SIZE)
  offHead : ∀ phys ∈ supply, Apart (phys + KERNEL_VMA, CHUNK_SIZE) (head, 16)

theorem Supply.uncons {phys c : Nat} {supply : List Nat} (h : Supply head s.chunks (phys :: supply))
    (hc : Word.add phys KERNEL_VMA = some c) :
    HeapShape.Fresh head s c ∧ Supply head (c :: s.chunks) supply := by
  obtain ⟨hlt, hc⟩ := Word.add_eq_some.mp hc
  obtain ⟨k, hk⟩ := h.aligned phys (by simp)
  have hsize : CHUNK_SIZE = 2 ^ 22 := by decide
  have hfresh := h.fresh phys (by simp)
  have hoff := h.offHead phys (by simp)
  rw [← hc] at hfresh hoff
  refine ⟨⟨⟨(by decide : HEAP_NODE_SIZE ≤ CHUNK_SIZE), ?_, ?_, ?_⟩, ?_⟩, ?_⟩
  · unfold KERNEL_VMA at hc
    simp only
    omega
  · rw [hsize] at hk ⊢
    unfold KERNEL_VMA Word.modulus at *
    simp only
    omega
  · unfold Apart at hoff
    simp only at hoff ⊢
    omega
  · rintro x hx ⟨b, hb, hbx⟩
    obtain ⟨c', hc', rfl⟩ := List.mem_map.mp hb
    have := hfresh c' hc'
    unfold Apart at this
    unfold Has at hx hbx
    omega
  · obtain ⟨hd, hdis⟩ := List.pairwise_cons.mp h.disjoint
    refine ⟨fun p hp => h.aligned p (by simp [hp]), fun p hp => h.direct p (by simp [hp]), hdis,
      fun p hp c' hc' => ?_, fun p hp => h.offHead p (by simp [hp])⟩
    rcases List.mem_cons.mp hc' with rfl | hc'
    · have := hd p hp
      unfold Apart at *
      simp only at *
      omega
    · exact h.fresh p (by simp [hp]) c' hc'

/-- What one `alloc` does to the shape: it grows the heap until a block fits, and takes the
first one that does. -/
inductive AllocStep (asked layout : Layout) :
    List Nat → HeapShape → Option Nat → HeapShape → List Nat → Prop
  | fits {supply l₁ l₂ s b p} : s.free = l₁ ++ b :: l₂ → (∀ c ∈ l₁, fits layout c = none) →
      Zeronix.fits layout b = some p →
      AllocStep asked layout supply s (some p.userPtr) (s.take b (l₁ ++ l₂)
        { header := b.1, used := p.usedSize, ptr := p.userPtr, layout := asked }) supply
  | fails {supply s} : (∀ c ∈ s.free, Zeronix.fits layout c = none) →
      AllocStep asked layout supply s none s supply
  | grows {supply s phys c r s' rest} : (∀ c ∈ s.free, Zeronix.fits layout c = none) →
      Heap.required layout ≤ CHUNK_SIZE → Word.add phys KERNEL_VMA = some c →
      AllocStep asked layout supply (s.grow c) r s' rest →
      AllocStep asked layout (phys :: supply) s r s' rest

theorem allocLoop_spec {asked layout : Layout}
    (hn : AllocLayout.normalizeLayout asked 8 = some layout) (hhead : 0 < head) :
    ∀ (supply : List Nat) {m : Memory} {s : HeapShape}, Represents m head s → s.WF head →
      Supply head s.chunks supply →
      ∃ r m' rest s', Heap.allocLoop head layout supply m = some (r, m', rest) ∧
        AllocStep asked layout supply s r s' rest ∧ Represents m' head s' ∧ s'.WF head ∧
        Memory.Wrote (Spares s.live) m m' := by
  intro supply
  induction supply with
  | nil =>
    intro m s hr h _
    rw [Heap.allocLoop]
    rcases allocateFromFreeList_spec hr h hhead hn with ⟨hno, he⟩ |
      ⟨l₁, b, l₂, p, m', hs, hno, hp, he, hrep, hw⟩
    · refine ⟨none, m, [], s, ?_, .fails hno, hr, h, .refl _ m⟩
      simp only [he, Option.bind_eq_bind, Option.bind_some]
      split <;> rfl
    · refine ⟨_, m', [], _, ?_, .fits hs hno hp, hrep, h.take hs (cutFrom_of_fits hn hp), hw⟩
      simp only [he, Option.bind_eq_bind, Option.bind_some]
  | cons phys supply ih =>
    intro m s hr h hsup
    rw [Heap.allocLoop]
    rcases allocateFromFreeList_spec hr h hhead hn with ⟨hno, he⟩ |
      ⟨l₁, b, l₂, p, m', hs, hno, hp, he, hrep, hw⟩
    · simp only [he, Option.bind_eq_bind, Option.bind_some]
      split
      · exact ⟨none, m, phys :: supply, s, rfl, .fails hno, hr, h, .refl _ m⟩
      · rename_i hreq
        obtain ⟨c, hc⟩ : ∃ c, Word.add phys KERNEL_VMA = some c :=
          ⟨_, Word.add_eq_some.mpr ⟨hsup.direct phys (by simp), rfl⟩⟩
        obtain ⟨hfresh, hsup'⟩ := hsup.uncons hc
        obtain ⟨m₁, hgrow, hr₁, hw₁⟩ := growHeap_spec hr h hc hfresh
        obtain ⟨r, m', rest, s', hloop, hstep, hr', hwf', hw'⟩ :=
          ih hr₁ (h.grow hfresh) hsup'
        refine ⟨r, m', rest, s', ?_, .grows hno (by omega) hc hstep, hr', hwf', hw₁.trans hw'⟩
        simp only [hgrow, Option.bind_some, hloop]
    · refine ⟨_, m', phys :: supply, _, ?_, .fits hs hno hp, hrep,
        h.take hs (cutFrom_of_fits hn hp), hw⟩
      simp only [he, Option.bind_eq_bind, Option.bind_some]

end Ops

end Zeronix
