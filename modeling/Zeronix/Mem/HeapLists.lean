import Mathlib.Data.List.Perm.Subperm
import Zeronix.Lib.Extents
import Zeronix.Mem.Alloc

/-!
# The free list of the heap

`FreeList m head l` says that the memory `m` holds the list `l` of free blocks around
`head`: the list nodes inside the blocks' headers are linked in order, the headers hold
the sizes, and the blocks follow each other in address order.

`insertAndCoalesce_spec` is what the rest of the heap uses: inserting a block is
`Extents.insertMerge` on the list, and only headers of free blocks, of the new block and
the head are written.
-/

namespace Zeronix

open Extents

/-- A block that can be on the free list: it holds a header, ends inside the address space
and is off the list head. -/
structure IsBlock (head : Nat) (b : Nat × Nat) : Prop where
  header : HEAP_NODE_SIZE ≤ b.2
  pos : 0 < b.1
  lt : b.1 + b.2 ≤ 2 ^ 64
  off : b.1 + b.2 ≤ head ∨ head + 16 ≤ b.1

theorem IsBlock.join {head : Nat} {a b : Nat × Nat} (h : a.1 + a.2 = b.1) (ha : IsBlock head a)
    (hb : IsBlock head b) : IsBlock head (a.1, a.2 + b.2) := by
  obtain ⟨h1, h2, h3, h4⟩ := ha
  obtain ⟨h5, h6, h7, h8⟩ := hb
  unfold HEAP_NODE_SIZE at *
  exact ⟨by simp only [HEAP_NODE_SIZE]; omega, h2, by simp only; omega, by simp only; omega⟩

/-- The list nodes of some blocks. -/
def nodes (l : List (Nat × Nat)) : List Nat := l.map fun b => HeapNode.listNode b.1

@[simp] theorem nodes_nil : nodes [] = [] := rfl

@[simp] theorem nodes_cons (b : Nat × Nat) (l : List (Nat × Nat)) :
    nodes (b :: l) = HeapNode.listNode b.1 :: nodes l := rfl

@[simp] theorem nodes_append (l₁ l₂ : List (Nat × Nat)) :
    nodes (l₁ ++ l₂) = nodes l₁ ++ nodes l₂ := List.map_append

structure FreeList (m : Memory) (head : Nat) (l : List (Nat × Nat)) : Prop where
  list : ListNode.IsList m head (nodes l)
  size : ∀ b ∈ l, HeapNode.size m b.1 = b.2
  sorted : l.Pairwise fun a b => a.1 + a.2 ≤ b.1
  block : ∀ b ∈ l, IsBlock head b

/-- The words of the head and of the headers of some blocks. -/
def HeaderWord (head : Nat) (l : List (Nat × Nat)) (a : Nat) : Prop :=
  a = head ∨ a = head + 8 ∨ ∃ b ∈ l, a = b.1 ∨ a = b.1 + 8 ∨ a = b.1 + 16

theorem HeaderWord.mono {head a : Nat} {l l' : List (Nat × Nat)} (h : HeaderWord head l a)
    (hl : ∀ b ∈ l, ∃ c ∈ l', c.1 = b.1) : HeaderWord head l' a := by
  rcases h with h | h | ⟨b, hb, h⟩
  · exact .inl h
  · exact .inr (.inl h)
  · obtain ⟨c, hc, hcb⟩ := hl b hb
    exact .inr (.inr ⟨c, hc, by rwa [hcb]⟩)

theorem HeaderWord.of_node {head a : Nat} {l : List (Nat × Nat)}
    (h : ∃ y ∈ head :: nodes l, a = y ∨ a = y + 8) :
    HeaderWord head l a := by
  obtain ⟨y, hy, ha⟩ := h
  rcases List.mem_cons.mp hy with rfl | hy
  · rcases ha with ha | ha
    · exact .inl ha
    · exact .inr (.inl ha)
  · obtain ⟨b, hb, rfl⟩ := List.mem_map.mp hy
    refine .inr (.inr ⟨b, hb, ?_⟩)
    rcases ha with ha | ha
    · exact .inr (.inl ha)
    · exact .inr (.inr ha)

namespace FreeList

variable {m m' : Memory} {head : Nat} {l l₁ l₂ : List (Nat × Nat)} {b : Nat × Nat}

theorem eq_or_apart (h : l.Pairwise fun a b => a.1 + a.2 ≤ b.1) {a b : Nat × Nat} (ha : a ∈ l)
    (hb : b ∈ l) : a = b ∨ Apart a b := by
  refine List.Pairwise.forall_of_forall_of_flip (R := fun a b : Nat × Nat => a = b ∨ Apart a b)
    (fun _ _ => .inl rfl) (h.imp fun hab => .inr (.inl hab)) (h.imp fun hab => .inr (.inr hab)) ha hb

theorem noOverlap {a b : Nat × Nat} (ha : IsBlock head a) (hb : IsBlock head b)
    (h : a = b ∨ Apart a b) :
    ListNode.NoOverlap (HeapNode.listNode a.1) (HeapNode.listNode b.1) := by
  rcases h with rfl | h
  · exact .inl rfl
  · have h1 := ha.header
    have h2 := hb.header
    unfold HEAP_NODE_SIZE at h1 h2
    unfold Apart at h
    unfold ListNode.NoOverlap HeapNode.listNode
    omega

theorem apart_node (hb : IsBlock head b) (hl : ∀ c ∈ l, IsBlock head c)
    (hd : ∀ c ∈ l, b = c ∨ Apart b c) {a : Nat}
    (ha : ∃ y ∈ head :: nodes l, a = y ∨ a = y + 8) :
    Memory.Apart a b.1 := by
  obtain ⟨y, hy, ha⟩ := ha
  have h1 := hb.header
  have h2 := hb.off
  unfold HEAP_NODE_SIZE at h1
  unfold Memory.Apart
  rcases List.mem_cons.mp hy with rfl | hy
  · omega
  · obtain ⟨c, hc, rfl⟩ := List.mem_map.mp hy
    have h3 := (hl c hc).header
    unfold HEAP_NODE_SIZE at h3
    unfold HeapNode.listNode at ha
    rcases hd c hc with rfl | hd
    · omega
    · unfold Apart at hd
      omega

theorem node_lt (hb : IsBlock head b) : HeapNode.listNode b.1 < 2 ^ 64 := by
  have h1 := hb.header
  have h2 := hb.lt
  unfold HEAP_NODE_SIZE at h1
  unfold HeapNode.listNode
  omega

/-! ### Finding the place -/

theorem getLastD_map (l : List (Nat × Nat)) (b : Nat × Nat) :
    (nodes (l ++ [b])).getLastD head = HeapNode.listNode b.1 := by
  simp [List.getLastD_eq_getLast?]

theorem next_eq (h : FreeList m head (l₁ ++ b :: l₂)) :
    ListNode.next m (HeapNode.listNode b.1) =
      (nodes l₂).headD head := by
  have hr := h.list.ring
  rw [nodes_append, nodes_cons] at hr
  exact hr.links.2

theorem node_ne_head (h : FreeList m head l) (hb : b ∈ l) : HeapNode.listNode b.1 ≠ head := by
  have hn := (List.nodup_cons.mp h.list.ring.nodup).1
  intro he
  exact hn (List.mem_map.mpr ⟨b, hb, he⟩)

theorem findSlot_spec (block : Nat) (rest : List (Nat × Nat)) :
    ∀ (done : List (Nat × Nat)) (fuel : Nat), FreeList m head (done ++ rest) →
      (∀ c ∈ done, c.1 < block) → rest.length < fuel →
      ∃ l₁ l₂, done ++ rest = l₁ ++ l₂ ∧ (∀ c ∈ l₁, c.1 < block) ∧ (∀ c ∈ l₂, block ≤ c.1) ∧
        Heap.findSlot m head block fuel
          ((nodes done).getLastD head)
          ((nodes rest).headD head) =
        some ((nodes l₁).getLastD head,
          (nodes l₂).headD head) := by
  induction rest with
  | nil =>
    intro done fuel _ hdone hfuel
    obtain ⟨fuel, rfl⟩ : ∃ f, fuel = f + 1 := ⟨fuel - 1, by simp at hfuel; omega⟩
    refine ⟨done, [], rfl, hdone, by simp, ?_⟩
    simp [Heap.findSlot]
  | cons b rest ih =>
    intro done fuel h hdone hfuel
    obtain ⟨fuel, rfl⟩ : ∃ f, fuel = f + 1 := ⟨fuel - 1, by simp at hfuel; omega⟩
    have hne := h.node_ne_head (b := b) (by simp)
    simp only [nodes_cons, List.headD_cons]
    rw [Heap.findSlot, if_neg hne]
    have hof : HeapNode.ofListNode (HeapNode.listNode b.1) = b.1 := Nat.add_sub_cancel _ _
    rw [hof]
    by_cases hge : b.1 ≥ block
    · refine ⟨done, b :: rest, rfl, hdone, ?_, by simp [hge]⟩
      intro c hc
      have hs := (List.pairwise_append.mp h.sorted).2.1
      rcases List.mem_cons.mp hc with rfl | hc
      · exact hge
      · have := (List.pairwise_cons.mp hs).1 c hc
        omega
    · rw [if_neg hge, h.next_eq]
      have hassoc : done ++ b :: rest = (done ++ [b]) ++ rest := by simp
      rw [hassoc] at h ⊢
      have hdone' : ∀ c ∈ done ++ [b], c.1 < block := by
        intro c hc
        rcases List.mem_append.mp hc with hc | hc
        · exact hdone c hc
        · obtain rfl : c = b := by simpa using hc
          omega
      have := ih (done ++ [b]) fuel h hdone' (by simpa using hfuel)
      rwa [getLastD_map] at this

theorem length_lt (h : FreeList m head l) : l.length < Word.modulus := by
  have bound : ∀ (n : Nat) (l : List Nat), l.Nodup → (∀ a ∈ l, a < n) → l.length ≤ n := by
    intro n l hn hl
    rw [← List.length_range (n := n)]
    exact (List.Nodup.subperm hn fun a ha => List.mem_range.mpr (hl a ha)).length_le
  have := bound _ _ h.list.ring.nodup h.list.lt
  rw [List.length_cons, nodes, List.length_map] at this
  unfold Word.modulus
  omega

/-! ### The edits -/

theorem congr (h : FreeList m head l) (hw : ∀ a, HeaderWord head l a → m'.load a = m.load a) :
    FreeList m' head l := by
  refine ⟨h.list.congr (fun a ha => ?_) (fun a ha => ?_), fun b hb => ?_, h.sorted, h.block⟩
  · exact hw a (.of_node ⟨a, ha, .inl rfl⟩)
  · exact hw (a + 8) (.of_node ⟨a, ha, .inr rfl⟩)
  · exact (hw b.1 (.inr (.inr ⟨b, hb, .inl rfl⟩))).trans (h.size b hb)

theorem linkBlock_spec (h : FreeList m head (l₁ ++ l₂)) (hb : IsBlock head b)
    (hsize : HeapNode.size m b.1 = b.2) (h₁ : ∀ c ∈ l₁, c.1 + c.2 ≤ b.1)
    (h₂ : ∀ c ∈ l₂, b.1 + b.2 ≤ c.1) :
    FreeList (Heap.linkBlock m b.1 ((nodes l₁).getLastD head)
        ((nodes l₂).headD head)) head (l₁ ++ b :: l₂) ∧
      Memory.Wrote (HeaderWord head (l₁ ++ b :: l₂)) m
        (Heap.linkBlock m b.1 ((nodes l₁).getLastD head)
          ((nodes l₂).headD head)) := by
  have hapart : ∀ c ∈ l₁ ++ l₂, Apart b c := by
    intro c hc
    rcases List.mem_append.mp hc with hc | hc
    · exact .inr (h₁ c hc)
    · exact .inl (h₂ c hc)
  have hlist := h.list
  rw [nodes_append] at hlist
  have hnew : ∀ y ∈ head :: ((nodes l₁) ++
      nodes l₂),
      HeapNode.listNode b.1 ≠ y ∧ ListNode.NoOverlap (HeapNode.listNode b.1) y := by
    intro y hy
    have hb1 := hb.header
    have hb2 := hb.off
    unfold HEAP_NODE_SIZE at hb1
    rw [← nodes_append] at hy
    rcases List.mem_cons.mp hy with rfl | hy
    · unfold ListNode.NoOverlap HeapNode.listNode
      omega
    · obtain ⟨c, hc, rfl⟩ := List.mem_map.mp hy
      refine ⟨?_, noOverlap hb (h.block c hc) (.inr (hapart c hc))⟩
      have h3 := (h.block c hc).header
      have h4 := hapart c hc
      unfold HEAP_NODE_SIZE at h3
      unfold Apart at h4
      unfold HeapNode.listNode
      omega
  obtain ⟨hl, hwrote⟩ := hlist.insert hnew (node_lt hb)
  have hsorted : (l₁ ++ b :: l₂).Pairwise fun a b => a.1 + a.2 ≤ b.1 := by
    obtain ⟨hs₁, hs₂, hs₃⟩ := List.pairwise_append.mp h.sorted
    refine List.pairwise_append.mpr ⟨hs₁, List.pairwise_cons.mpr ⟨h₂, hs₂⟩, fun a ha c hc => ?_⟩
    rcases List.mem_cons.mp hc with rfl | hc
    · exact h₁ a ha
    · exact hs₃ a ha c hc
  have hblock : ∀ c ∈ l₁ ++ b :: l₂, IsBlock head c := by
    intro c hc
    rcases List.mem_append.mp hc with hc | hc
    · exact h.block c (List.mem_append_left _ hc)
    · rcases List.mem_cons.mp hc with rfl | hc
      · exact hb
      · exact h.block c (List.mem_append_right _ hc)
  have hmap : nodes (l₁ ++ b :: l₂) =
      (nodes l₁) ++
        HeapNode.listNode b.1 :: nodes l₂ := by simp
  rw [← hmap] at hl hwrote
  refine ⟨⟨hl, fun c hc => ?_, hsorted, hblock⟩, hwrote.mono fun a ha => .of_node ha⟩
  have hload := hwrote.load_eq fun a ha =>
    apart_node (hblock c hc) hblock (fun d hd => eq_or_apart hsorted hc hd) ha
  refine hload.trans ?_
  rcases List.mem_append.mp hc with hc | hc
  · exact h.size c (List.mem_append_left _ hc)
  · rcases List.mem_cons.mp hc with rfl | hc
    · exact hsize
    · exact h.size c (List.mem_append_right _ hc)

theorem absorb_spec {a c : Nat × Nat} (h : FreeList m head (l₁ ++ a :: c :: l₂))
    (hadj : a.1 + a.2 = c.1) :
    ∃ m', Heap.absorb m a.1 c.1 = some m' ∧
      FreeList m' head (l₁ ++ (a.1, a.2 + c.2) :: l₂) ∧
      Memory.Wrote (HeaderWord head (l₁ ++ a :: c :: l₂)) m m' := by
  have ham : a ∈ l₁ ++ a :: c :: l₂ := by simp
  have hcm : c ∈ l₁ ++ a :: c :: l₂ := by simp
  have ha := h.block a ham
  have hc := h.block c hcm
  have hsum : a.2 + c.2 < Word.modulus := by
    have h1 := ha.pos
    have h2 := hc.lt
    unfold Word.modulus
    omega
  -- writing the size leaves the links alone
  have hlinks : ∀ x, (∃ y ∈ head :: nodes (l₁ ++ a :: c :: l₂),
      x = y ∨ x = y + 8) → (HeapNode.setSize m a.1 (a.2 + c.2)).load x = m.load x := by
    intro x hx
    refine Memory.load_store_apart m _ (Memory.Apart.symm ?_)
    exact apart_node ha h.block (fun d hd => eq_or_apart h.sorted ham hd) hx
  have hlist : ListNode.IsList (HeapNode.setSize m a.1 (a.2 + c.2)) head
      (nodes (l₁ ++ a :: c :: l₂)) :=
    h.list.congr (fun x hx => hlinks x ⟨x, hx, .inl rfl⟩)
      (fun x hx => hlinks (x + 8) ⟨x, hx, .inr rfl⟩)
  have hmap : nodes (l₁ ++ a :: c :: l₂) =
      (nodes (l₁ ++ [a])) ++
        HeapNode.listNode c.1 :: nodes l₂ := by simp
  have hlist' := hlist
  rw [hmap] at hlist'
  obtain ⟨hl, hwrote⟩ := hlist'.remove
  rw [← hmap] at hwrote
  have hsorted : (l₁ ++ (a.1, a.2 + c.2) :: l₂).Pairwise fun a b => a.1 + a.2 ≤ b.1 := by
    obtain ⟨hs₁, hs₂, hs₃⟩ := List.pairwise_append.mp h.sorted
    obtain ⟨_, hs₄⟩ := List.pairwise_cons.mp hs₂
    obtain ⟨hs₅, hs₆⟩ := List.pairwise_cons.mp hs₄
    refine List.pairwise_append.mpr ⟨hs₁, List.pairwise_cons.mpr ⟨fun d hd => ?_, hs₆⟩,
      fun d hd e he => ?_⟩
    · have := hs₅ d hd
      simp only
      omega
    · rcases List.mem_cons.mp he with rfl | he
      · exact hs₃ d hd a (by simp)
      · exact hs₃ d hd e (by simp [he])
  refine ⟨ListNode.listRemove (HeapNode.setSize m a.1 (a.2 + c.2)) (HeapNode.listNode c.1), ?_,
    ⟨?_, fun d hd => ?_, hsorted, fun d hd => ?_⟩, ?_⟩
  · rw [Heap.absorb, h.size a ham, h.size c hcm, Word.add, if_pos hsum]
    rfl
  · simpa [HeapNode.listNode] using hl
  · -- the size words are apart from the links that `list_remove` writes
    have hread : ∀ d ∈ l₁ ++ a :: c :: l₂, HeapNode.size (ListNode.listRemove
        (HeapNode.setSize m a.1 (a.2 + c.2)) (HeapNode.listNode c.1)) d.1 =
        (HeapNode.setSize m a.1 (a.2 + c.2)).load d.1 := by
      intro d hd
      exact hwrote.load_eq fun x hx =>
        apart_node (h.block d hd) h.block (fun e he => eq_or_apart h.sorted hd he) hx
    have hother : ∀ d ∈ l₁ ++ a :: c :: l₂, Apart a d →
        (HeapNode.setSize m a.1 (a.2 + c.2)).load d.1 = d.2 := by
      intro d hd hap
      refine (Memory.load_store_apart m _ ?_).trans (h.size d hd)
      have h1 := ha.header
      have h2 := (h.block d hd).header
      unfold HEAP_NODE_SIZE at h1 h2
      unfold Apart at hap
      unfold Memory.Apart
      omega
    obtain ⟨_, hs₂, hs₃⟩ := List.pairwise_append.mp h.sorted
    obtain ⟨hs₄, _⟩ := List.pairwise_cons.mp hs₂
    rcases List.mem_append.mp hd with hd | hd
    · rw [hread d (by simp [hd])]
      exact hother d (by simp [hd]) (.inr (hs₃ d hd a (by simp)))
    · rcases List.mem_cons.mp hd with rfl | hd
      · exact (hread a ham).trans (Memory.load_store_self m a.1 hsum)
      · rw [hread d (by simp [hd])]
        exact hother d (by simp [hd]) (.inl (hs₄ d (by simp [hd])))
  · rcases List.mem_append.mp hd with hd | hd
    · exact h.block d (by simp [hd])
    · rcases List.mem_cons.mp hd with rfl | hd
      · exact ha.join hadj hc
      · exact h.block d (by simp [hd])
  · refine Memory.Wrote.trans (Memory.wrote_store m _ ?_) (hwrote.mono fun x hx => .of_node hx)
    exact .inr (.inr ⟨a, ham, .inl rfl⟩)

/-! ### Merging -/

theorem adjacent_iff (h : FreeList m head l) {a c : Nat × Nat} (ha : a ∈ l) (hc : c ∈ l) :
    Heap.blocksAreAdjacent m a.1 c.1 = true ↔ a.1 + a.2 = c.1 := by
  have h1 := (h.block c hc).lt
  have h2 := (h.block c hc).header
  rw [Heap.blocksAreAdjacent, h.size a ha, beq_iff_eq]
  unfold Word.saturatingAdd Word.modulus
  unfold HEAP_NODE_SIZE at h2
  omega

theorem ofListNode_listNode (block : Nat) :
    HeapNode.ofListNode (HeapNode.listNode block) = block := Nat.add_sub_cancel block 8

theorem mergeNext_spec {x : Nat × Nat} (h : FreeList m head (l₁ ++ x :: l₂)) :
    ∃ m', Heap.mergeNext m head x.1 = some m' ∧ FreeList m' head (l₁ ++ consMerge x l₂) ∧
      Memory.Wrote (HeaderWord head (l₁ ++ x :: l₂)) m m' := by
  rw [Heap.mergeNext, h.next_eq]
  cases l₂ with
  | nil =>
    refine ⟨m, ?_, h, .refl _ m⟩
    simp
  | cons c l₂ =>
    have hne := h.node_ne_head (b := c) (by simp)
    have hadj := h.adjacent_iff (a := x) (c := c) (by simp) (by simp)
    simp only [nodes_cons, List.headD_cons, ofListNode_listNode, consMerge]
    by_cases he : x.1 + x.2 = c.1
    · rw [if_pos ⟨hne, hadj.mpr he⟩, if_pos he]
      exact h.absorb_spec he
    · rw [if_neg fun hc => he (hadj.mp hc.2), if_neg he]
      exact ⟨m, rfl, h, .refl _ m⟩

theorem mergePrev_spec (h : FreeList m head (l₁ ++ b :: l₂)) :
    ∃ m' A x, Heap.mergePrev m head ((nodes l₁).getLastD head) b.1 = some (m', x.1) ∧
      FreeList m' head (A ++ x :: l₂) ∧ Memory.Wrote (HeaderWord head (l₁ ++ b :: l₂)) m m' ∧
      (∀ c ∈ A ++ x :: l₂, ∃ d ∈ l₁ ++ b :: l₂, d.1 = c.1) ∧
      A ++ consMerge x l₂ = joinBetween l₁ b l₂ := by
  rcases List.eq_nil_or_concat l₁ with rfl | ⟨A, p, rfl⟩
  · refine ⟨m, [], b, ?_, h, .refl _ m, fun c hc => ⟨c, hc, rfl⟩, rfl⟩
    simp [Heap.mergePrev]
  · rw [List.concat_eq_append] at h ⊢
    have hne := h.node_ne_head (b := p) (by simp)
    have hadj := h.adjacent_iff (a := p) (c := b) (by simp) (by simp)
    rw [Heap.mergePrev, getLastD_map, ofListNode_listNode]
    simp only [joinBetween, List.getLast?_append, List.getLast?_singleton, Option.some_or,
      List.dropLast_concat]
    by_cases he : p.1 + p.2 = b.1
    · rw [if_pos ⟨hne, hadj.mpr he⟩, if_pos he]
      have h' : FreeList m head (A ++ p :: b :: l₂) := by simpa using h
      obtain ⟨m', habs, hfl, hwrote⟩ := h'.absorb_spec he
      refine ⟨m', A, (p.1, p.2 + b.2), by rw [habs]; rfl, hfl, by simpa using hwrote, ?_, rfl⟩
      intro c hc
      rcases List.mem_append.mp hc with hc | hc
      · exact ⟨c, by simp [hc], rfl⟩
      · rcases List.mem_cons.mp hc with rfl | hc
        · exact ⟨p, by simp, rfl⟩
        · exact ⟨c, by simp [hc], rfl⟩
    · rw [if_neg fun hc => he (hadj.mp hc.2), if_neg he]
      exact ⟨m, A ++ [p], b, rfl, h, .refl _ m, fun c hc => ⟨c, hc, rfl⟩, rfl⟩

/-- **`insert_and_coalesce` is `insertMerge`.** -/
theorem insertAndCoalesce_spec (h : FreeList m head l) (hsep : Separated l) (hb : IsBlock head b)
    (hsize : HeapNode.size m b.1 = b.2) (hd : ∀ c ∈ l, Apart b c) :
    ∃ m', Heap.insertAndCoalesce m head b.1 = some m' ∧ FreeList m' head (insertMerge b l) ∧
      Memory.Wrote (HeaderWord head (b :: l)) m m' := by
  have hpos : ∀ c ∈ l, 0 < c.2 := fun c hc => lt_of_lt_of_le (by decide) (h.block c hc).header
  have hbpos : 0 < b.2 := lt_of_lt_of_le (by decide) hb.header
  obtain ⟨l₁, l₂, hl, h₁, h₂, hslot⟩ :=
    findSlot_spec b.1 l [] Word.modulus h (by simp) h.length_lt
  rw [List.nil_append] at hl
  subst hl
  have hle₁ : ∀ c ∈ l₁, c.1 + c.2 ≤ b.1 := by
    intro c hc
    have := h₁ c hc
    rcases hd c (by simp [hc]) with h' | h' <;> omega
  have hle₂ : ∀ c ∈ l₂, b.1 + b.2 ≤ c.1 := by
    intro c hc
    have := h₂ c hc
    have := hpos c (by simp [hc])
    rcases hd c (by simp [hc]) with h' | h' <;> omega
  obtain ⟨hlink, hw₁⟩ := h.linkBlock_spec hb hsize hle₁ hle₂
  obtain ⟨m₂, A, x, hprev, hfl, hw₂, hstarts, hmerge⟩ := hlink.mergePrev_spec
  obtain ⟨m₃, hnext, hfl', hw₃⟩ := hfl.mergeNext_spec
  refine ⟨m₃, ?_, ?_, ?_⟩
  · simp only [nodes_nil, List.getLastD_nil] at hslot
    rw [← h.list.ring.next_head] at hslot
    rw [Heap.insertAndCoalesce, hslot]
    simp only [Option.bind_eq_bind, Option.bind_some, hprev, hnext]
  · rw [insertMerge_append h₁ h₂ (List.pairwise_append.mp hsep).1
      (fun c hc => hpos c (by simp [hc])), ← hmerge]
    exact hfl'
  · refine ((hw₁.trans hw₂).trans (hw₃.mono fun a ha => ha.mono hstarts)).mono fun a ha => ?_
    exact ha.mono fun c hc => ⟨c, List.perm_middle.mem_iff.mp hc, rfl⟩

end FreeList

end Zeronix
