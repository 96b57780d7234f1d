import Zeronix.Lib.Memory
import Zeronix.Lib.Ring

/-!
# Intrusive lists in memory

`src/list.rs`: a `ListNode` is two words in memory, `next` at its address and `prev` eight
bytes above, and a list is the ring of nodes around a head node.  `IsList m head l` says
that the memory `m` holds the list `l` around `head`, with its nodes apart from each other.
-/

namespace Zeronix

namespace ListNode

def next (m : Memory) (node : Nat) : Nat := m.load node

def prev (m : Memory) (node : Nat) : Nat := m.load (node + 8)

def setNext (m : Memory) (node v : Nat) : Memory := m.store node v

def setPrev (m : Memory) (node v : Nat) : Memory := m.store (node + 8) v

def initAt (m : Memory) (node : Nat) : Memory := setPrev (setNext m node node) node node

def listEmpty (m : Memory) (head : Nat) : Bool :=
  head == 0 || prev m head == 0 || next m head == 0 || (next m head == head && prev m head == head)

/-- `_list_remove`: link two nodes to each other. -/
def joinNodes (m : Memory) (p n : Nat) : Memory := setPrev (setNext m p n) n p

def listRemove (m : Memory) (old : Nat) : Memory :=
  initAt (joinNodes m (prev m old) (next m old)) old

/-! ### Nodes that do not overlap -/

/-- Two nodes are the same or share no byte. -/
def NoOverlap (a b : Nat) : Prop := a = b ∨ a + 16 ≤ b ∨ b + 16 ≤ a

theorem NoOverlap.symm {a b : Nat} (h : NoOverlap a b) : NoOverlap b a := by
  unfold NoOverlap at *
  omega

section Fields

variable (m : Memory) {a b : Nat} (v : Nat)

theorem next_setNext (h : NoOverlap a b) (hv : v < 2 ^ 64) :
    next (setNext m a v) b = if b = a then v else next m b := by
  unfold next setNext
  split
  · rename_i he
    rw [he]
    exact Memory.load_store_self m a hv
  · refine Memory.load_store_apart m v ?_
    unfold NoOverlap at h
    unfold Memory.Apart
    omega

theorem prev_setPrev (h : NoOverlap a b) (hv : v < 2 ^ 64) :
    prev (setPrev m a v) b = if b = a then v else prev m b := by
  unfold prev setPrev
  split
  · rename_i he
    rw [he]
    exact Memory.load_store_self m (a + 8) hv
  · refine Memory.load_store_apart m v ?_
    unfold NoOverlap at h
    unfold Memory.Apart
    omega

theorem next_setPrev (h : NoOverlap a b) : next (setPrev m a v) b = next m b := by
  refine Memory.load_store_apart m v ?_
  unfold NoOverlap at h
  unfold Memory.Apart
  omega

theorem prev_setNext (h : NoOverlap a b) : prev (setNext m a v) b = prev m b := by
  refine Memory.load_store_apart m v ?_
  unfold NoOverlap at h
  unfold Memory.Apart
  omega

end Fields

/-! ### Lists -/

structure IsList (m : Memory) (head : Nat) (l : List Nat) : Prop where
  ring : Ring.IsRing (next m) (prev m) head l
  apart : ∀ a ∈ head :: l, ∀ b ∈ head :: l, NoOverlap a b
  lt : ∀ a ∈ head :: l, a < 2 ^ 64

/-- A list depends on the words of its own nodes only. -/
theorem IsList.congr {m m' : Memory} {head : Nat} {l : List Nat} (h : IsList m head l)
    (hn : ∀ a ∈ head :: l, next m' a = next m a) (hp : ∀ a ∈ head :: l, prev m' a = prev m a) :
    IsList m' head l := ⟨h.ring.congr hn hp, h.apart, h.lt⟩

/-- An initialised node is the head of an empty list. -/
theorem isList_initAt (m : Memory) {head : Nat} (h : head < 2 ^ 64) :
    IsList (initAt m head) head [] := by
  have hself : NoOverlap head head := .inl rfl
  have hnext : next (initAt m head) head = head := by
    rw [initAt, next_setPrev _ _ hself, next_setNext _ _ hself h, if_pos rfl]
  have hprev : prev (initAt m head) head = head := by
    rw [initAt, prev_setPrev _ _ hself h, if_pos rfl]
  refine ⟨⟨?_, by simp⟩, by simp [NoOverlap], by simpa using h⟩
  exact List.isChain_cons_cons.mpr ⟨⟨hnext, hprev⟩, .singleton head⟩

theorem mem_middle {head x a : Nat} {l₁ l₂ : List Nat} (h : a ∈ head :: (l₁ ++ l₂)) :
    a ∈ head :: (l₁ ++ x :: l₂) := by
  simp only [List.mem_cons, List.mem_append] at h ⊢
  tauto

theorem self_mem_middle {head x : Nat} {l₁ l₂ : List Nat} : x ∈ head :: (l₁ ++ x :: l₂) := by
  simp

/-- **`list_remove` takes a member out**, and writes to the links of the member and its
neighbours only. -/
theorem IsList.remove {m : Memory} {head x : Nat} {l₁ l₂ : List Nat}
    (h : IsList m head (l₁ ++ x :: l₂)) :
    IsList (listRemove m x) head (l₁ ++ l₂) ∧
      Memory.Wrote (fun a => ∃ y ∈ head :: (l₁ ++ x :: l₂), a = y ∨ a = y + 8) m
        (listRemove m x) := by
  obtain ⟨hp, hn⟩ := h.ring.links
  have hpm := mem_middle (x := x) (Ring.getLastD_mem_append head l₁ l₂)
  have hcm := mem_middle (x := x) (Ring.headD_mem_append head l₁ l₂)
  have hxm : x ∈ head :: (l₁ ++ x :: l₂) := self_mem_middle
  have hnd : x ∉ head :: (l₁ ++ l₂) := by
    have hperm : (head :: (l₁ ++ x :: l₂)).Perm (x :: head :: (l₁ ++ l₂)) :=
      (List.Perm.cons head List.perm_middle).trans (List.Perm.swap x head _)
    exact (List.nodup_cons.mp (hperm.nodup_iff.mp h.ring.nodup)).1
  rw [listRemove, joinNodes, initAt, hp, hn]
  refine ⟨⟨h.ring.remove (fun y hy => ?_) (fun y hy => ?_), fun a ha b hb =>
    h.apart a (mem_middle ha) b (mem_middle hb), fun a ha => h.lt a (mem_middle ha)⟩, ?_⟩
  · have hym := mem_middle (x := x) hy
    have hne : y ≠ x := fun he => hnd (he ▸ hy)
    rw [next_setPrev _ _ (h.apart _ hxm _ hym), next_setNext _ _ (h.apart _ hxm _ hym) (h.lt x hxm),
      if_neg hne, next_setPrev _ _ (h.apart _ hcm _ hym),
      next_setNext _ _ (h.apart _ hpm _ hym) (h.lt _ hcm)]
  · have hym := mem_middle (x := x) hy
    have hne : y ≠ x := fun he => hnd (he ▸ hy)
    rw [prev_setPrev _ _ (h.apart _ hxm _ hym) (h.lt x hxm), if_neg hne,
      prev_setNext _ _ (h.apart _ hxm _ hym),
      prev_setPrev _ _ (h.apart _ hcm _ hym) (h.lt _ hpm), prev_setNext _ _ (h.apart _ hpm _ hym)]
  · refine ((((Memory.Wrote.refl _ m).store _ ?_).store _ ?_).store _ ?_).store _ ?_
    · exact ⟨_, hpm, .inl rfl⟩
    · exact ⟨_, hcm, .inr rfl⟩
    · exact ⟨x, hxm, .inl rfl⟩
    · exact ⟨x, hxm, .inr rfl⟩

/-- **Linking a new node between two neighbours**, in the order in which
`insert_and_coalesce` writes the four links. -/
theorem IsList.insert {m : Memory} {head x : Nat} {l₁ l₂ : List Nat}
    (h : IsList m head (l₁ ++ l₂)) (hx : ∀ y ∈ head :: (l₁ ++ l₂), x ≠ y ∧ NoOverlap x y)
    (hlt : x < 2 ^ 64) :
    IsList (setPrev (setNext (setNext (setPrev m x (l₁.getLastD head)) x (l₂.headD head))
        (l₁.getLastD head) x) (l₂.headD head) x) head (l₁ ++ x :: l₂) ∧
      Memory.Wrote (fun a => ∃ y ∈ head :: (l₁ ++ x :: l₂), a = y ∨ a = y + 8) m
        (setPrev (setNext (setNext (setPrev m x (l₁.getLastD head)) x (l₂.headD head))
          (l₁.getLastD head) x) (l₂.headD head) x) := by
  have hpm := Ring.getLastD_mem_append head l₁ l₂
  have hcm := Ring.headD_mem_append head l₁ l₂
  have hxx : NoOverlap x x := .inl rfl
  refine ⟨⟨h.ring.insert (fun hm => (hx x hm).1 rfl) (fun y hy => ?_) (fun y hy => ?_) ?_ ?_,
    fun a ha b hb => ?_, fun a ha => ?_⟩, ?_⟩
  · rw [next_setPrev _ _ (h.apart _ hcm _ hy), next_setNext _ _ (h.apart _ hpm _ hy) hlt]
    split
    · rfl
    · rw [next_setNext _ _ (hx y hy).2 (h.lt _ hcm), if_neg (Ne.symm (hx y hy).1),
        next_setPrev _ _ (hx y hy).2]
  · rw [prev_setPrev _ _ (h.apart _ hcm _ hy) hlt]
    split
    · rfl
    · rw [prev_setNext _ _ (h.apart _ hpm _ hy), prev_setNext _ _ (hx y hy).2,
        prev_setPrev _ _ (hx y hy).2 (h.lt _ hpm), if_neg (Ne.symm (hx y hy).1)]
  · rw [next_setPrev _ _ (hx _ hcm).2.symm, next_setNext _ _ (hx _ hpm).2.symm hlt,
      if_neg (hx _ hpm).1, next_setNext _ _ hxx (h.lt _ hcm), if_pos rfl]
  · rw [prev_setPrev _ _ (hx _ hcm).2.symm hlt, if_neg (hx _ hcm).1,
      prev_setNext _ _ (hx _ hpm).2.symm, prev_setNext _ _ hxx,
      prev_setPrev _ _ hxx (h.lt _ hpm), if_pos rfl]
  · have split : ∀ a ∈ head :: (l₁ ++ x :: l₂), a = x ∨ a ∈ head :: (l₁ ++ l₂) := by
      intro a ha
      simp only [List.mem_cons, List.mem_append] at ha ⊢
      tauto
    rcases split a ha with rfl | ha'
    · rcases split b hb with rfl | hb'
      · exact hxx
      · exact (hx b hb').2
    · rcases split b hb with rfl | hb'
      · exact (hx a ha').2.symm
      · exact h.apart a ha' b hb'
  · have : a = x ∨ a ∈ head :: (l₁ ++ l₂) := by
      simp only [List.mem_cons, List.mem_append] at ha ⊢
      tauto
    rcases this with rfl | ha'
    · exact hlt
    · exact h.lt a ha'
  · refine ((((Memory.Wrote.refl _ m).store _ ?_).store _ ?_).store _ ?_).store _ ?_
    · exact ⟨x, self_mem_middle, .inr rfl⟩
    · exact ⟨x, self_mem_middle, .inl rfl⟩
    · exact ⟨_, mem_middle hpm, .inl rfl⟩
    · exact ⟨_, mem_middle hcm, .inr rfl⟩

end ListNode

end Zeronix
