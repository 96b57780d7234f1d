import Zeronix.IntrusiveList
import Zeronix.Lib.RingFamily

/-!
# Sequences as intrusive lists

The operations of `src/list.rs` on a memory with any number of lists.  `nodes` are the addresses of
all list nodes, in lists or not, and `Lists m nodes heads xs` says that the list at each head `h`
is the sequence `xs h`.

What `_list_insert` and `list_remove` leave in the links is said once for all nodes
(`next_listInsert`, `next_listRemove` and so on), whichever of the nodes they write to are the
same; with that the edits are those of `Ring.Rings`.
-/

namespace Zeronix

namespace ListNode

open Ring

/-! ### The operations -/

/-- `_list_insert`. -/
def listInsert (m : Memory) (new prev next : Nat) : Memory :=
  setNext (setPrev (setPrev (setNext m prev new) next new) new prev) new next

def listAdd (m : Memory) (new head : Nat) : Memory := listInsert m new head (next m head)

def listAppend (m : Memory) (new head : Nat) : Memory := listInsert m new (prev m head) head

def listMove (m : Memory) (entry head : Nat) : Memory := listAdd (listRemove m entry) entry head

def listMoveTail (m : Memory) (entry head : Nat) : Memory :=
  listAppend (listRemove m entry) entry head

/-! ### Links -/

/-- The nodes are pairwise apart, and none is null. -/
structure Nodes (nodes : Set Nat) : Prop where
  apart : ∀ a ∈ nodes, ∀ b ∈ nodes, NoOverlap a b
  pos : ∀ a ∈ nodes, 0 < a
  lt : ∀ a ∈ nodes, a < 2 ^ 64

section Links

variable {nodes : Set Nat} {m : Memory} {x p n y : Nat}

theorem next_listInsert (hn : Nodes nodes) (hx : x ∈ nodes) (hp : p ∈ nodes) (hn' : n ∈ nodes)
    (hy : y ∈ nodes) :
    next (listInsert m x p n) y = if y = x then n else if y = p then x else next m y := by
  rw [listInsert, next_setNext _ _ (hn.apart x hx y hy) (hn.lt n hn'),
    next_setPrev _ _ (hn.apart x hx y hy), next_setPrev _ _ (hn.apart n hn' y hy),
    next_setNext _ _ (hn.apart p hp y hy) (hn.lt x hx)]

theorem prev_listInsert (hn : Nodes nodes) (hx : x ∈ nodes) (hp : p ∈ nodes) (hn' : n ∈ nodes)
    (hy : y ∈ nodes) :
    prev (listInsert m x p n) y = if y = x then p else if y = n then x else prev m y := by
  rw [listInsert, prev_setNext _ _ (hn.apart x hx y hy),
    prev_setPrev _ _ (hn.apart x hx y hy) (hn.lt p hp),
    prev_setPrev _ _ (hn.apart n hn' y hy) (hn.lt x hx), prev_setNext _ _ (hn.apart p hp y hy)]

theorem next_listRemove (hn : Nodes nodes) (hx : x ∈ nodes) (hp : prev m x ∈ nodes)
    (hn' : next m x ∈ nodes) (hy : y ∈ nodes) :
    next (listRemove m x) y = if y = x then x else if y = prev m x then next m x else next m y := by
  rw [listRemove, initAt, joinNodes, next_setPrev _ _ (hn.apart x hx y hy),
    next_setNext _ _ (hn.apart x hx y hy) (hn.lt x hx), next_setPrev _ _ (hn.apart _ hn' y hy),
    next_setNext _ _ (hn.apart _ hp y hy) (hn.lt _ hn')]

theorem prev_listRemove (hn : Nodes nodes) (hx : x ∈ nodes) (hp : prev m x ∈ nodes)
    (hn' : next m x ∈ nodes) (hy : y ∈ nodes) :
    prev (listRemove m x) y = if y = x then x else if y = next m x then prev m x else prev m y := by
  rw [listRemove, initAt, joinNodes, prev_setPrev _ _ (hn.apart x hx y hy) (hn.lt x hx),
    prev_setNext _ _ (hn.apart x hx y hy), prev_setPrev _ _ (hn.apart _ hn' y hy) (hn.lt _ hp),
    prev_setNext _ _ (hn.apart _ hp y hy)]

/-- **A node that is linked to itself** can be removed again, which changes nothing. -/
theorem listRemove_self (hnext : next m x = x) (hprev : prev m x = x) :
    (listRemove m x).bytes = m.bytes := by
  have h₁ : (setNext m x x).bytes = m.bytes := Memory.bytes_store_of_load hnext
  have h₂ : (joinNodes m x x).bytes = m.bytes :=
    (Memory.bytes_store_of_load ((Memory.load_of_bytes h₁ _).trans hprev)).trans h₁
  have h₃ : (setNext (joinNodes m x x) x x).bytes = m.bytes :=
    (Memory.bytes_store_of_load ((Memory.load_of_bytes h₂ _).trans hnext)).trans h₂
  rw [listRemove, hnext, hprev]
  exact (Memory.bytes_store_of_load ((Memory.load_of_bytes h₃ _).trans hprev)).trans h₃

end Links

/-! ### Lists in a memory of nodes -/

/-- The list at each head `h` is the sequence `xs h`, no node is in two of them, and all nodes are
among `nodes`. -/
structure Lists (m : Memory) (nodes heads : Set Nat) (xs : Nat → List Nat) : Prop where
  rings : Rings (next m) (prev m) heads xs
  mem : ∀ a, OnRing heads xs a → a ∈ nodes

section Lists

variable {nodes heads : Set Nat} {xs xs' : Nat → List Nat} {m : Memory} {head x : Nat}
variable {l₁ l₂ : List Nat}

theorem Lists.congr (h : Lists m nodes heads xs) (hxs : ∀ h ∈ heads, xs' h = xs h) :
    Lists m nodes heads xs' := by
  refine ⟨h.rings.congr hxs, ?_⟩
  rintro a ⟨h', hh', ha⟩
  rw [hxs h' hh'] at ha
  exact h.mem a ⟨h', hh', ha⟩

theorem Lists.of_links {m' : Memory} (h : Lists m nodes heads xs)
    (hnext : ∀ a ∈ nodes, next m' a = next m a) (hprev : ∀ a ∈ nodes, prev m' a = prev m a) :
    Lists m' nodes heads xs :=
  ⟨h.rings.of_links (fun a ha => hnext a (h.mem a ha)) fun a ha => hprev a (h.mem a ha), h.mem⟩

theorem lists_none (m : Memory) (nodes : Set Nat) (xs : Nat → List Nat) : Lists m nodes ∅ xs :=
  ⟨⟨fun _ hh => hh.elim, fun _ hh => hh.elim⟩, fun _ ⟨_, hh, _⟩ => hh.elim⟩

/-- **`init_at`** makes a node the head of an empty list. -/
theorem Lists.init (hn : Nodes nodes) (h : Lists m nodes heads xs) (hx : x ∈ nodes)
    (hfree : ¬ OnRing heads xs x) :
    Lists (initAt m x) nodes (insert x heads) (Function.update xs x []) := by
  have hapart := fun y hy => hn.apart x hx y hy
  have hlinks : ∀ y ∈ nodes, next (initAt m x) y = (if y = x then x else next m y) ∧
      prev (initAt m x) y = if y = x then x else prev m y := by
    intro y hy
    rw [initAt, next_setPrev _ _ (hapart y hy), next_setNext _ _ (hapart y hy) (hn.lt x hx),
      prev_setPrev _ _ (hapart y hy) (hn.lt x hx), prev_setNext _ _ (hapart y hy)]
    exact ⟨rfl, rfl⟩
  have hne : ∀ y, OnRing heads xs y → y ≠ x := fun y hy heq => hfree (heq ▸ hy)
  refine ⟨h.rings.newHead hfree (fun y hy => ?_) (fun y hy => ?_) ?_ ?_, ?_⟩
  · rw [(hlinks y (h.mem y hy)).1, if_neg (hne y hy)]
  · rw [(hlinks y (h.mem y hy)).2, if_neg (hne y hy)]
  · rw [(hlinks x hx).1, if_pos rfl]
  · rw [(hlinks x hx).2, if_pos rfl]
  · rintro a ⟨h', rfl | hh', ha⟩
    · rw [Function.update_self] at ha
      rw [List.mem_singleton.mp ha]
      exact hx
    · rw [Function.update_of_ne (hne h' ⟨h', hh', List.mem_cons_self⟩)] at ha
      exact h.mem a ⟨h', hh', ha⟩

theorem Lists.of_rings {m' : Memory} {l : List Nat} (h : Lists m nodes heads xs)
    (hr : Rings (next m') (prev m') heads (Function.update xs head l)) (hl : ∀ a ∈ l, a ∈ nodes) :
    Lists m' nodes heads (Function.update xs head l) := by
  refine ⟨hr, ?_⟩
  rintro a ⟨h', hh', ha⟩
  by_cases hne : h' = head
  · subst hne
    rw [Function.update_self] at ha
    rcases List.mem_cons.mp ha with rfl | ha
    · exact h.mem a ⟨a, hh', List.mem_cons_self⟩
    · exact hl a ha
  · rw [Function.update_of_ne hne] at ha
    exact h.mem a ⟨h', hh', ha⟩

theorem Lists.neighbours (h : Lists m nodes heads xs) (hh : head ∈ heads)
    (hxs : xs head = l₁ ++ l₂) : l₁.getLastD head ∈ nodes ∧ l₂.headD head ∈ nodes := by
  refine ⟨h.mem _ ⟨head, hh, ?_⟩, h.mem _ ⟨head, hh, ?_⟩⟩
  · rw [hxs]
    exact getLastD_mem_append head l₁ l₂
  · rw [hxs]
    exact headD_mem_append head l₁ l₂

/-- **`_list_insert` between two neighbours.** -/
theorem Lists.insert (hn : Nodes nodes) (h : Lists m nodes heads xs) (hh : head ∈ heads)
    (hx : x ∈ nodes) (hfree : ¬ OnRing heads xs x) (hxs : xs head = l₁ ++ l₂) :
    Lists (listInsert m x (l₁.getLastD head) (l₂.headD head)) nodes heads
      (Function.update xs head (l₁ ++ x :: l₂)) := by
  obtain ⟨hp, hnext⟩ := h.neighbours hh hxs
  have hne : ∀ y, OnRing heads xs y → y ≠ x := fun y hy heq => hfree (heq ▸ hy)
  refine h.of_rings (h.rings.insert hh hxs hfree (fun y hy => ?_) (fun y hy => ?_) ?_ ?_) ?_
  · rw [next_listInsert hn hx hp hnext (h.mem y hy), if_neg (hne y hy)]
  · rw [prev_listInsert hn hx hp hnext (h.mem y hy), if_neg (hne y hy)]
  · rw [next_listInsert hn hx hp hnext hx, if_pos rfl]
  · rw [prev_listInsert hn hx hp hnext hx, if_pos rfl]
  · intro a ha
    rcases List.mem_append.mp ha with ha | ha
    · exact h.mem a ⟨head, hh, by rw [hxs]; simp [ha]⟩
    · rcases List.mem_cons.mp ha with rfl | ha
      · exact hx
      · exact h.mem a ⟨head, hh, by rw [hxs]; simp [ha]⟩

theorem Lists.add (hn : Nodes nodes) (h : Lists m nodes heads xs) (hh : head ∈ heads)
    (hx : x ∈ nodes) (hfree : ¬ OnRing heads xs x) :
    Lists (listAdd m x head) nodes heads (Function.update xs head (x :: xs head)) := by
  have hnext := (h.rings.ring head hh).next_head
  rw [listAdd, hnext]
  exact h.insert hn hh hx hfree (List.nil_append _).symm

theorem Lists.append (hn : Nodes nodes) (h : Lists m nodes heads xs) (hh : head ∈ heads)
    (hx : x ∈ nodes) (hfree : ¬ OnRing heads xs x) :
    Lists (listAppend m x head) nodes heads (Function.update xs head (xs head ++ [x])) := by
  have hprev := (h.rings.ring head hh).prev_head
  rw [listAppend, hprev]
  exact h.insert hn hh hx hfree (List.append_nil _).symm

/-- The sequences with a member of one taken out. -/
def without (xs : Nat → List Nat) (src x : Nat) : Nat → List Nat :=
  Function.update xs src ((xs src).erase x)

theorem Lists.erase_eq (h : Lists m nodes heads xs) (hh : head ∈ heads)
    (hxs : xs head = l₁ ++ x :: l₂) : (xs head).erase x = l₁ ++ l₂ := by
  have hnodup := (List.nodup_cons.mp (h.rings.ring head hh).nodup).2
  have hx : x ∉ l₁ := by
    rw [hxs] at hnodup
    exact fun hmem => (List.nodup_append.mp hnodup).2.2 x hmem x List.mem_cons_self rfl
  rw [hxs, List.erase_append_right _ hx, List.erase_cons_head]

theorem Lists.links (h : Lists m nodes heads xs) (hh : head ∈ heads)
    (hxs : xs head = l₁ ++ x :: l₂) : prev m x = l₁.getLastD head ∧ next m x = l₂.headD head := by
  have hring := h.rings.ring head hh
  rw [hxs] at hring
  exact hring.links

/-- **`list_remove` of a member.** -/
theorem Lists.remove (hn : Nodes nodes) (h : Lists m nodes heads xs) (hh : head ∈ heads)
    (hx : x ∈ xs head) : Lists (listRemove m x) nodes heads (without xs head x) ∧
      next (listRemove m x) x = x ∧ prev (listRemove m x) x = x := by
  obtain ⟨l₁, l₂, hxs⟩ := List.append_of_mem hx
  obtain ⟨hprev, hnext⟩ := h.links hh hxs
  have hpm : prev m x ∈ nodes := by
    rw [hprev]
    exact (h.neighbours hh hxs).1
  have hnm : next m x ∈ nodes := by
    rw [hnext]
    exact (h.neighbours hh (show xs head = (l₁ ++ [x]) ++ l₂ by simpa using hxs)).2
  have hxm : x ∈ nodes := h.mem x ⟨head, hh, List.mem_cons_of_mem head hx⟩
  have hrings : Rings (next (listRemove m x)) (prev (listRemove m x)) heads
      (Function.update xs head (l₁ ++ l₂)) := by
    apply h.rings.remove hh hxs
    · intro y hy hy'
      rw [next_listRemove hn hxm hpm hnm (h.mem y hy'), if_neg hy, hprev, hnext]
    · intro y hy hy'
      rw [prev_listRemove hn hxm hpm hnm (h.mem y hy'), if_neg hy, hprev, hnext]
  have hmem : ∀ a ∈ l₁ ++ l₂, a ∈ nodes := by
    intro a ha
    refine h.mem a ⟨head, hh, List.mem_cons_of_mem head ?_⟩
    rw [hxs]
    rcases List.mem_append.mp ha with ha | ha
    · exact List.mem_append_left _ ha
    · exact List.mem_append_right l₁ (List.mem_cons_of_mem x ha)
  rw [without, h.erase_eq hh hxs]
  refine ⟨h.of_rings hrings hmem, ?_, ?_⟩
  · rw [next_listRemove hn hxm hpm hnm hxm, if_pos rfl]
  · rw [prev_listRemove hn hxm hpm hnm hxm, if_pos rfl]

theorem Lists.not_onRing_without (h : Lists m nodes heads xs) (hh : head ∈ heads)
    (hx : x ∈ xs head) : ¬ OnRing heads (without xs head x) x := by
  have hmem : x ∈ head :: xs head := List.mem_cons_of_mem head hx
  obtain ⟨hhead, hnodup⟩ := List.nodup_cons.mp (h.rings.ring head hh).nodup
  rintro ⟨h', hh', hmem'⟩
  by_cases hne : h' = head
  · subst hne
    rw [without, Function.update_self] at hmem'
    rcases List.mem_cons.mp hmem' with rfl | herase
    · exact hhead hx
    · exact hnodup.not_mem_erase herase
  · rw [without, Function.update_of_ne hne] at hmem'
    exact h.rings.notMem hh hh' hne hmem hmem'

variable {src : Nat}

theorem Lists.move (hn : Nodes nodes) (h : Lists m nodes heads xs) (hsrc : src ∈ heads)
    (hx : x ∈ xs src) (hh : head ∈ heads) :
    Lists (listMove m x head) nodes heads
      (Function.update (without xs src x) head (x :: without xs src x head)) :=
  (h.remove hn hsrc hx).1.add hn hh (h.mem x ⟨src, hsrc, List.mem_cons_of_mem src hx⟩)
    (h.not_onRing_without hsrc hx)

theorem Lists.moveTail (hn : Nodes nodes) (h : Lists m nodes heads xs) (hsrc : src ∈ heads)
    (hx : x ∈ xs src) (hh : head ∈ heads) :
    Lists (listMoveTail m x head) nodes heads
      (Function.update (without xs src x) head (without xs src x head ++ [x])) :=
  (h.remove hn hsrc hx).1.append hn hh (h.mem x ⟨src, hsrc, List.mem_cons_of_mem src hx⟩)
    (h.not_onRing_without hsrc hx)

/-- **`list_empty`** on a list. -/
theorem Lists.empty_iff (hn : Nodes nodes) (h : Lists m nodes heads xs) (hh : head ∈ heads) :
    listEmpty m head = true ↔ xs head = [] := by
  have hring := h.rings.ring head hh
  have hhead := hn.pos head (h.mem head ⟨head, hh, List.mem_cons_self⟩)
  have hprev := hn.pos _ (h.neighbours hh (List.append_nil _).symm).1
  have hnext := hn.pos _ (h.neighbours hh (List.nil_append _).symm).2
  rw [listEmpty, hring.next_head, hring.prev_head]
  cases hxs : xs head with
  | nil => simp
  | cons y l =>
    have hy : y ≠ head := by
      rintro rfl
      exact (List.nodup_cons.mp hring.nodup).1 (by rw [hxs]; simp)
    rw [hxs, List.getLastD_eq_getLast?] at hprev
    rw [hxs, List.headD_cons] at hnext
    simp [hhead.ne', hprev.ne', hnext.ne', hy]

/-- **The lists are sequences**: each operation changes the sequence it is about, keeps the others,
and leaves well-formed lists. -/
theorem list_sequences (hn : Nodes nodes) (h : Lists m nodes heads xs) :
    (∀ head ∈ heads, ∀ new ∈ nodes, ¬ OnRing heads xs new →
      Lists (listAdd m new head) nodes heads (Function.update xs head (new :: xs head)) ∧
      Lists (listAppend m new head) nodes heads (Function.update xs head (xs head ++ [new]))) ∧
    (∀ src ∈ heads, ∀ n ∈ xs src,
      Lists (listRemove m n) nodes heads (without xs src n) ∧
      next (listRemove m n) n = n ∧ prev (listRemove m n) n = n ∧
      (listRemove (listRemove m n) n).bytes = (listRemove m n).bytes) ∧
    (∀ src ∈ heads, ∀ n ∈ xs src, ∀ head ∈ heads,
      Lists (listMove m n head) nodes heads
        (Function.update (without xs src n) head (n :: without xs src n head)) ∧
      Lists (listMoveTail m n head) nodes heads
        (Function.update (without xs src n) head (without xs src n head ++ [n]))) ∧
    ∀ head ∈ heads, (listEmpty m head = true ↔ xs head = []) := by
  refine ⟨fun head hh new hnew hfree => ⟨h.add hn hh hnew hfree, h.append hn hh hnew hfree⟩,
    fun src hsrc n hmem => ?_,
    fun src hsrc n hmem head hh => ⟨h.move hn hsrc hmem hh, h.moveTail hn hsrc hmem hh⟩,
    fun head hh => h.empty_iff hn hh⟩
  obtain ⟨hlists, hnext, hprev⟩ := h.remove hn hsrc hmem
  exact ⟨hlists, hnext, hprev, listRemove_self hnext hprev⟩

/-! ### Two lists -/

/-- Two heads and two other nodes. -/
def fourNodes : Set Nat := {0x1000, 0x1010, 0x1020, 0x1030}

theorem nodes_fourNodes : Nodes fourNodes := by
  constructor <;> simp [fourNodes, NoOverlap]

/-- A cleared memory with the two heads initialised. -/
def twoHeads : Memory := initAt (initAt { bytes := fun _ => 0, stores := [] } 0x1000) 0x1010

theorem lists_twoHeads : Lists twoHeads fourNodes {0x1010, 0x1000} fun _ => [] := by
  have hfirst := (lists_none { bytes := fun _ => 0, stores := [] } fourNodes fun _ => []).init
    nodes_fourNodes (x := 0x1000) (by simp [fourNodes]) (by simp [OnRing])
  have hboth := hfirst.init nodes_fourNodes (x := 0x1010) (by simp [fourNodes]) (by simp [OnRing])
  rw [insert_empty_eq, Function.update_eq_self_iff.mpr rfl] at hboth
  rw [Function.update_eq_self_iff.mpr rfl] at hboth
  exact hboth

/-- A first member of one of the two lists. -/
theorem list_sequences_first : Lists (listAdd twoHeads 0x1020 0x1000) fourNodes {0x1010, 0x1000}
    (Function.update (fun _ => []) 0x1000 [0x1020]) :=
  ((list_sequences nodes_fourNodes lists_twoHeads).1 0x1000 (by simp) 0x1020 (by simp [fourNodes])
    (by simp [OnRing])).1

end Lists

end ListNode

end Zeronix
