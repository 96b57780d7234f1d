import Mathlib.Data.List.Rotate
import Mathlib.Data.Nat.ModEq
import Mathlib.Tactic.Common

/-!
# Ring buffers

An array whose first slot follows its last one.  `window xs head count` is what `count` slots
from `head` on hold; a write behind the window appends to it (`window_set`) and a move of the
head takes its first element off (`window_cons`).  `IsQueue xs head tail q` says that the array
with these two indices is the queue `q`.
-/

namespace RingBuffer

variable {α : Type*} {xs : List α} {head tail count n : Nat}

def window (xs : List α) (head count : Nat) : List α := (xs.rotate head).take count

@[simp] theorem window_zero : window xs head 0 = [] := List.take_zero

theorem window_mod : window xs (head % xs.length) count = window xs head count := by
  rw [window, List.rotate_mod, window]

theorem length_window (h : count ≤ xs.length) : (window xs head count).length = count := by
  rw [window, List.length_take, List.length_rotate, Nat.min_eq_left h]

theorem getElem?_window {i : Nat} (hi : i < count) (h : count ≤ xs.length) :
    (window xs head count)[i]? = xs[(i + head) % xs.length]? := by
  rw [window, List.getElem?_take_of_lt hi, List.getElem?_rotate (by omega)]

/-- Slots at different distances from the head are different. -/
theorem slot_ne (head : Nat) {i j : Nat} (hij : i < j) (hj : j < n) :
    (i + head) % n ≠ (j + head) % n := by
  intro h
  have hmod : Nat.ModEq n i j := Nat.ModEq.add_right_cancel' head h
  rw [Nat.ModEq, Nat.mod_eq_of_lt (by omega), Nat.mod_eq_of_lt hj] at hmod
  omega

/-- **A write behind the window** makes it longer. -/
theorem window_set {a : α} (h : count < xs.length) :
    window (xs.set ((head + count) % xs.length) a) head (count + 1) =
      window xs head count ++ [a] := by
  have hlen : (xs.set ((head + count) % xs.length) a).length = xs.length := List.length_set
  have hslot : (head + count) % xs.length < xs.length := Nat.mod_lt _ (by omega)
  refine List.ext_getElem? fun i => ?_
  rcases Nat.lt_trichotomy i count with hi | rfl | hi
  · have hne := slot_ne head hi h
    rw [getElem?_window (by omega) (by omega), hlen, Nat.add_comm head count,
      List.getElem?_set_ne hne.symm, List.getElem?_append_left (by rwa [length_window h.le]),
      getElem?_window hi h.le]
  · rw [getElem?_window (by omega) (by omega), hlen, Nat.add_comm head i] at *
    rw [List.getElem?_set_self hslot,
      List.getElem?_append_right (by rw [length_window h.le]), length_window h.le]
    simp
  · rw [List.getElem?_eq_none, List.getElem?_eq_none]
    · rw [List.length_append, length_window h.le, List.length_singleton]
      omega
    · rw [length_window (by omega)]
      omega

/-- **A move of the head** takes the first element off. -/
theorem window_cons {a : α} (h : count < xs.length) (ha : xs[head % xs.length]? = some a) :
    window xs head (count + 1) = a :: window xs (head + 1) count := by
  refine List.ext_getElem? fun i => ?_
  cases i with
  | zero => rw [getElem?_window (by omega) (by omega), Nat.zero_add, ha, List.getElem?_cons_zero]
  | succ i =>
    rw [List.getElem?_cons_succ]
    by_cases hi : i < count
    · rw [getElem?_window (by omega) (by omega), getElem?_window hi h.le, Nat.add_right_comm,
        Nat.add_assoc]
    · rw [List.getElem?_eq_none, List.getElem?_eq_none]
      · rw [length_window h.le]
        omega
      · rw [length_window (by omega)]
        omega

/-! ### Queues -/

/-- The slots from `head` up to `tail` hold `q`.  One slot stays free: with all of them in use the
tail would be back at the head, as it is when the queue is empty. -/
structure IsQueue (xs : List α) (head tail : Nat) (q : List α) : Prop where
  head_lt : head < xs.length
  length_lt : q.length < xs.length
  tail_eq : tail = (head + q.length) % xs.length
  window_eq : window xs head q.length = q

namespace IsQueue

variable {q : List α}

theorem nil (h : 0 < xs.length) : IsQueue xs 0 0 [] :=
  ⟨h, h, (Nat.zero_mod _).symm, window_zero⟩

theorem tail_lt (h : IsQueue xs head tail q) : tail < xs.length := by
  rw [h.tail_eq]
  exact Nat.mod_lt _ (Nat.zero_lt_of_lt h.head_lt)

theorem empty_iff (h : IsQueue xs head tail q) : head = tail ↔ q = [] := by
  have hlt := h.head_lt
  constructor
  · intro heq
    by_contra hq
    have hpos := List.length_pos_iff.mpr hq
    refine slot_ne head hpos h.length_lt ?_
    rw [Nat.zero_add, Nat.mod_eq_of_lt hlt, Nat.add_comm, ← h.tail_eq, heq]
  · rintro rfl
    rw [h.tail_eq, List.length_nil, Nat.add_zero, Nat.mod_eq_of_lt hlt]

theorem next_tail (h : IsQueue xs head tail q) :
    (tail + 1) % xs.length = (head + (q.length + 1)) % xs.length := by
  rw [h.tail_eq, Nat.mod_add_mod, Nat.add_assoc]

theorem full_iff (h : IsQueue xs head tail q) :
    (tail + 1) % xs.length = head ↔ q.length + 1 = xs.length := by
  have hlt := h.head_lt
  rw [h.next_tail]
  constructor
  · intro heq
    by_contra hne
    have hlen := h.length_lt
    refine slot_ne head (Nat.succ_pos q.length) (show q.length + 1 < xs.length by omega) ?_
    rw [Nat.zero_add, Nat.mod_eq_of_lt hlt, Nat.add_comm, heq]
  · intro hfull
    rw [hfull, Nat.add_mod_right, Nat.mod_eq_of_lt hlt]

/-- A queue that is not full takes another element. -/
theorem append (h : IsQueue xs head tail q) (hfree : q.length + 1 < xs.length) (a : α) :
    IsQueue (xs.set tail a) head ((tail + 1) % xs.length) (q ++ [a]) := by
  have hlen : (xs.set tail a).length = xs.length := List.length_set
  refine ⟨by rw [hlen]; exact h.head_lt, ?_, ?_, ?_⟩
  · rw [hlen, List.length_append, List.length_singleton]
    exact hfree
  · rw [hlen, h.next_tail, List.length_append, List.length_singleton]
  · rw [List.length_append, List.length_singleton, h.tail_eq, window_set h.length_lt, h.window_eq]

theorem front (h : IsQueue xs head tail q) (hq : q ≠ []) : xs[head]? = q.head? := by
  have hpos := List.length_pos_iff.mpr hq
  have hwin : (window xs head q.length)[0]? = xs[(0 + head) % xs.length]? :=
    getElem?_window hpos h.length_lt.le
  rw [h.window_eq, Nat.zero_add, Nat.mod_eq_of_lt h.head_lt] at hwin
  rw [← hwin, List.head?_eq_getElem?]

/-- A queue with an element gives up its first one. -/
theorem drop {a : α} (h : IsQueue xs head tail (a :: q)) :
    IsQueue xs ((head + 1) % xs.length) tail q := by
  have hlen : q.length + 1 < xs.length := h.length_lt
  have hslot : xs[head % xs.length]? = some a := by
    rw [Nat.mod_eq_of_lt h.head_lt, h.front (List.cons_ne_nil a q), List.head?_cons]
  refine ⟨Nat.mod_lt _ (by omega), by omega, ?_, ?_⟩
  · rw [h.tail_eq, Nat.mod_add_mod, List.length_cons, Nat.add_assoc, Nat.add_comm 1]
  · have hwin := h.window_eq
    rw [List.length_cons, window_cons (by omega) hslot] at hwin
    rw [window_mod]
    exact List.tail_eq_of_cons_eq hwin

end IsQueue

end RingBuffer
