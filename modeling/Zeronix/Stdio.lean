import Zeronix.Lib.RingBuffer

/-!
# Input from the serial port

`SerialInput` of `src/stdio.rs`: the interrupt handler of the serial port puts bytes in, the shell
takes them out.  The buffer has one slot more than it ever holds bytes, and a byte that comes when
it is full takes the place of the oldest one.

`SerialQueue` is what the buffer is for, a queue with a bound.  `none` is a panic.
-/

namespace Zeronix

open RingBuffer

def SERIAL_INPUT_CAPACITY : Nat := 256

structure SerialInput where
  buf : Vector UInt8 SERIAL_INPUT_CAPACITY
  head : Nat
  tail : Nat

/-- What the handler and the shell do. -/
inductive SerialCall where
  | push (byte : UInt8)
  | pop
  deriving DecidableEq, Repr

namespace SerialInput

def new : SerialInput where
  buf := Vector.replicate SERIAL_INPUT_CAPACITY 0
  head := 0
  tail := 0

/-- The additions do not overflow where the indices are in the buffer. -/
def push (s : SerialInput) (byte : UInt8) : Option SerialInput :=
  let next := (s.tail + 1) % SERIAL_INPUT_CAPACITY
  let head := if next = s.head then (s.head + 1) % SERIAL_INPUT_CAPACITY else s.head
  if h : s.tail < SERIAL_INPUT_CAPACITY then
    some { buf := s.buf.set s.tail byte h, head := head, tail := next }
  else none

def pop (s : SerialInput) : Option (Option UInt8 × SerialInput) :=
  if s.head = s.tail then some (none, s)
  else
    match s.buf[s.head]? with
    | none => none
    | some byte => some (some byte, { s with head := (s.head + 1) % SERIAL_INPUT_CAPACITY })

/-- `rx` are the bytes that the port has ready. -/
def handleSerialRxInterrupt (rx : List UInt8) (s : SerialInput) : Option SerialInput :=
  rx.foldlM push s

/-- The answers of `pop` along a run. -/
def run : List SerialCall → SerialInput → Option (List (Option UInt8) × SerialInput)
  | [], s => some ([], s)
  | .push byte :: calls, s => do run calls (← s.push byte)
  | .pop :: calls, s => do
    let (answer, s) ← s.pop
    let (answers, s) ← run calls s
    some (answer :: answers, s)

end SerialInput

/-! ### The bounded queue -/

namespace SerialQueue

/-- The oldest byte goes when there would be more than the bound allows. -/
def push (q : List UInt8) (byte : UInt8) : List UInt8 :=
  if SERIAL_INPUT_CAPACITY - 1 < (q ++ [byte]).length then (q ++ [byte]).tail else q ++ [byte]

def pop : List UInt8 → Option UInt8 × List UInt8
  | [] => (none, [])
  | byte :: q => (some byte, q)

def run : List SerialCall → List UInt8 → List (Option UInt8) × List UInt8
  | [], q => ([], q)
  | .push byte :: calls, q => run calls (push q byte)
  | .pop :: calls, q => ((pop q).1 :: (run calls (pop q).2).1, (run calls (pop q).2).2)

theorem push_append {q : List UInt8} {byte : UInt8} {rx : List UInt8} :
    (push q byte ++ rx).drop ((push q byte ++ rx).length - (SERIAL_INPUT_CAPACITY - 1)) =
      (q ++ byte :: rx).drop ((q ++ byte :: rx).length - (SERIAL_INPUT_CAPACITY - 1)) := by
  rw [push]
  split
  · rename_i hfull
    rw [← List.tail_append_of_ne_nil (by simp), List.append_assoc, List.singleton_append,
      ← List.drop_one, List.drop_drop, List.length_drop]
    refine congrArg (fun n => List.drop n (q ++ byte :: rx)) ?_
    simp only [List.length_append, List.length_cons, List.length_nil] at hfull ⊢
    omega
  · rw [List.append_assoc, List.singleton_append]

end SerialQueue

/-! ### The buffer is the queue -/

namespace SerialInput

variable {s : SerialInput} {q : List UInt8}

/-- The buffer holds the queue `q`. -/
def Holds (s : SerialInput) (q : List UInt8) : Prop := IsQueue s.buf.toList s.head s.tail q

theorem holds_new : new.Holds [] := by
  refine IsQueue.nil ?_
  rw [Vector.length_toList]
  exact Nat.zero_lt_succ 255

theorem Holds.head_lt (h : s.Holds q) : s.head < SERIAL_INPUT_CAPACITY := by
  simpa using IsQueue.head_lt h

theorem Holds.tail_lt (h : s.Holds q) : s.tail < SERIAL_INPUT_CAPACITY := by
  simpa using IsQueue.tail_lt h

theorem Holds.length_lt (h : s.Holds q) : q.length < SERIAL_INPUT_CAPACITY := by
  simpa using IsQueue.length_lt h

/-- **One push.** -/
theorem Holds.push (h : s.Holds q) (byte : UInt8) :
    ∃ s', s.push byte = some s' ∧ s'.Holds (SerialQueue.push q byte) := by
  have hsize : s.buf.toList.length = SERIAL_INPUT_CAPACITY := s.buf.length_toList
  have hlen := h.length_lt
  have hfull := IsQueue.full_iff h
  rw [hsize] at hfull
  rw [SerialInput.push, dif_pos h.tail_lt, SerialQueue.push, List.length_append,
    List.length_singleton]
  refine ⟨_, rfl, ?_⟩
  by_cases hc : q.length + 1 = SERIAL_INPUT_CAPACITY
  · -- The head moves on first, which takes the oldest byte away.
    rw [if_pos (hfull.mpr hc), if_pos (by omega)]
    cases q with
    | nil => simp [SERIAL_INPUT_CAPACITY] at hc
    | cons oldest q =>
      have hrest := (IsQueue.drop h).append (by rw [hsize]; simpa using hlen) byte
      simpa [Holds, Vector.toList_set, hsize] using hrest
  · rw [if_neg (fun heq => hc (hfull.mp heq)), if_neg (by omega)]
    have hmore := IsQueue.append h (by omega) byte
    simpa [Holds, Vector.toList_set, hsize] using hmore

/-- **One pop.** -/
theorem Holds.pop (h : s.Holds q) :
    ∃ s', s.pop = some ((SerialQueue.pop q).1, s') ∧ s'.Holds (SerialQueue.pop q).2 := by
  have hempty := IsQueue.empty_iff h
  cases q with
  | nil => exact ⟨s, by rw [SerialInput.pop, if_pos (hempty.mpr rfl)]; rfl, h⟩
  | cons byte q =>
    have hfront := IsQueue.front h (List.cons_ne_nil byte q)
    have hrest := IsQueue.drop h
    rw [Vector.getElem?_toList, List.head?_cons] at hfront
    rw [Vector.length_toList] at hrest
    refine ⟨{ s with head := (s.head + 1) % SERIAL_INPUT_CAPACITY }, ?_, hrest⟩
    rw [SerialInput.pop, if_neg (fun heq => List.cons_ne_nil byte q (hempty.mp heq)), hfront]
    rfl

/-- **An interrupt leaves the last bytes**, as many as fit. -/
theorem Holds.interrupt (h : s.Holds q) (rx : List UInt8) :
    ∃ s', handleSerialRxInterrupt rx s = some s' ∧
      s'.Holds ((q ++ rx).drop ((q ++ rx).length - (SERIAL_INPUT_CAPACITY - 1))) := by
  induction rx generalizing s q with
  | nil =>
    have hlen := h.length_lt
    refine ⟨s, rfl, ?_⟩
    rw [List.append_nil, Nat.sub_eq_zero_of_le (by omega), List.drop_zero]
    exact h
  | cons byte rx ih =>
    obtain ⟨s₁, hpush, h₁⟩ := h.push byte
    obtain ⟨s', hrx, h'⟩ := ih h₁
    refine ⟨s', by rw [handleSerialRxInterrupt, List.foldlM_cons, hpush]; exact hrx, ?_⟩
    rw [SerialQueue.push_append] at h'
    exact h'

/-- **A run answers as the queue does.** -/
theorem Holds.run (h : s.Holds q) (calls : List SerialCall) :
    ∃ s', run calls s = some ((SerialQueue.run calls q).1, s') ∧
      s'.Holds (SerialQueue.run calls q).2 := by
  induction calls generalizing s q with
  | nil => exact ⟨s, rfl, h⟩
  | cons call calls ih =>
    cases call with
    | push byte =>
      obtain ⟨s₁, hpush, h₁⟩ := h.push byte
      obtain ⟨s', hrun, h'⟩ := ih h₁
      exact ⟨s', by simp [SerialInput.run, hpush, hrun, SerialQueue.run], h'⟩
    | pop =>
      obtain ⟨s₁, hpop, h₁⟩ := h.pop
      obtain ⟨s', hrun, h'⟩ := ih h₁
      exact ⟨s', by simp [SerialInput.run, hpop, hrun, SerialQueue.run], h'⟩

/-- **The serial input is a queue that drops its oldest byte**, and its indices stay in the buffer. -/
theorem run_new (calls : List SerialCall) :
    ∃ s, run calls new = some ((SerialQueue.run calls []).1, s) ∧
      s.Holds (SerialQueue.run calls []).2 ∧
      s.head < SERIAL_INPUT_CAPACITY ∧ s.tail < SERIAL_INPUT_CAPACITY := by
  obtain ⟨s, hrun, h⟩ := holds_new.run calls
  exact ⟨s, hrun, h, h.head_lt, h.tail_lt⟩

end SerialInput

end Zeronix
