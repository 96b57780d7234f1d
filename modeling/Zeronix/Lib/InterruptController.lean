import Mathlib.Data.Fin.Tuple.Basic
import Mathlib.Logic.Function.Basic
import Mathlib.Tactic.Common

/-!
# Two interrupt controllers

The 8259 of the PC: a controller takes requests of eight lines, of which the lowest has the highest
priority, and a second one hangs at line 2 of the first.  A request waits until the CPU accepts it;
then the line is in service until the kernel says that the interrupt has ended, and lines of no
higher priority have to wait.

Only what is programmed counts: a controller accepts nothing before it has its four words.  Reading
the registers of requests, rotating priorities and ending the interrupt of a line that is named are
left out.

With nothing in service, the line of the highest priority that asks is accepted (`accept_iff`), and
none asks when nothing is accepted (`accept_isSome`).
-/

namespace Zeronix

/-- The word that a controller waits for. -/
inductive ChipStage where
  | icw2
  | icw3
  | icw4
  | ready
  deriving DecidableEq, Repr

structure Chip where
  stage : ChipStage
  /-- There is no second controller. -/
  single : Bool
  /-- There will be a fourth word. -/
  fourth : Bool
  base : UInt8
  cascade : UInt8
  mode : UInt8
  mask : UInt8
  request : Fin 8 → Bool
  service : Fin 8 → Bool

namespace Chip

def masked (c : Chip) (n : Fin 8) : Bool := c.mask.toBitVec.getLsbD n

/-- The line that may interrupt. -/
def next (c : Chip) : Option (Fin 8) :=
  Fin.find? fun n => c.request n && !c.masked n && decide (∀ k ≤ n, c.service k = false)

/-- The line that is in service, of those that are the one with the highest priority. -/
def first (c : Chip) : Option (Fin 8) := Fin.find? c.service

def raise (c : Chip) (n : Fin 8) : Chip := { c with request := Function.update c.request n true }

def acknowledge (c : Chip) (n : Fin 8) : Chip :=
  { c with
    request := Function.update c.request n false
    service := Function.update c.service n true }

def endOfInterrupt (c : Chip) : Chip :=
  match c.first with
  | some n => { c with service := Function.update c.service n false }
  | none => c

/-- A write to the first port: the start of the programming, or the end of an interrupt. -/
def command (c : Chip) (v : UInt8) : Chip :=
  if v &&& 0x10 ≠ 0 then { c with
    stage := .icw2
    single := v &&& 0x02 ≠ 0
    fourth := v &&& 0x01 ≠ 0
    mask := 0
    request := fun _ => false
    service := fun _ => false }
  else if v &&& 0xF8 = 0x20 then c.endOfInterrupt
  else c

/-- A write to the second port: a word of the programming, or the mask. -/
def data (c : Chip) (v : UInt8) : Chip :=
  match c.stage with
  | .icw2 => { c with
      base := v &&& 0xF8
      stage := if !c.single then .icw3 else if c.fourth then .icw4 else .ready }
  | .icw3 => { c with
      cascade := v
      stage := if c.fourth then .icw4 else .ready }
  | .icw4 => { c with
      mode := v
      stage := .ready }
  | .ready => { c with mask := v }

/-- Programmed for vectors. -/
def Ready (c : Chip) : Prop := c.stage = .ready ∧ c.mode &&& 1 = 1

instance (c : Chip) : Decidable c.Ready := inferInstanceAs (Decidable (_ ∧ _))

/-- No line is in service. -/
def Idle (c : Chip) : Prop := ∀ n, c.service n = false

/-- The line `n` is in service, and no other one. -/
def Serves (c : Chip) (n : Fin 8) : Prop := ∀ k, c.service k = decide (k = n)

/-- The line asks for an interrupt. -/
def Asks (c : Chip) (n : Fin 8) : Prop := c.request n = true ∧ c.masked n = false

variable {c : Chip} {n : Fin 8}

/-- Of the lines that ask, the one with the highest priority is next. -/
theorem Idle.next_eq_some (h : c.Idle) :
    c.next = some n ↔ c.Asks n ∧ ∀ k < n, ¬ c.Asks k := by
  have hall : ∀ n : Fin 8, decide (∀ k ≤ n, c.service k = false) = true := by
    intro n
    rw [decide_eq_true_iff]
    exact fun k _ => h k
  unfold next Asks
  rw [Fin.find?_eq_some_iff]
  simp only [hall, Bool.and_true, Bool.and_eq_true, Bool.not_eq_true']
  refine and_congr Iff.rfl (forall₂_congr fun k _ => ?_)
  cases c.request k <;> cases c.masked k <;> decide

theorem Idle.next_isSome (h : c.Idle) : c.next.isSome ↔ ∃ n, c.Asks n := by
  have hall : ∀ n : Fin 8, decide (∀ k ≤ n, c.service k = false) = true := by
    intro n
    rw [decide_eq_true_iff]
    exact fun k _ => h k
  unfold next Asks
  rw [Fin.isSome_find?_iff]
  simp only [hall, Bool.and_true, Bool.and_eq_true, Bool.not_eq_true']

theorem Idle.acknowledge (h : c.Idle) : (c.acknowledge n).Serves n := by
  intro k
  unfold Chip.acknowledge
  by_cases hk : k = n
  · subst hk
    simp
  · simp [hk, h k]

theorem Serves.first (h : c.Serves n) : c.first = some n := by
  unfold Chip.first
  rw [Fin.find?_eq_some_iff]
  refine ⟨by rw [h, decide_eq_true_iff], fun k hk => ?_⟩
  rw [h, decide_eq_false_iff_not]
  exact ne_of_lt hk

theorem Serves.endOfInterrupt (h : c.Serves n) : c.endOfInterrupt.Idle := by
  intro k
  rw [Chip.endOfInterrupt, h.first]
  by_cases hk : k = n
  · subst hk
    simp
  · simp [hk, h k]

/-- The end of an interrupt changes what is in service only. -/
theorem endOfInterrupt_eq (c : Chip) : ∃ f, c.endOfInterrupt = { c with service := f } := by
  unfold endOfInterrupt
  cases c.first with
  | none => exact ⟨c.service, rfl⟩
  | some n => exact ⟨_, rfl⟩

/-- What is written does not depend on the requests. -/
theorem command_request (c : Chip) (f : Fin 8 → Bool) (v : UInt8) :
    ∃ g, ({ c with request := f } : Chip).command v = { c.command v with request := g } := by
  unfold command
  by_cases hinit : v &&& 0x10 ≠ 0
  · exact ⟨fun _ => false, by rw [if_pos hinit, if_pos hinit]⟩
  · rw [if_neg hinit, if_neg hinit]
    by_cases heoi : v &&& 0xF8 = 0x20
    · refine ⟨f, ?_⟩
      rw [if_pos heoi, if_pos heoi, endOfInterrupt, endOfInterrupt]
      have hfirst : ({ c with request := f } : Chip).first = c.first := rfl
      rw [hfirst]
      cases c.first <;> rfl
    · exact ⟨f, by rw [if_neg heoi, if_neg heoi]⟩

theorem data_request (c : Chip) (f : Fin 8 → Bool) (v : UInt8) :
    ({ c with request := f } : Chip).data v = { c.data v with request := f } := by
  unfold data
  cases c.stage <;> rfl

end Chip

/-! ### The pair -/

/-- A line of the first controller, or of the second one. -/
inductive IrqLine where
  | master (n : Fin 8)
  | slave (n : Fin 8)
  deriving DecidableEq, Repr

namespace IrqLine

def number : IrqLine → Nat
  | master n => n
  | slave n => 8 + n

/-- Lower comes first. -/
def rank : IrqLine → Nat
  | master n => 8 * n
  | slave n => 8 * 2 + n

end IrqLine

structure Pics where
  master : Chip
  slave : Chip

namespace Pics

/-- A device at a line asks for an interrupt.  There is none at line 2 of the first controller. -/
def raise (p : Pics) : IrqLine → Pics
  | .master n => if n = 2 then p else { p with master := p.master.raise n }
  | .slave n => { p with slave := p.slave.raise n }

/-- The first controller, with what it sees of the second one at line 2. -/
def front (p : Pics) : Chip :=
  { p.master with request := Function.update p.master.request 2 p.slave.next.isSome }

/-- The line has been accepted. -/
def acknowledge (p : Pics) : IrqLine → Pics
  | .master n => { p with master := p.master.acknowledge n }
  | .slave n => { master := p.master.acknowledge 2, slave := p.slave.acknowledge n }

def vector (p : Pics) : IrqLine → UInt8
  | .master n => p.master.base + .ofNat n
  | .slave n => p.slave.base + .ofNat n

/-- Both are programmed, as a first and a second one. -/
def Ready (p : Pics) : Prop :=
  p.master.Ready ∧ p.slave.Ready ∧ p.master.cascade = 4 ∧ p.slave.cascade = 2

instance (p : Pics) : Decidable p.Ready := inferInstanceAs (Decidable (_ ∧ _))

/-- The line that may interrupt. -/
def next (p : Pics) : Option IrqLine :=
  match p.front.next with
  | none => none
  | some n => if n = 2 then p.slave.next.map .slave else some (.master n)

/-- The CPU accepts an interrupt and gets its vector. -/
def accept (p : Pics) : Option (UInt8 × Pics) :=
  if p.Ready then p.next.map fun line => (p.vector line, p.acknowledge line) else none

def PIC1_COMMAND : UInt16 := 0x20
def PIC1_DATA : UInt16 := 0x21
def PIC2_COMMAND : UInt16 := 0xA0
def PIC2_DATA : UInt16 := 0xA1

/-- A write to a port.  Other ports are of other devices. -/
def outb (p : Pics) (port : UInt16) (v : UInt8) : Pics :=
  if port = PIC1_COMMAND then { p with master := p.master.command v }
  else if port = PIC1_DATA then { p with master := p.master.data v }
  else if port = PIC2_COMMAND then { p with slave := p.slave.command v }
  else if port = PIC2_DATA then { p with slave := p.slave.data v }
  else p

/-- The masks can be read back. -/
def inb (p : Pics) (port : UInt16) : UInt8 :=
  if port = PIC1_DATA then p.master.mask else if port = PIC2_DATA then p.slave.mask else 0

/-- Some writes, with devices that ask for interrupts in between. -/
inductive Outs : List (UInt16 × UInt8) → Pics → Pics → Prop
  | done {p : Pics} : Outs [] p p
  | raise {l : List (UInt16 × UInt8)} {p p' : Pics} (line : IrqLine)
      (h : Outs l (p.raise line) p') : Outs l p p'
  | out {l : List (UInt16 × UInt8)} {p p' : Pics} (port : UInt16) (v : UInt8)
      (h : Outs l (p.outb port v) p') : Outs ((port, v) :: l) p p'

/-- No line is in service. -/
def Idle (p : Pics) : Prop := p.master.Idle ∧ p.slave.Idle

/-- The line is in service, and no other one. -/
def Serves (p : Pics) : IrqLine → Prop
  | .master n => p.master.Serves n ∧ p.slave.Idle
  | .slave n => p.master.Serves 2 ∧ p.slave.Serves n

/-- The line asks for an interrupt, and nothing masks it. -/
def Asks (p : Pics) : IrqLine → Prop
  | .master n => n ≠ 2 ∧ p.master.Asks n
  | .slave n => p.master.masked 2 = false ∧ p.slave.Asks n

variable {p p' : Pics} {line : IrqLine} {n : Fin 8} {v : UInt8}

theorem front_asks (h : p.slave.Idle) :
    p.front.Asks n ↔ if n = 2 then ∃ k, p.Asks (.slave k) else p.Asks (.master n) := by
  have hmask : p.front.masked n = p.master.masked n := rfl
  unfold Chip.Asks
  rw [hmask]
  unfold front
  by_cases hn : n = 2
  · subst hn
    simp only [Function.update_self, h.next_isSome, Asks, ↓reduceIte]
    exact ⟨fun hk => hk.1.imp fun k hk' => ⟨hk.2, hk'⟩, fun ⟨k, hm, hk⟩ => ⟨⟨k, hk⟩, hm⟩⟩
  · simp only [Function.update_of_ne hn, Asks, Chip.Asks, ne_eq, hn, not_false_eq_true, true_and,
      ↓reduceIte]

theorem next_eq_master : p.next = some (.master n) ↔ p.front.next = some n ∧ n ≠ 2 := by
  unfold next
  cases hfront : p.front.next with
  | none => simp
  | some k =>
    by_cases hk : k = 2
    · subst hk
      simp only [↓reduceIte, Option.map_eq_some_iff, Option.some.injEq]
      constructor
      · rintro ⟨a, _, h⟩
        exact absurd h (by simp)
      · rintro ⟨rfl, h⟩
        exact absurd rfl h
    · simp only [hk, ↓reduceIte, Option.some.injEq, IrqLine.master.injEq]
      exact ⟨fun h => ⟨h, h ▸ hk⟩, fun h => h.1⟩

theorem next_eq_slave :
    p.next = some (.slave n) ↔ p.front.next = some 2 ∧ p.slave.next = some n := by
  unfold next
  cases hfront : p.front.next with
  | none => simp
  | some k =>
    by_cases hk : k = 2
    · subst hk
      simp
    · simp [hk]

/-- **What may interrupt** when nothing is in service: of the lines that ask, the one with the
highest priority. -/
theorem Idle.next_eq_some (h : p.Idle) :
    p.next = some line ↔ p.Asks line ∧ ∀ line', p.Asks line' → line.rank ≤ line'.rank := by
  have hfront : p.front.Idle := h.1
  have hasks : ∀ k, k ≠ 2 → (p.front.Asks k ↔ p.Asks (.master k)) := fun k hk => by
    rw [front_asks h.2, if_neg hk]
  have htwo : p.front.Asks 2 ↔ ∃ k, p.Asks (.slave k) := by
    rw [front_asks h.2, if_pos rfl]
  cases line with
  | master n =>
    rw [next_eq_master, hfront.next_eq_some]
    constructor
    · rintro ⟨⟨hn, hmin⟩, hne⟩
      refine ⟨(hasks n hne).mp hn, fun line' hline' => ?_⟩
      cases line' with
      | master m =>
        have hle : n ≤ m := not_lt.mp fun hlt => hmin m hlt ((hasks m hline'.1).mpr hline')
        show 8 * n.val ≤ 8 * m.val
        omega
      | slave m =>
        have hle : n ≤ 2 := not_lt.mp fun hlt => hmin 2 hlt (htwo.mpr ⟨m, hline'⟩)
        show 8 * n.val ≤ 8 * 2 + m.val
        omega
    · rintro ⟨hn, hmin⟩
      refine ⟨⟨(hasks n hn.1).mpr hn, fun k hk hask => ?_⟩, hn.1⟩
      by_cases hk2 : k = 2
      · subst hk2
        obtain ⟨m, hm⟩ := htwo.mp hask
        have hle : 8 * n.val ≤ 8 * 2 + m.val := hmin (.slave m) hm
        omega
      · have hle : 8 * n.val ≤ 8 * k.val := hmin (.master k) ((hasks k hk2).mp hask)
        omega
  | slave n =>
    rw [next_eq_slave, hfront.next_eq_some, h.2.next_eq_some]
    constructor
    · rintro ⟨⟨hn, hmin⟩, hslave, hminSlave⟩
      refine ⟨⟨hn.2, hslave⟩, fun line' hline' => ?_⟩
      cases line' with
      | master m =>
        have hle : ¬ m < 2 := fun hlt => hmin m hlt ((hasks m hline'.1).mpr hline')
        have hne : m ≠ 2 := hline'.1
        show 8 * 2 + n.val ≤ 8 * m.val
        omega
      | slave m =>
        have hle : n ≤ m := not_lt.mp fun hlt => hminSlave m hlt hline'.2
        show 8 * 2 + n.val ≤ 8 * 2 + m.val
        omega
    · rintro ⟨hn, hmin⟩
      refine ⟨⟨htwo.mpr ⟨n, hn⟩, fun k hk hask => ?_⟩, hn.2, fun k hk hask => ?_⟩
      · have hle : 8 * 2 + n.val ≤ 8 * k.val := hmin (.master k) ((hasks k (ne_of_lt hk)).mp hask)
        omega
      · have hle : 8 * 2 + n.val ≤ 8 * 2 + k.val := hmin (.slave k) ⟨hn.1, hask⟩
        omega

theorem Idle.next_isSome (h : p.Idle) : p.next.isSome ↔ ∃ line, p.Asks line := by
  constructor
  · intro hsome
    obtain ⟨line, hline⟩ := Option.isSome_iff_exists.mp hsome
    exact ⟨line, (h.next_eq_some.mp hline).1⟩
  · rintro ⟨line, hline⟩
    have hfront : p.front.Idle := h.1
    have hask : ∃ n, p.front.Asks n := by
      cases line with
      | master n => exact ⟨n, by rw [front_asks h.2, if_neg hline.1]; exact hline⟩
      | slave n => exact ⟨2, by rw [front_asks h.2, if_pos rfl]; exact ⟨n, hline⟩⟩
    obtain ⟨n, hn⟩ := Option.isSome_iff_exists.mp (hfront.next_isSome.mpr hask)
    by_cases hn2 : n = 2
    · subst hn2
      obtain ⟨k, hk⟩ := (front_asks h.2).mp (hfront.next_eq_some.mp hn).1
      obtain ⟨m, hm⟩ := Option.isSome_iff_exists.mp (h.2.next_isSome.mpr ⟨k, hk.2⟩)
      rw [next_eq_slave.mpr ⟨hn, hm⟩]
      rfl
    · rw [next_eq_master.mpr ⟨hn, hn2⟩]
      rfl

theorem Idle.acknowledge (h : p.Idle) : (p.acknowledge line).Serves line := by
  cases line with
  | master n => exact ⟨h.1.acknowledge, h.2⟩
  | slave n => exact ⟨h.1.acknowledge, h.2.acknowledge⟩

/-- **What is accepted**, when nothing is in service. -/
theorem Idle.accept_iff (h : p.Idle) (hready : p.Ready) :
    p.accept = some (v, p') ↔ ∃ line, p.Asks line ∧
      (∀ line', p.Asks line' → line.rank ≤ line'.rank) ∧ v = p.vector line ∧
      p' = p.acknowledge line := by
  rw [accept, if_pos hready, Option.map_eq_some_iff]
  refine exists_congr fun line => ?_
  rw [h.next_eq_some, Prod.mk.injEq, and_assoc]
  exact and_congr Iff.rfl (and_congr Iff.rfl (and_congr eq_comm eq_comm))

theorem Idle.accept_isSome (h : p.Idle) (hready : p.Ready) :
    p.accept.isSome ↔ ∃ line, p.Asks line := by
  rw [accept, if_pos hready, Option.isSome_map, h.next_isSome]

/-! ### Devices -/

/-- The same but for the requests. -/
def SameBut (p p' : Pics) : Prop :=
  ∃ f g, p' = { master := { p.master with request := f }, slave := { p.slave with request := g } }

theorem SameBut.refl (p : Pics) : p.SameBut p := ⟨p.master.request, p.slave.request, rfl⟩

theorem sameBut_raise (p : Pics) (line : IrqLine) : p.SameBut (p.raise line) := by
  cases line with
  | master n =>
    unfold raise
    by_cases hn : n = 2
    · exact ⟨p.master.request, p.slave.request, if_pos hn⟩
    · exact ⟨_, p.slave.request, if_neg hn⟩
  | slave n => exact ⟨p.master.request, _, rfl⟩

theorem SameBut.trans {p'' : Pics} (h : p.SameBut p') (h' : p'.SameBut p'') : p.SameBut p'' := by
  obtain ⟨f, g, rfl⟩ := h
  obtain ⟨f', g', rfl⟩ := h'
  exact ⟨f', g', rfl⟩

theorem SameBut.outb (h : p.SameBut p') (port : UInt16) (v : UInt8) :
    (p.outb port v).SameBut (p'.outb port v) := by
  obtain ⟨f, g, rfl⟩ := h
  unfold Pics.outb
  by_cases h₁ : port = PIC1_COMMAND
  · obtain ⟨f', hf'⟩ := p.master.command_request f v
    exact ⟨f', g, by simp only [if_pos h₁, hf']⟩
  · rw [if_neg h₁, if_neg h₁]
    by_cases h₂ : port = PIC1_DATA
    · exact ⟨f, g, by simp only [if_pos h₂, Chip.data_request]⟩
    · rw [if_neg h₂, if_neg h₂]
      by_cases h₃ : port = PIC2_COMMAND
      · obtain ⟨g', hg'⟩ := p.slave.command_request g v
        exact ⟨f, g', by simp only [if_pos h₃, hg']⟩
      · rw [if_neg h₃, if_neg h₃]
        by_cases h₄ : port = PIC2_DATA
        · exact ⟨f, g, by simp only [if_pos h₄, Chip.data_request]⟩
        · exact ⟨f, g, by rw [if_neg h₄, if_neg h₄]⟩

/-- Writes without anything in between. -/
def outs (p : Pics) (l : List (UInt16 × UInt8)) : Pics :=
  l.foldl (fun p w => p.outb w.1 w.2) p

theorem outs_run (p : Pics) (l : List (UInt16 × UInt8)) : Outs l p (p.outs l) := by
  induction l generalizing p with
  | nil => exact .done
  | cons w l ih => exact .out w.1 w.2 (ih _)

theorem SameBut.outs (h : p.SameBut p') (l : List (UInt16 × UInt8)) :
    (p.outs l).SameBut (p'.outs l) := by
  induction l generalizing p p' with
  | nil => exact h
  | cons w l ih => exact ih (h.outb w.1 w.2)

/-- **Devices do not disturb writes.** -/
theorem Outs.sameBut {l : List (UInt16 × UInt8)} (h : Outs l p p') : (p.outs l).SameBut p' := by
  induction h with
  | done => exact SameBut.refl _
  | raise line _ ih => exact ((sameBut_raise _ line).outs _).trans ih
  | out port v _ ih => exact ih

theorem SameBut.idle (h : p.SameBut p') : p'.Idle ↔ p.Idle := by
  obtain ⟨f, g, rfl⟩ := h
  exact Iff.rfl

theorem SameBut.serves (h : p.SameBut p') : p'.Serves line ↔ p.Serves line := by
  obtain ⟨f, g, rfl⟩ := h
  cases line <;> exact Iff.rfl

/-- The same but for requests and what is in service. -/
def SameSetup (p p' : Pics) : Prop :=
  ∃ f g f' g', p' = {
    master := { p.master with request := f, service := f' }
    slave := { p.slave with request := g, service := g' } }

theorem SameBut.setup (h : p.SameBut p') : p.SameSetup p' := by
  obtain ⟨f, g, rfl⟩ := h
  exact ⟨f, g, p.master.service, p.slave.service, rfl⟩

theorem sameSetup_acknowledge (p : Pics) (line : IrqLine) : p.SameSetup (p.acknowledge line) := by
  cases line with
  | master n => exact ⟨_, p.slave.request, _, p.slave.service, rfl⟩
  | slave n => exact ⟨_, _, _, _, rfl⟩

/-- The same but for what is in service. -/
def SameButService (p p' : Pics) : Prop :=
  ∃ f g, p' = { master := { p.master with service := f }, slave := { p.slave with service := g } }

theorem SameButService.setup (h : p.SameButService p') : p.SameSetup p' := by
  obtain ⟨f, g, rfl⟩ := h
  exact ⟨p.master.request, p.slave.request, f, g, rfl⟩

theorem SameButService.refl (p : Pics) : p.SameButService p :=
  ⟨p.master.service, p.slave.service, rfl⟩

/-! ### Requests -/

/-- The line has a request that waits, masked or not. -/
def Requests (p : Pics) : IrqLine → Prop
  | .master n => n ≠ 2 ∧ p.master.request n = true
  | .slave n => p.slave.request n = true

theorem SameButService.requests (h : p.SameButService p') : p'.Requests line ↔ p.Requests line := by
  obtain ⟨f, g, rfl⟩ := h
  cases line <;> exact Iff.rfl

/-- What waits goes on to wait, whatever asks besides. -/
theorem Requests.raise (h : p.Requests line) (line' : IrqLine) : (p.raise line').Requests line := by
  cases line' with
  | master n =>
    unfold Pics.raise
    by_cases hn : n = 2
    · simp only [if_pos hn]
      exact h
    · simp only [if_neg hn]
      cases line with
      | master k =>
        refine ⟨h.1, ?_⟩
        show Function.update p.master.request n true k = true
        by_cases hk : k = n
        · rw [hk, Function.update_self]
        · rw [Function.update_of_ne hk]
          exact h.2
      | slave k => exact h
  | slave n =>
    cases line with
    | master k => exact h
    | slave k =>
      show Function.update p.slave.request n true k = true
      by_cases hk : k = n
      · rw [hk, Function.update_self]
      · rw [Function.update_of_ne hk]
        exact h

/-- And so it does when another line is accepted. -/
theorem Requests.acknowledge (h : p.Requests line) {line' : IrqLine} (hne : line ≠ line') :
    (p.acknowledge line').Requests line := by
  cases line' with
  | master n =>
    cases line with
    | master k =>
      have hk : k ≠ n := fun heq => hne (congrArg _ heq)
      refine ⟨h.1, ?_⟩
      show Function.update p.master.request n false k = true
      rw [Function.update_of_ne hk]
      exact h.2
    | slave k => exact h
  | slave n =>
    cases line with
    | master k =>
      refine ⟨h.1, ?_⟩
      show Function.update p.master.request 2 false k = true
      rw [Function.update_of_ne h.1]
      exact h.2
    | slave k =>
      have hk : k ≠ n := fun heq => hne (congrArg _ heq)
      show Function.update p.slave.request n false k = true
      rw [Function.update_of_ne hk]
      exact h

end Pics

end Zeronix
