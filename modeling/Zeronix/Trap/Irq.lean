import Zeronix.Trap.Idt
import Zeronix.Trap.Pic
import Mathlib.Logic.Relation

/-!
# Interrupts from the devices to the handler

`__irq_handler` of `idt.rs` with the controllers and the devices.  Devices ask for interrupts at any
time, the CPU accepts one when interrupts are enabled, and the handler ends it with writes to the
controllers, which are steps of their own.  The timer tells the scheduler only after that, so that
other tasks may run, with interrupts, before the handler has returned.

What is in service and what is left of the handler always fit together (`Inv`).
-/

namespace Zeronix

namespace Irq

open Pics Pic

/-! ### The handler -/

/-- What the handler does, but for the texts that it prints. -/
inductive Action where
  /-- `TIMER_TICKS.fetch_add(1)` -/
  | fetchAdd
  | out (port : UInt16) (v : UInt8)
  | onTimerTick
  /-- `inb(0x60)` -/
  | keyboard
  | handleSerialRxInterrupt
  | unexpected (irq : UInt8) (vector : UInt64)
  deriving DecidableEq

def endOfInterrupt (irq : UInt8) : List Action :=
  (Pic.endOfInterrupt irq).map fun w => .out w.1 w.2

def irqHandler (vector : UInt64) : List Action :=
  let irq : UInt8 := (if 32 ≤ vector then vector - 32 else 0).toUInt8
  if irq = 0 then [.fetchAdd] ++ (endOfInterrupt irq ++ [.onTimerTick])
  else if irq = 1 then [.keyboard] ++ (endOfInterrupt irq ++ [])
  else if irq = 4 then [.handleSerialRxInterrupt] ++ (endOfInterrupt irq ++ [])
  else [.unexpected irq vector] ++ (endOfInterrupt irq ++ [])

def Action.pics (p : Pics) : Action → Pics
  | out port v => p.outb port v
  | _ => p

def Action.ticks (ticks : UInt64) : Action → UInt64
  | fetchAdd => ticks + 1
  | _ => ticks

/-! ### The machine -/

/-- `handler` is what the CPU has still to do of the handler, and `suspended` what tasks have to do
of it that the scheduler has switched from.  `accepted` has the vectors so far, the last one first,
and `unmasked` the arguments of `unmask_irq`. -/
structure IrqMachine where
  pics : Pics
  enabled : Bool
  handler : Option (List Action)
  suspended : List (List Action)
  ticks : UInt64
  accepted : List UInt8
  unmasked : List UInt8

namespace IrqMachine

def perform (m : IrqMachine) (a : Action) : IrqMachine :=
  { m with pics := a.pics m.pics, ticks := a.ticks m.ticks }

inductive Step (m : IrqMachine) : IrqMachine → Prop
  | raise (line : IrqLine) : Step m { m with pics := m.pics.raise line }
  | accept {v : UInt8} {p : Pics} (hif : m.enabled = true) (h : m.pics.accept = some (v, p)) :
      Step m { m with
        pics := p
        enabled := false
        handler := some (irqHandler v.toUInt64)
        accepted := v :: m.accepted }
  | act {a : Action} {rest : List Action} (h : m.handler = some (a :: rest))
      (ha : a ≠ .onTimerTick) : Step m { m.perform a with handler := some rest }
  /-- The scheduler may switch to another task. -/
  | onTimerTick {rest : List Action} (enabled : Bool)
      (h : m.handler = some (.onTimerTick :: rest)) :
      Step m { m with handler := none, suspended := rest :: m.suspended, enabled := enabled }
  | resume {l l' : List (List Action)} {rest : List Action} (h : m.handler = none)
      (hs : m.suspended = l ++ rest :: l') :
      Step m { m with handler := some rest, suspended := l ++ l', enabled := false }
  | finish (enabled : Bool) (h : m.handler = some []) :
      Step m { m with handler := none, enabled := enabled }
  | code (enabled : Bool) (h : m.handler = none) : Step m { m with enabled := enabled }
  | unmaskIrq (irq : UInt8) (h : m.handler = none) :
      Step m { m with pics := unmaskIrq irq m.pics, unmasked := irq :: m.unmasked }

abbrev Steps : IrqMachine → IrqMachine → Prop := Relation.ReflTransGen Step

/-- After `pic::init`, which found the controllers in any state. -/
structure Booted (m : IrqMachine) : Prop where
  pics : ∃ p, Outs Pic.init p m.pics
  enabled : m.enabled = false
  handler : m.handler = none
  suspended : m.suspended = []
  ticks : m.ticks = 0
  accepted : m.accepted = []
  unmasked : m.unmasked = []

end IrqMachine

/-! ### What fits together -/

/-- Between the accepted interrupt and its end. -/
def Action.Early : Action → Prop
  | out _ _ => False
  | onTimerTick => False
  | _ => True

/-- After the end. -/
def Late (rest : List Action) : Prop := rest = [] ∨ rest = [.onTimerTick]

/-- What is left of a handler, with what is in service and the last vector. -/
inductive InHandler (p : Pics) (last : Option UInt8) : List Action → Prop
  | serves {line : IrqLine} {pre post : List Action} (hlast : last = some (vectorOf line))
      (h : p.Serves line) (hpre : ∀ a ∈ pre, a.Early) (hpost : Late post) :
      InHandler p last (pre ++ (endOfInterrupt (.ofNat line.number) ++ post))
  | cascade {n : Fin 8} {post : List Action} (hlast : last = some (vectorOf (.slave n)))
      (hmaster : p.master.Serves 2) (hslave : p.slave.Idle) (hpost : Late post) :
      InHandler p last (.out PIC1_COMMAND PIC_EOI :: post)
  | ended {post : List Action} (h : p.Idle) (hpost : Late post) : InHandler p last post

def Service (p : Pics) (last : Option UInt8) : Option (List Action) → Prop
  | none => p.Idle
  | some rest => InHandler p last rest

/-- The ticks that the handler has still to count. -/
def waiting (handler : Option (List Action)) : Nat := (handler.getD []).count .fetchAdd

structure Inv (m : IrqMachine) : Prop where
  programmed : Programmed m.pics
  opened : Opened m.pics m.unmasked
  service : Service m.pics m.accepted.head? m.handler
  off : m.handler ≠ none → m.enabled = false
  suspended : ∀ rest ∈ m.suspended, rest = []
  ticks : m.ticks + .ofNat (waiting m.handler) = .ofNat (m.accepted.count Pic.IRQ_BASE)

variable {p p' : Pics} {last : Option UInt8} {m m' : IrqMachine}
variable {a : Action} {rest : List Action}

/-! ### The handler of a line -/

theorem endOfInterrupt_master (n : Fin 8) : endOfInterrupt (.ofNat (IrqLine.master n).number) =
    [.out PIC1_COMMAND PIC_EOI] := by
  revert n
  decide

theorem endOfInterrupt_slave (n : Fin 8) : endOfInterrupt (.ofNat (IrqLine.slave n).number) =
    [.out PIC2_COMMAND PIC_EOI, .out PIC1_COMMAND PIC_EOI] := by
  revert n
  decide

/-- The handler works, ends the interrupt of its line, and then tells the scheduler of a tick. -/
theorem irqHandler_eq (line : IrqLine) : ∃ pre post,
    irqHandler (vectorOf line).toUInt64 = pre ++ (endOfInterrupt (.ofNat line.number) ++ post) ∧
      (∀ a ∈ pre, a.Early) ∧ Late post := by
  have hirq : (if 32 ≤ (vectorOf line).toUInt64 then (vectorOf line).toUInt64 - 32
      else 0).toUInt8 = .ofNat line.number := by
    cases line with
    | master n => revert n; decide
    | slave n => revert n; decide
  have hone : ∀ a : Action, a.Early → ∀ b ∈ [a], b.Early := by
    intro a ha b hb
    rwa [List.mem_singleton.mp hb]
  simp only [irqHandler, hirq]
  generalize UInt8.ofNat line.number = irq
  by_cases h0 : irq = 0
  · exact ⟨_, _, if_pos h0, hone _ trivial, .inr rfl⟩
  · by_cases h1 : irq = 1
    · exact ⟨_, _, (if_neg h0).trans (if_pos h1), hone _ trivial, .inl rfl⟩
    · by_cases h4 : irq = 4
      · exact ⟨_, _, (if_neg h0).trans ((if_neg h1).trans (if_pos h4)), hone _ trivial, .inl rfl⟩
      · exact ⟨_, _, (if_neg h0).trans ((if_neg h1).trans (if_neg h4)), hone _ trivial, .inl rfl⟩

theorem waiting_irqHandler (line : IrqLine) : waiting (some (irqHandler (vectorOf line).toUInt64)) =
    if vectorOf line = Pic.IRQ_BASE then 1 else 0 := by
  cases line with
  | master n => revert n; decide
  | slave n => revert n; decide

/-! ### Steps -/

theorem InHandler.congr (h : InHandler p last rest) (hs : p.SameBut p') :
    InHandler p' last rest := by
  cases h with
  | serves hlast h hpre hpost => exact .serves hlast (hs.serves.mpr h) hpre hpost
  | cascade hlast hmaster hslave hpost =>
    obtain ⟨f, g, rfl⟩ := hs
    exact .cascade hlast hmaster hslave hpost
  | ended h hpost => exact .ended (hs.idle.mpr h) hpost

theorem outb_master (p : Pics) :
    p.outb PIC1_COMMAND PIC_EOI = { p with master := p.master.endOfInterrupt } := rfl

theorem outb_slave (p : Pics) :
    p.outb PIC2_COMMAND PIC_EOI = { p with slave := p.slave.endOfInterrupt } := rfl

theorem Late.not_out (h : Late (a :: rest)) : a = .onTimerTick ∧ rest = [] := by
  rcases h with h | h
  · cases h
  · exact List.cons.inj h

/-- **One action of a handler** keeps what is in service fitting to what is left. -/
theorem InHandler.act (h : InHandler p last (a :: rest)) (ha : a ≠ .onTimerTick) :
    InHandler (a.pics p) last rest ∧ p.SameButService (a.pics p) := by
  generalize hl : a :: rest = l at h
  cases h with
  | @serves line pre post hlast h hpre hpost =>
    cases pre with
    | cons b pre =>
      obtain ⟨rfl, rfl⟩ := List.cons.inj hl
      have hearly := hpre a List.mem_cons_self
      have hpics : a.pics p = p := by
        cases a <;> first | rfl | exact absurd hearly id
      rw [hpics]
      exact ⟨.serves hlast h (fun b hb => hpre b (List.mem_cons_of_mem _ hb)) hpost,
        SameButService.refl p⟩
    | nil =>
      cases line with
      | master n =>
        rw [endOfInterrupt_master] at hl
        obtain ⟨rfl, rfl⟩ := List.cons.inj hl
        obtain ⟨f, hf⟩ := p.master.endOfInterrupt_eq
        refine ⟨.ended ⟨h.1.endOfInterrupt, h.2⟩ hpost, ?_⟩
        exact ⟨f, p.slave.service, by
          rw [Action.pics, outb_master, hf]⟩
      | slave n =>
        rw [endOfInterrupt_slave] at hl
        obtain ⟨rfl, rfl⟩ := List.cons.inj hl
        obtain ⟨f, hf⟩ := p.slave.endOfInterrupt_eq
        refine ⟨.cascade hlast h.1 h.2.endOfInterrupt hpost, ?_⟩
        exact ⟨p.master.service, f, by
          rw [Action.pics, outb_slave, hf]⟩
  | cascade hlast hmaster hslave hpost =>
    obtain ⟨rfl, rfl⟩ := List.cons.inj hl
    obtain ⟨f, hf⟩ := p.master.endOfInterrupt_eq
    refine ⟨.ended ⟨hmaster.endOfInterrupt, hslave⟩ hpost, ?_⟩
    exact ⟨f, p.slave.service, by
      rw [Action.pics, outb_master, hf]⟩
  | ended h hpost =>
    subst hl
    exact absurd hpost.not_out.1 ha

/-- A handler that is at its last part has ended its interrupt. -/
theorem InHandler.idle (h : InHandler p last rest) (hlate : Late rest) : p.Idle := by
  cases h with
  | @serves line pre post hlast h hpre hpost =>
    cases pre with
    | cons b pre =>
      obtain ⟨rfl, -⟩ := hlate.not_out
      exact absurd (hpre _ List.mem_cons_self) id
    | nil =>
      cases line with
      | master n =>
        rw [endOfInterrupt_master] at hlate
        cases hlate.not_out.1
      | slave n =>
        rw [endOfInterrupt_slave] at hlate
        cases hlate.not_out.1
  | cascade hlast hmaster hslave hpost => cases hlate.not_out.1
  | ended h hpost => exact h

theorem InHandler.onTimerTick (h : InHandler p last (.onTimerTick :: rest)) : rest = [] := by
  generalize hl : Action.onTimerTick :: rest = l at h
  cases h with
  | @serves line pre post hlast h hpre hpost =>
    cases pre with
    | cons b pre =>
      obtain ⟨rfl, rfl⟩ := List.cons.inj hl
      exact absurd (hpre _ List.mem_cons_self) id
    | nil =>
      cases line with
      | master n =>
        rw [endOfInterrupt_master] at hl
        cases (List.cons.inj hl).1
      | slave n =>
        rw [endOfInterrupt_slave] at hl
        cases (List.cons.inj hl).1
  | cascade hlast hmaster hslave hpost => cases (List.cons.inj hl).1
  | ended h hpost =>
    subst hl
    exact hpost.not_out.2

/-- Interrupts are accepted outside handlers only. -/
theorem Inv.handler_none (h : Inv m) (hif : m.enabled = true) : m.handler = none := by
  by_contra hne
  rw [h.off hne] at hif
  cases hif

theorem Inv.idle (h : Inv m) (hnone : m.handler = none) : m.pics.Idle := by
  have hservice := h.service
  rw [hnone] at hservice
  exact hservice

theorem Inv.inHandler (h : Inv m) (hsome : m.handler = some rest) :
    InHandler m.pics m.accepted.head? rest := by
  have hservice := h.service
  rw [hsome] at hservice
  exact hservice

/-- What the CPU accepts. -/
theorem Inv.accept (h : Inv m) (hif : m.enabled = true) {v : UInt8} {p : Pics}
    (hacc : m.pics.accept = some (v, p)) : ∃ line, m.pics.Asks line ∧
      (∀ line', m.pics.Asks line' → line.rank ≤ line'.rank) ∧ v = vectorOf line ∧
      p = m.pics.acknowledge line := by
  obtain ⟨line, hasks, hmin, hv, hp⟩ :=
    ((h.idle (h.handler_none hif)).accept_iff h.programmed.ready).mp hacc
  exact ⟨line, hasks, hmin, hv.trans (h.programmed.vector line), hp⟩

theorem Inv.raise (h : Inv m) (line : IrqLine) :
    Inv { m with pics := m.pics.raise line } := by
  have hs := sameBut_raise m.pics line
  refine { h with
    programmed := h.programmed.setup hs.setup
    opened := h.opened.setup hs.setup
    service := ?_ }
  cases hh : m.handler with
  | none => exact hs.idle.mpr (h.idle hh)
  | some rest => exact (h.inHandler hh).congr hs

theorem Inv.accepted (h : Inv m) (hif : m.enabled = true) {v : UInt8} {p : Pics}
    (hacc : m.pics.accept = some (v, p)) :
    Inv { m with
      pics := p
      enabled := false
      handler := some (irqHandler v.toUInt64)
      accepted := v :: m.accepted } := by
  obtain ⟨line, _, _, rfl, rfl⟩ := h.accept hif hacc
  have hnone := h.handler_none hif
  have hs := sameSetup_acknowledge m.pics line
  obtain ⟨pre, post, heq, hpre, hpost⟩ := irqHandler_eq line
  refine {
    programmed := h.programmed.setup hs
    opened := h.opened.setup hs
    service := ?_
    off := fun _ => rfl
    suspended := h.suspended
    ticks := ?_ }
  · show InHandler _ (some (vectorOf line)) (irqHandler (vectorOf line).toUInt64)
    rw [heq]
    exact .serves rfl (h.idle hnone).acknowledge hpre hpost
  · have hticks := h.ticks
    rw [hnone] at hticks
    show m.ticks + .ofNat (waiting (some _)) =
      .ofNat ((vectorOf line :: m.accepted).count Pic.IRQ_BASE)
    rw [waiting_irqHandler, List.count_cons, UInt64.ofNat_add, ← hticks]
    show _ = m.ticks + 0 + _
    rw [UInt64.add_zero]
    congr 2
    by_cases hv : vectorOf line = Pic.IRQ_BASE
    · rw [if_pos hv, if_pos (beq_iff_eq.mpr hv)]
    · rw [if_neg hv, if_neg fun hb => hv (beq_iff_eq.mp hb)]

theorem waiting_cons (a : Action) (rest : List Action) :
    waiting (some (a :: rest)) = waiting (some rest) + if a = .fetchAdd then 1 else 0 := by
  show (a :: rest).count .fetchAdd = rest.count .fetchAdd + _
  rw [List.count_cons]
  congr 1
  by_cases ha : a = .fetchAdd
  · rw [if_pos ha, if_pos (beq_iff_eq.mpr ha)]
  · rw [if_neg ha, if_neg fun hb => ha (beq_iff_eq.mp hb)]

theorem Inv.act (h : Inv m) (hh : m.handler = some (a :: rest)) (ha : a ≠ .onTimerTick) :
    Inv { m.perform a with handler := some rest } := by
  obtain ⟨hservice, hs⟩ := (h.inHandler hh).act ha
  refine {
    programmed := h.programmed.setup hs.setup
    opened := h.opened.setup hs.setup
    service := hservice
    off := fun _ => h.off (by rw [hh]; exact Option.some_ne_none _)
    suspended := h.suspended
    ticks := ?_ }
  have hticks := h.ticks
  rw [hh, waiting_cons, UInt64.ofNat_add] at hticks
  show a.ticks m.ticks + .ofNat (waiting (some rest)) = .ofNat (m.accepted.count Pic.IRQ_BASE)
  rw [← hticks]
  by_cases hadd : a = .fetchAdd
  · subst hadd
    rw [if_pos rfl]
    show m.ticks + 1 + _ = m.ticks + (_ + 1)
    rw [UInt64.add_assoc, UInt64.add_comm 1]
  · have hsame : a.ticks m.ticks = m.ticks := by
      cases a <;> first | rfl | exact absurd rfl hadd
    rw [hsame, if_neg hadd]
    exact congrArg (m.ticks + ·) (UInt64.add_zero _).symm

/-- **One step of the machine.** -/
theorem Inv.step (h : Inv m) (hs : m.Step m') : Inv m' := by
  cases hs with
  | raise line => exact h.raise line
  | accept hif hacc => exact h.accepted hif hacc
  | act hh ha => exact h.act hh ha
  | @onTimerTick rest enabled hh =>
    have hin := h.inHandler hh
    obtain rfl := hin.onTimerTick
    have hticks := h.ticks
    rw [hh] at hticks
    exact { h with
      service := hin.idle (.inr rfl)
      off := fun hne => absurd rfl hne
      suspended := fun r hr => (List.mem_cons.mp hr).elim id (h.suspended r)
      ticks := hticks }
  | @resume l l' rest hnone hsus =>
    have hmem : rest ∈ m.suspended := by
      rw [hsus]
      exact List.mem_append_right _ List.mem_cons_self
    obtain rfl := h.suspended rest hmem
    have hticks := h.ticks
    rw [hnone] at hticks
    refine { h with
      service := .ended (h.idle hnone) (.inl rfl)
      off := fun _ => rfl
      suspended := fun r hr => h.suspended r ?_
      ticks := hticks }
    rw [hsus]
    rcases List.mem_append.mp hr with hl | hl
    · exact List.mem_append_left _ hl
    · exact List.mem_append_right _ (List.mem_cons_of_mem _ hl)
  | finish enabled hh =>
    have hticks := h.ticks
    rw [hh] at hticks
    exact { h with
      service := (h.inHandler hh).idle (.inl rfl)
      off := fun hne => absurd rfl hne
      ticks := hticks }
  | code enabled hnone => exact { h with off := fun hne => absurd hnone hne }
  | unmaskIrq irq hnone =>
    have hidle := h.idle hnone
    refine { h with
      programmed := h.programmed.unmaskIrq irq
      opened := h.opened.unmaskIrq h.programmed.ready irq
      service := ?_ }
    show Service _ _ m.handler
    rw [hnone]
    exact (idle_unmaskIrq h.programmed.ready irq).mpr hidle

theorem Inv.steps (h : Inv m) (hs : m.Steps m') : Inv m' := by
  induction hs with
  | refl => exact h
  | tail _ hstep ih => exact ih.step hstep

theorem IrqMachine.Booted.inv (h : m.Booted) : Inv m := by
  obtain ⟨p, hp⟩ := h.pics
  obtain ⟨hprogrammed, hidle, hopened⟩ := Pic.init_spec hp
  refine {
    programmed := hprogrammed
    opened := by rw [h.unmasked]; exact hopened
    service := by rw [h.handler]; exact hidle
    off := fun hne => absurd h.handler hne
    suspended := fun rest hr => by rw [h.suspended] at hr; cases hr
    ticks := by rw [h.ticks, h.handler, h.accepted]; rfl }

/-! ### Runs -/

variable {m₀ : IrqMachine}

/-- A request of the line waits, and the line was unmasked. -/
def IrqMachine.Wants (m : IrqMachine) (line : IrqLine) : Prop :=
  m.pics.Requests line ∧ .ofNat line.number ∈ m.unmasked

/-- **When interrupts are enabled**, the CPU accepts one if and only if a line that was unmasked has
a request, and then the line of the highest priority among them, with its vector. -/
theorem interrupt_accepted (hboot : m₀.Booted) (hrun : m₀.Steps m) (hif : m.enabled = true) :
    (m.pics.accept.isSome ↔ ∃ line, m.Wants line) ∧
    ∀ v p, m.pics.accept = some (v, p) → ∃ line, m.Wants line ∧
      (∀ line', m.Wants line' → line.rank ≤ line'.rank) ∧ v = vectorOf line := by
  have hinv := hboot.inv.steps hrun
  have hasks := hinv.opened.asks
  refine ⟨?_, fun v p hacc => ?_⟩
  · rw [(hinv.idle (hinv.handler_none hif)).accept_isSome hinv.programmed.ready]
    exact exists_congr hasks
  · obtain ⟨line, hline, hmin, hv, _⟩ := hinv.accept hif hacc
    exact ⟨line, (hasks line).mp hline, fun line' hw => hmin line' ((hasks line').mpr hw), hv⟩

/-- **What is in service** fits to what is left of the handler in every state: nothing outside of
handlers, where all ticks are counted, and else, with interrupts disabled, the line of the last
vector up to the write that ends it. -/
theorem in_service (hboot : m₀.Booted) (hrun : m₀.Steps m) :
    (m.handler = none → m.pics.Idle ∧ m.ticks = .ofNat (m.accepted.count Pic.IRQ_BASE)) ∧
    ∀ rest, m.handler = some rest → m.enabled = false ∧
      InHandler m.pics m.accepted.head? rest := by
  have hinv := hboot.inv.steps hrun
  refine ⟨fun hnone => ⟨hinv.idle hnone, ?_⟩, fun rest hsome => ⟨hinv.off ?_, hinv.inHandler hsome⟩⟩
  · have hticks := hinv.ticks
    rw [hnone] at hticks
    exact (UInt64.add_zero _).symm.trans hticks
  · rw [hsome]
    exact Option.some_ne_none _

/-- One step takes away no request but the one that it accepts. -/
theorem Inv.requests (h : Inv m) (hs : m.Step m') {line : IrqLine} (hreq : m.pics.Requests line) :
    ∃ new, m'.accepted = new ++ m.accepted ∧ (m'.pics.Requests line ∨ vectorOf line ∈ new) := by
  cases hs with
  | raise line' => exact ⟨[], rfl, .inl (hreq.raise line')⟩
  | @accept v p hif hacc =>
    obtain ⟨line', _, _, rfl, rfl⟩ := h.accept hif hacc
    refine ⟨[vectorOf line'], rfl, ?_⟩
    by_cases heq : line = line'
    · exact .inr (by rw [heq]; exact List.mem_cons_self)
    · exact .inl (hreq.acknowledge heq)
  | act hh ha =>
    obtain ⟨_, hs⟩ := (h.inHandler hh).act ha
    exact ⟨[], rfl, .inl (hs.requests.mpr hreq)⟩
  | unmaskIrq irq hnone =>
    exact ⟨[], rfl, .inl ((requests_unmaskIrq h.programmed.ready irq line).mpr hreq)⟩
  | onTimerTick enabled hh => exact ⟨[], rfl, .inl hreq⟩
  | resume hnone hsus => exact ⟨[], rfl, .inl hreq⟩
  | finish enabled hh => exact ⟨[], rfl, .inl hreq⟩
  | code enabled hnone => exact ⟨[], rfl, .inl hreq⟩

/-- **No request is lost**: one that waits in a run waits still, or its vector was accepted
since. -/
theorem request_waits (hboot : m₀.Booted) (hrun : m₀.Steps m) (hrun' : m.Steps m') {line : IrqLine}
    (hreq : m.pics.Requests line) :
    ∃ new, m'.accepted = new ++ m.accepted ∧ (m'.pics.Requests line ∨ vectorOf line ∈ new) := by
  induction hrun' with
  | refl => exact ⟨[], rfl, .inl hreq⟩
  | @tail m₁ m₂ hsteps hstep ih =>
    obtain ⟨new, hnew, hwaits | hacc⟩ := ih
    · obtain ⟨new', hnew', hor⟩ := ((hboot.inv.steps hrun).steps hsteps).requests hstep hwaits
      refine ⟨new' ++ new, by rw [hnew', hnew, List.append_assoc], ?_⟩
      exact hor.imp_right fun hmem => List.mem_append_left _ hmem
    · have hkept : ∃ new', m₂.accepted = new' ++ m₁.accepted := by
        cases hstep with
        | @accept v p hif hacc => exact ⟨[v], rfl⟩
        | _ => exact ⟨[], rfl⟩
      obtain ⟨new', hnew'⟩ := hkept
      refine ⟨new' ++ new, by rw [hnew', hnew, List.append_assoc], .inr ?_⟩
      exact List.mem_append_right _ hacc

/-! ### Through the tables -/

/-- A controller that has just been switched on. -/
def sampleChip : Chip where
  stage := .ready
  single := false
  fourth := false
  base := 0
  cascade := 0
  mode := 0
  mask := 0
  request _ := false
  service _ := false

def sampleBooted : IrqMachine where
  pics := Pics.outs ⟨sampleChip, sampleChip⟩ Pic.init
  enabled := false
  handler := none
  suspended := []
  ticks := 0
  accepted := []
  unmasked := []

theorem sampleBooted_booted : sampleBooted.Booted :=
  ⟨⟨_, Pics.outs_run _ _⟩, rfl, rfl, rfl, rfl, rfl, rfl⟩

/-- The timer was unmasked, and a device has asked for an interrupt. -/
def sampleRequest (n : Fin 8) : IrqMachine :=
  { sampleBooted with
    pics := (unmaskIrq 0 sampleBooted.pics).raise (.master n)
    enabled := true
    unmasked := [0] }

theorem sampleRequest_steps (n : Fin 8) : sampleBooted.Steps (sampleRequest n) :=
  have hraised := (Relation.ReflTransGen.single (.unmaskIrq 0 rfl)).tail (.raise (.master n))
  hraised.tail (.code true rfl)

theorem sampleRequest_wants : (sampleRequest 0).Wants (.master 0) :=
  ⟨⟨by decide, rfl⟩, List.mem_singleton_self 0⟩

theorem interrupt_accepted_tick : (sampleRequest 0).pics.accept.isSome ∧
    ∀ v p, (sampleRequest 0).pics.accept = some (v, p) →
      ∃ line, (sampleRequest 0).Wants line ∧ v = vectorOf line := by
  obtain ⟨hiff, hacc⟩ := interrupt_accepted sampleBooted_booted (sampleRequest_steps 0) rfl
  refine ⟨hiff.mpr ⟨_, sampleRequest_wants⟩, fun v p h => ?_⟩
  obtain ⟨line, hline, _, hv⟩ := hacc v p h
  exact ⟨line, hline, hv⟩

theorem sampleRequest_accept : ∃ p, (sampleRequest 0).pics.accept = some (32, p) :=
  ⟨(sampleRequest 0).pics.acknowledge (.master 0), rfl⟩

theorem in_service_tick : ∃ p, (sampleRequest 0).pics.accept = some (32, p) ∧
    InHandler p (some 32) (irqHandler 32) := by
  obtain ⟨p, hp⟩ := sampleRequest_accept
  have haccept := IrqMachine.Step.accept (m := sampleRequest 0) rfl hp
  have hsteps := (sampleRequest_steps 0).tail haccept
  exact ⟨p, hp, ((in_service sampleBooted_booted hsteps).2 _ rfl).2⟩

theorem request_waits_tick : ∃ p, (sampleRequest 0).pics.accept = some (32, p) ∧
    ∃ new, [32] = new ++ [] ∧ (p.Requests (.master 0) ∨ vectorOf (.master 0) ∈ new) := by
  obtain ⟨p, hp⟩ := sampleRequest_accept
  have haccept := IrqMachine.Step.accept (m := sampleRequest 0) rfl hp
  exact ⟨p, hp, request_waits sampleBooted_booted (sampleRequest_steps 0)
    (Relation.ReflTransGen.single haccept) sampleRequest_wants.1⟩

end Irq

end Zeronix
