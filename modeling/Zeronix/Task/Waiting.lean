import Mathlib.Data.Nat.Nth
import Zeronix.Task.Machine

/-!
# Waiting for the CPU

Over whole runs no process is lost and none runs again after its exit (`scheduler_invariant`).

The ready queue is first in, first out, and the process that runs is preempted after at most
`DEFAULT_TIME_SLICE_TICKS` ticks of the timer.  A step therefore does one of two things
(`Turn`): the queue grows at its end, and a tick takes one from the slice of the process that
runs; or the first of the queue runs with a full slice.  Counting both along a run bounds the
time that a process waits (`bounded_waiting`).
-/

namespace Zeronix

namespace System

/-! ### No process is lost -/

/-- **The scheduler loses and duplicates no process.**  In every state of every run the queue
has no duplicates and does not hold the current process, queued processes are ready, the current
one is running or has exited and no other is running; a process that has not exited is either
current or queued, and not both; one that has exited is not queued, and once it is not the
current process it never becomes it again. -/
theorem scheduler_invariant {s₀ s : System} (hstart : s₀.Unstarted) (hrun : Steps s₀ s) :
    s.readyQueue.Nodup ∧
    (∀ c, s.current = some c → c ∉ s.readyQueue) ∧
    (∀ i ∈ s.readyQueue, states s.procs i = some .Ready) ∧
    (∀ c, s.current = some c → states s.procs c = some .Running ∨ states s.procs c = some .Exited) ∧
    (∀ i, states s.procs i = some .Running → s.current = some i) ∧
    (∀ i x, states s.procs i = some x → x ≠ .Exited →
      Xor (s.current = some i) (i ∈ s.readyQueue)) ∧
    (∀ i, states s.procs i = some .Exited → i ∉ s.readyQueue ∧
      (s.current ≠ some i → ∀ s', Steps s s' → s'.current ≠ some i)) := by
  have hok : s.view.Ok := hstart.ok.moves (steps_moves hstart.ok hrun)
  refine ⟨hok.nodup, fun c hc => hok.current_not_mem hc, hok.ready, hok.current, hok.running,
    fun i x hi hx => ?_, fun i hi => ⟨fun hm => ?_, fun hc s' hs' => ?_⟩⟩
  · rcases hok.placed i x hi hx with hc | hm
    · exact Or.inl ⟨hc, hok.current_not_mem hc⟩
    · exact Or.inr ⟨hm, fun hc => hok.current_not_mem hc hm⟩
  · have hready := hok.ready i hm
    rw [show s.view.st i = _ from hi] at hready
    simp at hready
  · have hgone : s.view.Gone i := ⟨hi, hc⟩
    exact (hgone.moves hok (steps_moves hok hs')).2

theorem TaskWaits.exit {s : System} {left : Nat} (h : TaskWaits s left) : ∃ s', s.exitCurrent = some s' ∧
    s'.current = some 1 ∧ states s'.procs 0 = some .Exited := by
  obtain ⟨p, q, hp, _, _⟩ := h.procs
  simp [exitCurrent, h.current, setState, schedule, h.queue, requeue, hp, switchTo, states]

/-- The boot process starts a kernel task and exits; it never runs again. -/
theorem scheduler_invariant_boot_exit : ∃ s₀ s, machineBoot = some s₀ ∧ s₀.Unstarted ∧
    Steps s₀ s ∧ s.current = some 1 ∧ states s.procs 0 = some .Exited ∧ 0 ∉ s.readyQueue ∧
    ∀ s', Steps s s' → s'.current ≠ some 0 := by
  obtain ⟨s₀, s₁, s₂, hboot, hstart, hlow, _, hspawn, hwaits⟩ := machine_spawnKernel 0
  obtain ⟨s, hexit, hc, hex⟩ := hwaits.exit
  have h₂ : s₁.exec (.spawnKernel 0) = some s₂ := by
    rw [exec, hspawn]
    rfl
  have hsteps : Steps s₀ s := .tail (.tail (steps_of_low hlow) (.call _ h₂)) (.call .exitCurrent hexit)
  have hinv := (scheduler_invariant hstart hsteps).2.2.2.2.2.2 0 hex
  exact ⟨s₀, s, hboot, hstart, hsteps, hc, hex, hinv.1, hinv.2 (by rw [hc]; simp)⟩

/-! ### Runs with their events -/

inductive Event where
  | call (a : Action)
  | write

/-- A step of the kernel, with its event. -/
inductive Does : System → Event → System → Prop
  | call {s s' : System} (a : Action) : s.exec a = some s' → Does s (.call a) s'
  | write {s : System} (m : Memory) :
      (∀ x, ¬ Session.InBlocks s.data x → m.bytes x = s.pm.mem.bytes x) →
      Does s .write { s with pm := { s.pm with mem := m } }

theorem Does.step {s s' : System} {e : Event} (h : Does s e s') : Step s s' := by
  cases h with
  | call a h => exact .call a h
  | write m h => exact .write m h

def Event.isTick : Event → Bool
  | .call .onTimerTick => true
  | _ => false

/-- The ticks of the timer among the first `n` events. -/
def ticks (e : Nat → Event) (n : Nat) : Nat := Nat.count (fun i => (e i).isTick) n

/-- The process switches among the first `n` steps: `schedule` stores another process in `CURRENT`
whenever it switches, and no other call does once there is a process. -/
def switches (σ : Nat → System) (n : Nat) : Nat :=
  Nat.count (fun i => (σ (i + 1)).current ≠ (σ i).current) n

/-! ### Time slices -/

/-- Every process has between one and all of the ticks of a slice left. -/
def Sliced (s : System) : Prop :=
  ∀ i t, fields Proc.ticksLeft s.procs i = some t → 1 ≤ t ∧ t ≤ DEFAULT_TIME_SLICE_TICKS

theorem Sliced.update {s s' : System} (h : s.Sliced) {i t : Nat}
    (hs : fields Proc.ticksLeft s'.procs =
      Function.update (fields Proc.ticksLeft s.procs) i (some t))
    (ht : 1 ≤ t ∧ t ≤ DEFAULT_TIME_SLICE_TICKS) : s'.Sliced := by
  intro j u hu
  rw [hs] at hu
  by_cases hj : j = i
  · rw [hj, Function.update_self] at hu
    rw [← Option.some.inj hu]
    exact ht
  · rw [Function.update_of_ne hj] at hu
    exact h j u hu

theorem Sliced.same {s s' : System} (h : s.Sliced)
    (hs : fields Proc.ticksLeft s'.procs = fields Proc.ticksLeft s.procs) : s'.Sliced := by
  intro i t ht
  rw [hs] at ht
  exact h i t ht

theorem full_slice : 1 ≤ DEFAULT_TIME_SLICE_TICKS ∧
    DEFAULT_TIME_SLICE_TICKS ≤ DEFAULT_TIME_SLICE_TICKS := by decide

/-- What the process that runs has left of its slice. -/
def slice (s : System) : Nat := (s.current.bind (fields Proc.ticksLeft s.procs)).getD 0

theorem slice_eq {s : System} {c t : Nat} (hc : s.current = some c)
    (ht : fields Proc.ticksLeft s.procs c = some t) : s.slice = t := by
  rw [slice, hc, Option.bind_some, ht, Option.getD_some]

/-! ### One step -/

/-- The first of the queue runs, with a full slice. -/
def TakesOver (s s' : System) : Prop :=
  ∃ next rest new, s.readyQueue = next :: rest ∧ s.current ≠ some next ∧ s'.current = some next ∧
    s'.readyQueue = rest ++ new ∧ s'.slice = DEFAULT_TIME_SLICE_TICKS

/-- What a step does: the process that runs stays, and `n` ticks are taken from its slice if
another one waits; or the first of the queue takes over. -/
inductive Turn (n : Nat) (s s' : System) : Prop
  | stay (new : List Nat) : s'.current = s.current → s'.readyQueue = s.readyQueue ++ new →
      (s.readyQueue ≠ [] → s'.slice + n = s.slice) → Turn n s s'
  | switch : TakesOver s s' → Turn n s s'

theorem slice_congr {s s' : System} (hc : s'.current = s.current)
    (hf : ∀ c, s.current = some c →
      fields Proc.ticksLeft s'.procs c = fields Proc.ticksLeft s.procs c) : s'.slice = s.slice := by
  rw [slice, slice, hc]
  cases hcur : s.current with
  | none => rfl
  | some c => rw [Option.bind_some, Option.bind_some, hf c hcur]

theorem Turn.same {s s' : System} (h : Same s s') : Turn 0 s s' := by
  refine .stay [] h.current (by rw [h.readyQueue, List.append_nil]) fun _ => ?_
  exact slice_congr h.current fun c _ => by rw [h.procs]

theorem fields_pushReady (s : System) (i : Nat) :
    fields Proc.ticksLeft (s.pushReady i).procs = fields Proc.ticksLeft s.procs :=
  fields_modify_same s.procs i fun _ => rfl

theorem fields_addProc (s : System) (p : Proc) :
    fields Proc.ticksLeft (s.addProc p).2.procs =
      Function.update (fields Proc.ticksLeft s.procs) s.procs.length (some p.ticksLeft) := by
  rw [addProc, fields_pushReady, fields_append]

theorem turn_addProc {s s' : System} {p : Proc} {i : Nat} (h : (i, s') = s.addProc p)
    (hok : s.view.Ok) : Turn 0 s s' := by
  obtain ⟨rfl, rfl⟩ := Prod.mk.inj h
  refine .stay [s.procs.length] rfl rfl fun _ => ?_
  refine slice_congr rfl fun c hc => ?_
  obtain ⟨q, hq⟩ := exists_current hok hc
  have hlt : c < s.procs.length := (List.getElem?_eq_some_iff.mp hq).1
  have hfields := congrFun (fields_addProc s p) c
  rwa [Function.update_of_ne (by omega)] at hfields

theorem sliced_addProc {s s' : System} {p : Proc} {i : Nat} (h : (i, s') = s.addProc p)
    (hs : s.Sliced) (hp : p.ticksLeft = DEFAULT_TIME_SLICE_TICKS) : s'.Sliced := by
  obtain ⟨rfl, rfl⟩ := Prod.mk.inj h
  refine hs.update (i := s.procs.length) ?_ full_slice
  rw [← hp]
  exact fields_addProc s p

/-- `schedule` switches unless the queue is empty. -/
theorem takesOver_schedule {s s' : System} (hok : s.view.Ok) (h : s.schedule = some s') :
    (s.readyQueue = [] ∧ s' = s) ∨ TakesOver s s' := by
  rcases schedule_cases hok h with ⟨hq, rfl⟩ |
    ⟨old, next, rest, p, q, s₁, hq, hc, hne, _, hnext, hcases, rfl⟩
  · exact Or.inl ⟨hq, rfl⟩
  have hqueue : ∃ new, s₁.readyQueue = rest ++ new := by
    rcases hcases with ⟨_, rfl⟩ | ⟨_, rfl⟩
    · exact ⟨[old], rfl⟩
    · exact ⟨[], (List.append_nil rest).symm⟩
  obtain ⟨new, hnew⟩ := hqueue
  refine Or.inr ⟨next, rest, new, hq, ?_, rfl, hnew, ?_⟩
  · rw [hc]
    intro heq
    exact hne (Option.some.inj heq)
  · refine slice_eq rfl ?_
    simp only
    rw [fields_modify (x := DEFAULT_TIME_SLICE_TICKS) hnext fun _ => rfl, Function.update_self]

theorem sliced_schedule {s s' : System} (hok : s.view.Ok) (h : s.schedule = some s')
    (hs : s.Sliced) : s'.Sliced := by
  rcases schedule_cases hok h with ⟨_, rfl⟩ | ⟨old, next, rest, p, q, s₁, _, _, _, _, hnext, hcases, rfl⟩
  · exact hs
  have hsame : fields Proc.ticksLeft s₁.procs = fields Proc.ticksLeft s.procs := by
    rcases hcases with ⟨_, rfl⟩ | ⟨_, rfl⟩
    · exact fields_pushReady _ old
    · rfl
  refine hs.update (i := next) ?_ full_slice
  simp only
  rw [fields_modify (x := DEFAULT_TIME_SLICE_TICKS) hnext fun _ => rfl, hsame]

/-- `consume_tick` on a slice that is not used up. -/
theorem consumeTick_eq {t : Nat} (h : 1 ≤ t) :
    consumeTick t DEFAULT_TIME_SLICE_TICKS =
      if t = 1 then (DEFAULT_TIME_SLICE_TICKS, true) else (t - 1, false) := by
  unfold consumeTick
  simp only
  rw [if_pos (by omega : t > 0)]
  by_cases ht : t = 1
  · rw [if_pos ht, if_pos (by omega)]
  · rw [if_neg ht, if_neg (by omega)]

/-- What a tick does: nothing before the first process, else it is taken from the slice of the
process that runs, and `schedule` is called at the end of the slice. -/
theorem onTimerTick_cases {s s' : System} (hs : s.Sliced) (h : s.onTimerTick = some s') :
    (s.current = none ∧ s' = s) ∨
    ∃ c t s₁, s.current = some c ∧ fields Proc.ticksLeft s.procs c = some t ∧ 1 ≤ t ∧
      s₁.view = s.view ∧ s₁.readyQueue = s.readyQueue ∧ s₁.current = s.current ∧
      ((t = 1 ∧ s₁.schedule = some s' ∧ fields Proc.ticksLeft s₁.procs =
          Function.update (fields Proc.ticksLeft s.procs) c (some DEFAULT_TIME_SLICE_TICKS)) ∨
        (t ≠ 1 ∧ s' = s₁ ∧ fields Proc.ticksLeft s₁.procs =
          Function.update (fields Proc.ticksLeft s.procs) c (some (t - 1)))) := by
  unfold onTimerTick at h
  split at h
  · rename_i hc
    exact Or.inl ⟨hc, (Option.some.inj h).symm⟩
  · rename_i c hc
    simp only [Option.bind_eq_bind, Option.bind_eq_some_iff] at h
    obtain ⟨p, hp, h⟩ := h
    have hleft : fields Proc.ticksLeft s.procs c = some p.ticksLeft := by rw [fields, hp]; rfl
    have hpos := (hs c _ hleft).1
    have hview := s.view_setTicks c
    have hnew : ∀ n, fields Proc.ticksLeft (s.procs.modify c fun p => { p with ticksLeft := n }) =
        Function.update (fields Proc.ticksLeft s.procs) c (some n) := fun n =>
      fields_modify hp fun _ => rfl
    rw [consumeTick_eq hpos] at h
    by_cases ht : p.ticksLeft = 1
    · rw [if_pos ht] at h
      exact Or.inr ⟨c, p.ticksLeft, _, hc, hleft, hpos, hview _, rfl, rfl, Or.inl ⟨ht, h, hnew _⟩⟩
    · rw [if_neg ht] at h
      exact Or.inr ⟨c, p.ticksLeft, _, hc, hleft, hpos, hview _, rfl, rfl,
        Or.inr ⟨ht, (Option.some.inj h).symm, hnew _⟩⟩

theorem turn_onTimerTick {s s' : System} (hok : s.view.Ok) (hs : s.Sliced)
    (h : s.onTimerTick = some s') : Turn 1 s s' := by
  rcases onTimerTick_cases hs h with ⟨hc, rfl⟩ |
    ⟨c, t, s₁, hc, hleft, hpos, hview, hq, hcur, hcases⟩
  · have hempty := hok.empty_of_idle hc
    exact .stay [] rfl (List.append_nil _).symm fun hne => absurd hempty hne
  rcases hcases with ⟨_, hsched, _⟩ | ⟨_, rfl, hnew⟩
  · -- the slice is over: the queue is empty or the next process runs
    rcases takesOver_schedule (hview ▸ hok) hsched with ⟨hempty, rfl⟩ | hover
    · rw [hq] at hempty
      exact .stay [] hcur (by rw [hq, List.append_nil]) fun hne => absurd hempty hne
    · rw [TakesOver, hq, hcur] at hover
      exact .switch hover
  · refine .stay [] hcur (by rw [hq, List.append_nil]) fun _ => ?_
    rw [slice_eq (hcur.trans hc) (by rw [hnew, Function.update_self]), slice_eq hc hleft]
    omega

theorem sliced_onTimerTick {s s' : System} (hok : s.view.Ok) (hs : s.Sliced)
    (h : s.onTimerTick = some s') : s'.Sliced := by
  rcases onTimerTick_cases hs h with ⟨_, rfl⟩ | ⟨c, t, s₁, _, hleft, hpos, hview, _, _, hcases⟩
  · exact hs
  have hle := (hs c t hleft).2
  rcases hcases with ⟨_, hsched, hnew⟩ | ⟨hne, rfl, hnew⟩
  · exact sliced_schedule (hview ▸ hok) hsched (hs.update hnew full_slice)
  · exact hs.update hnew ⟨by omega, by omega⟩

/-- Setting the state of a process shows neither in the queue nor in the slices. -/
theorem turn_exitCurrent {s s' : System} (hok : s.view.Ok) (h : s.exitCurrent = some s') :
    Turn 0 s s' ∧ (s.Sliced → s'.Sliced) := by
  unfold exitCurrent at h
  split at h
  · rename_i hc
    refine ⟨?_, sliced_schedule hok h⟩
    rcases takesOver_schedule hok h with ⟨_, rfl⟩ | hover
    · exact .same ⟨rfl, rfl, rfl⟩
    · exact .switch hover
  · rename_i c hc
    obtain ⟨p, hp⟩ := exists_current hok hc
    have hok' : (s.setState c .Exited).view.Ok := view_setState hp _ ▸ hok.move (.exit hc)
    have hfields : fields Proc.ticksLeft (s.setState c .Exited).procs =
        fields Proc.ticksLeft s.procs := fields_modify_same s.procs c fun _ => rfl
    refine ⟨?_, fun hs => sliced_schedule hok' h (hs.same hfields)⟩
    rcases takesOver_schedule hok' h with ⟨_, rfl⟩ | hover
    · refine .stay [] rfl (List.append_nil _).symm fun _ => ?_
      exact slice_congr rfl fun i _ => congrFun hfields i
    · exact .switch hover

theorem init_of_current {s s' : System} {c : Nat} (hc : s.current = some c)
    (h : s.init = some s') : s' = s := by
  rw [init, hc] at h
  exact (Option.some.inj h).symm

theorem sliced_init {s s' : System} (hs : s.Sliced) (h : s.init = some s') : s'.Sliced := by
  unfold init at h
  split at h
  · exact Option.some.inj h ▸ hs
  · obtain ⟨pml4, _, rfl⟩ := Option.map_eq_some_iff.mp h
    refine hs.update (i := s.procs.length) ?_ full_slice
    simp only
    rw [fields_append]

theorem Turn.of_same {n : Nat} {s s₁ s' : System} (hsame : Same s s₁) (h : Turn n s₁ s') :
    Turn n s s' := by
  have hslice : s₁.slice = s.slice := slice_congr hsame.current fun c _ => by rw [hsame.procs]
  cases h with
  | stay new hc hq hs =>
    rw [hsame.current] at hc
    rw [hsame.readyQueue] at hq hs
    exact .stay new hc hq (hslice ▸ hs)
  | switch hover =>
    rw [TakesOver, hsame.readyQueue, hsame.current] at hover
    exact .switch hover

/-- **One step of the kernel**, once there is a process. -/
theorem Does.turn {s s' : System} {e : Event} {c : Nat} (h : Does s e s') (hok : s.view.Ok)
    (hs : s.Sliced) (hc : s.current = some c) : Turn (if e.isTick then 1 else 0) s s' := by
  cases h with
  | write m _ => exact .same ⟨rfl, rfl, rfl⟩
  | call a h =>
    have hquiet : a ≠ .onTimerTick → (Event.call a).isTick = false := by
      intro ha
      cases a <;> first | rfl | exact absurd rfl ha
    cases exec_effect h with
    | none ha hsame =>
      rw [hquiet ha]
      exact .same hsame
    | init ha hinit hsame =>
      obtain rfl := init_of_current hc hinit
      rw [hquiet ha]
      exact .same hsame
    | create ha hinit hadd _ hsame =>
      obtain rfl := init_of_current hc hinit
      rw [hquiet ha]
      exact (turn_addProc hadd (hsame.view ▸ hok)).of_same hsame
    | yieldNow h =>
      rcases takesOver_schedule hok h with ⟨_, rfl⟩ | hover
      · exact .same ⟨rfl, rfl, rfl⟩
      · exact .switch hover
    | onTimerTick h => exact turn_onTimerTick hok hs h
    | exitCurrent h => exact (turn_exitCurrent hok h).1

theorem Sliced.of_same {s s' : System} (h : s.Sliced) (hsame : Same s s') : s'.Sliced :=
  h.same (by rw [hsame.procs])

theorem Step.sliced {s s' : System} (h : Step s s') (hok : s.view.Ok) (hs : s.Sliced) :
    s'.Sliced := by
  cases h with
  | write m _ => exact hs
  | call a h =>
    cases exec_effect h with
    | none _ hsame => exact hs.of_same hsame
    | init _ hinit hsame => exact (sliced_init hs hinit).of_same hsame
    | create _ hinit hadd hp hsame =>
      exact sliced_addProc hadd ((sliced_init hs hinit).of_same hsame) hp
    | yieldNow h => exact sliced_schedule hok h hs
    | onTimerTick h => exact sliced_onTimerTick hok hs h
    | exitCurrent h => exact (turn_exitCurrent hok h).2 hs

/-! ### Runs -/

theorem steps_ok {s₀ s : System} (hstart : s₀.Unstarted) (hrun : Steps s₀ s) :
    s.view.Ok ∧ s.Sliced := by
  induction hrun with
  | refl =>
    refine ⟨hstart.ok, fun i t ht => ?_⟩
    rw [fields, hstart.1] at ht
    simp at ht
  | tail _ h ih =>
    obtain ⟨hok, hs⟩ := ih
    exact ⟨hok.moves (step_moves hok h), h.sliced hok hs⟩

/-- Process `q` was at position `k` of the queue, `n` switches and `t` ticks ago. -/
structure Waits (q k n t : Nat) (s : System) : Prop where
  queued : n ≤ k → s.readyQueue[k - n]? = some q
  early : n ≤ k → t + s.slice ≤ DEFAULT_TIME_SLICE_TICKS * (n + 1)
  runs : n = k + 1 → s.current = some q

/-- **One step while a process waits**: each switch takes it one place forward, and there are no
more ticks between two switches than a slice has. -/
theorem Waits.turn {q k n t d : Nat} {s s' : System} (h : Waits q k n t s) (hturn : Turn d s s')
    (hs : 1 ≤ s.slice) (hd : d ≤ 1) :
    Waits q k (n + if s'.current ≠ s.current then 1 else 0) (t + d) s' := by
  have hne : n ≤ k → s.readyQueue ≠ [] := by
    intro hn hempty
    have hget := h.queued hn
    rw [hempty] at hget
    simp at hget
  cases hturn with
  | stay new hc hq hslice =>
    rw [if_neg (not_not.mpr hc), Nat.add_zero]
    refine ⟨fun hn => ?_, fun hn => ?_, fun hn => ?_⟩
    · have hget := h.queued hn
      rw [hq, List.getElem?_append_left (List.getElem?_eq_some_iff.mp hget).1]
      exact hget
    · have hearly := h.early hn
      have htick := hslice (hne hn)
      omega
    · rw [hc]
      exact h.runs hn
  | switch hover =>
    obtain ⟨next, rest, new, hq, hnext, hc, hq', hfull⟩ := hover
    have hchange : s'.current ≠ s.current := by
      rw [hc]
      exact hnext.symm
    rw [if_pos hchange]
    refine ⟨fun hn => ?_, fun hn => ?_, fun hn => ?_⟩
    · have hget := h.queued (by omega)
      rw [hq, show k - n = k - (n + 1) + 1 by omega, List.getElem?_cons_succ] at hget
      rw [hq', List.getElem?_append_left (List.getElem?_eq_some_iff.mp hget).1]
      exact hget
    · have hearly := h.early (by omega)
      rw [hfull, Nat.mul_succ]
      omega
    · have hget := h.queued (by omega)
      rw [hq, show k - n = 0 by omega, List.getElem?_cons_zero] at hget
      rw [hc]
      exact hget

theorem slice_bounds {s : System} {c : Nat} (hok : s.view.Ok) (hs : s.Sliced)
    (hc : s.current = some c) : 1 ≤ s.slice ∧ s.slice ≤ DEFAULT_TIME_SLICE_TICKS := by
  obtain ⟨p, hp⟩ := exists_current hok hc
  have hleft : fields Proc.ticksLeft s.procs c = some p.ticksLeft := by rw [fields, hp]; rfl
  rw [slice_eq hc hleft]
  exact hs c _ hleft

/-- While a process waits, another one runs. -/
theorem exists_current_of_mem {q : Nat} {s : System} (hok : s.view.Ok) (hq : q ∈ s.view.queue) :
    ∃ c, s.current = some c := by
  refine Option.ne_none_iff_exists'.mp fun hc => ?_
  rw [hok.empty_of_idle hc] at hq
  cases hq

theorem Waits.exists_current {q k n t : Nat} {s : System} (h : Waits q k n t s) (hok : s.view.Ok)
    (hn : n ≤ k + 1) : ∃ c, s.current = some c := by
  rcases Nat.lt_or_ge k n with hlt | hge
  · exact ⟨q, h.runs (by omega)⟩
  · exact exists_current_of_mem hok (List.mem_of_getElem? (h.queued hge))

section Run

variable {s₀ : System} {σ : Nat → System} {e : Nat → Event} {N : Nat}

theorem switches_succ (σ : Nat → System) (i : Nat) : switches σ (i + 1) =
    switches σ i + if (σ (i + 1)).current ≠ (σ i).current then 1 else 0 := Nat.count_succ _ _

theorem ticks_succ (e : Nat → Event) (i : Nat) :
    ticks e (i + 1) = ticks e i + if (e i).isTick then 1 else 0 := Nat.count_succ _ _

theorem run_ok (hstart : s₀.Unstarted) (hreach : Steps s₀ (σ 0))
    (hrun : ∀ i < N, Does (σ i) (e i) (σ (i + 1))) :
    ∀ i ≤ N, (σ i).view.Ok ∧ (σ i).Sliced := by
  have hsteps : ∀ i ≤ N, Steps s₀ (σ i) := by
    intro i
    induction i with
    | zero => exact fun _ => hreach
    | succ i ih => exact fun hi => (ih (by omega)).tail (hrun i (by omega)).step
  exact fun i hi => steps_ok hstart (hsteps i hi)

/-- **A run while a process waits**, up to the switch to it and on to the next one. -/
theorem run_waits (hok : ∀ i ≤ N, (σ i).view.Ok ∧ (σ i).Sliced)
    (hrun : ∀ i < N, Does (σ i) (e i) (σ (i + 1))) {q k : Nat}
    (hq : (σ 0).readyQueue[k]? = some q) :
    ∀ i ≤ N, switches σ i ≤ k + 1 → Waits q k (switches σ i) (ticks e i) (σ i) := by
  intro i
  induction i with
  | zero =>
    intro _ _
    obtain ⟨hok₀, hs₀⟩ := hok 0 (by omega)
    obtain ⟨c, hc⟩ := exists_current_of_mem hok₀ (List.mem_of_getElem? hq)
    have hle := (slice_bounds hok₀ hs₀ hc).2
    rw [switches, ticks, Nat.count_zero, Nat.count_zero]
    exact ⟨fun _ => hq, fun _ => by omega, fun h => by omega⟩
  | succ i ih =>
    intro hi hn
    rw [switches_succ] at hn
    have hw := ih (by omega) (by omega)
    obtain ⟨hok', hs⟩ := hok i (by omega)
    obtain ⟨c, hc⟩ := hw.exists_current hok' (by omega)
    rw [switches_succ, ticks_succ]
    exact hw.turn ((hrun i (by omega)).turn hok' hs hc) (slice_bounds hok' hs hc).1
      (by split <;> omega)

/-- **Waiting is bounded.**  Take any run from a reachable state.  In each of its states all
processes have between one and `DEFAULT_TIME_SLICE_TICKS` ticks left.  A process at position `k`
of the queue is not run by the next `k` switches, which take it to the front, and is run by the one
after; and when `DEFAULT_TIME_SLICE_TICKS * (k + 1)` ticks have passed, it has been run by then. -/
theorem bounded_waiting (hstart : s₀.Unstarted) (hreach : Steps s₀ (σ 0))
    (hrun : ∀ i < N, Does (σ i) (e i) (σ (i + 1))) :
    (∀ i ≤ N, ∀ p ∈ (σ i).procs, 1 ≤ p.ticksLeft ∧ p.ticksLeft ≤ DEFAULT_TIME_SLICE_TICKS) ∧
    ∀ q k, (σ 0).readyQueue[k]? = some q → ∀ i ≤ N,
      (switches σ i ≤ k →
        (σ i).readyQueue[k - switches σ i]? = some q ∧ (σ i).current ≠ some q) ∧
      (switches σ i = k + 1 → (σ i).current = some q) ∧
      (DEFAULT_TIME_SLICE_TICKS * (k + 1) ≤ ticks e i →
        ∃ j ≤ i, switches σ j = k + 1 ∧ (σ j).current = some q ∧
          ticks e j ≤ DEFAULT_TIME_SLICE_TICKS * (k + 1)) := by
  have hok := run_ok hstart hreach hrun
  refine ⟨fun i hi p hp => ?_, fun q k hq i hi => ?_⟩
  · obtain ⟨j, hj⟩ := List.mem_iff_getElem?.mp hp
    exact (hok i hi).2 j _ (by rw [fields, hj]; rfl)
  have hwaits := run_waits hok hrun hq
  -- before the switch to it, the ticks of the slices are not used up
  have hearly : ∀ j ≤ N, switches σ j ≤ k →
      ticks e j < DEFAULT_TIME_SLICE_TICKS * (k + 1) := by
    intro j hj hn
    have hw := hwaits j hj (by omega)
    obtain ⟨c, hc⟩ := hw.exists_current (hok j hj).1 (by omega)
    have hpos := (slice_bounds (hok j hj).1 (hok j hj).2 hc).1
    have hle := hw.early hn
    have hmono : DEFAULT_TIME_SLICE_TICKS * (switches σ j + 1) ≤ DEFAULT_TIME_SLICE_TICKS * (k + 1) :=
      Nat.mul_le_mul_left _ (by omega)
    omega
  refine ⟨fun hn => ?_, fun hn => (hwaits i hi (by omega)).runs hn, fun ht => ?_⟩
  · have hget := (hwaits i hi (by omega)).queued hn
    refine ⟨hget, fun hc => ?_⟩
    exact (hok i hi).1.current_not_mem hc (List.mem_of_getElem? hget)
  · have hlt : k < switches σ i := by
      by_contra hle
      have := hearly i hi (by omega)
      omega
    -- the step that switches to it
    have hcard := fun hf => hlt.trans_le (Nat.count_le_card hf i)
    have hj := Nat.nth_lt_of_lt_count hlt
    have hbefore := Nat.count_nth hcard
    have hafter := Nat.count_nth_succ hcard
    generalize Nat.nth (fun i => (σ (i + 1)).current ≠ (σ i).current) k = j at hj hbefore hafter
    have hsw : switches σ (j + 1) = k + 1 := hafter
    refine ⟨j + 1, hj, hsw, (hwaits (j + 1) (by omega) (by omega)).runs hsw, ?_⟩
    have hbound := hearly j (by omega) (le_of_eq hbefore)
    rw [ticks_succ]
    split <;> omega

theorem TaskWaits.tick {s : System} {left : Nat} (h : TaskWaits s (left + 2)) :
    ∃ s', s.exec .onTimerTick = some s' ∧ TaskWaits s' (left + 1) := by
  obtain ⟨p, q, hp, hrunning, hticks⟩ := h.procs
  refine ⟨{ s with procs := [{ p with ticksLeft := left + 1 }, q] }, ?_, h.current, h.queue,
    _, _, rfl, hrunning, rfl⟩
  simp [exec, onTimerTick, h.current, hp, hticks, consumeTick]

theorem TaskWaits.lastTick {s : System} (h : TaskWaits s 1) : (s.exec .onTimerTick).isSome = true := by
  obtain ⟨p, q, hp, hrunning, hticks⟩ := h.procs
  simp [exec, onTimerTick, h.current, hp, hticks, consumeTick, schedule, h.queue, requeue, switchTo,
    pushReady, setState, hrunning]

/-- The boot process starts a kernel task, which runs after the five ticks of one slice. -/
theorem bounded_waiting_kernel_task : ∃ s₀ : System, ∃ σ : Nat → System, machineBoot = some s₀ ∧
    s₀.Unstarted ∧ Steps s₀ (σ 0) ∧ (∀ i < 5, (σ i).exec .onTimerTick = some (σ (i + 1))) ∧
    (σ 0).readyQueue = [1] ∧ ∃ j ≤ 5, switches σ j = 1 ∧ (σ j).current = some 1 := by
  obtain ⟨s₀, s₁, s, hboot, hstart, hlow, _, hspawn, hwaits⟩ := machine_spawnKernel 0
  have hexec : s₁.exec (.spawnKernel 0) = some s := by
    rw [exec, hspawn]
    rfl
  have hsteps : Steps s₀ s := .tail (steps_of_low hlow) (.call _ hexec)
  have hleft : ∀ i < 5, TaskWaits ((fun s => (s.exec .onTimerTick).getD s)^[i] s) (5 - i) := by
    intro i
    induction i with
    | zero => exact fun _ => hwaits
    | succ i ih =>
      intro hi
      have h := ih (by omega)
      rw [show 5 - i = (3 - i) + 2 by omega] at h
      obtain ⟨s', he, h'⟩ := h.tick
      rw [Function.iterate_succ_apply', he, Option.getD_some, show 5 - (i + 1) = 3 - i + 1 by omega]
      exact h'
  have hticks : ∀ i < 5, ((fun s => (s.exec .onTimerTick).getD s)^[i] s).exec .onTimerTick =
      some ((fun s => (s.exec .onTimerTick).getD s)^[i + 1] s) := by
    intro i hi
    have hsome : (((fun s => (s.exec .onTimerTick).getD s)^[i] s).exec .onTimerTick).isSome = true := by
      have h := hleft i hi
      by_cases hlast : i = 4
      · rw [show 5 - i = 1 by omega] at h
        exact h.lastTick
      · rw [show 5 - i = (3 - i) + 2 by omega] at h
        obtain ⟨s', he, _⟩ := h.tick
        rw [he]
        rfl
    obtain ⟨s', hs'⟩ := Option.isSome_iff_exists.mp hsome
    rw [Function.iterate_succ_apply', hs', Option.getD_some]
  have hbound := (bounded_waiting (σ := fun i => (fun s => (s.exec .onTimerTick).getD s)^[i] s)
    (e := fun _ => .call .onTimerTick) hstart hsteps fun i hi => .call _ (hticks i hi)).2 1 0
      (by simp [hwaits.queue]) 5 (le_refl 5)
  obtain ⟨j, hj, hsw, hc, _⟩ := hbound.2.2 (by decide)
  exact ⟨s₀, _, hboot, hstart, hsteps, hticks, hwaits.queue, j, hj, hsw, hc⟩

end Run

end System

end Zeronix
