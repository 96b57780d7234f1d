import Zeronix.Task.Runs

/-!
# The scheduler

The scheduler keeps a process in two places, its `state` field and the ready queue.  A `View`
has just these two and the current process.  It moves in five ways: the first process appears,
a process is created, the current one exits, and the first of the queue takes over from a
process that goes to the end of the queue or that leaves.

Each step of the kernel is a sequence of such moves (`step_moves`), and the moves keep the two
places in agreement (`View.Ok`).
-/

namespace Zeronix

/-! ### Views -/

structure View where
  st : Nat → Option ProcState
  queue : List Nat
  current : Option Nat

namespace View

/-- The state field and the queue agree. -/
structure Ok (v : View) : Prop where
  nodup : v.queue.Nodup
  ready : ∀ i ∈ v.queue, v.st i = some .Ready
  current : ∀ c, v.current = some c → v.st c = some .Running ∨ v.st c = some .Exited
  running : ∀ i, v.st i = some .Running → v.current = some i
  placed : ∀ i x, v.st i = some x → x ≠ .Exited → v.current = some i ∨ i ∈ v.queue
  idle : v.current = none → ∀ i, v.st i = none

inductive Move : View → View → Prop
  | boot {v : View} (n : Nat) : v.current = none →
      Move v { v with st := Function.update v.st n (some .Running), current := some n }
  | create {v : View} {c : Nat} (n : Nat) : v.current = some c → v.st n = none →
      Move v { v with st := Function.update v.st n (some .Ready), queue := v.queue ++ [n] }
  | exit {v : View} {c : Nat} : v.current = some c →
      Move v { v with st := Function.update v.st c (some .Exited) }
  | rotate {v : View} {c next : Nat} {rest : List Nat} : v.current = some c →
      v.st c = some .Running → v.queue = next :: rest →
      Move v {
        st := Function.update (Function.update v.st c (some .Ready)) next (some .Running)
        queue := rest ++ [c]
        current := some next }
  | leave {v : View} {c next : Nat} {rest : List Nat} : v.current = some c →
      v.st c ≠ some .Running → v.queue = next :: rest →
      Move v {
        st := Function.update v.st next (some .Running)
        queue := rest
        current := some next }

abbrev Moves : View → View → Prop := Relation.ReflTransGen Move

theorem Ok.current_not_mem {v : View} (h : v.Ok) {c : Nat} (hc : v.current = some c) :
    c ∉ v.queue := by
  intro hm
  have hready := h.ready c hm
  rcases h.current c hc with hr | hr <;> rw [hr] at hready <;> simp at hready

theorem Ok.empty_of_idle {v : View} (h : v.Ok) (hc : v.current = none) : v.queue = [] := by
  cases hq : v.queue with
  | nil => rfl
  | cons i rest =>
    have hready := h.ready i (by rw [hq]; exact List.mem_cons_self)
    rw [h.idle hc i] at hready
    simp at hready

theorem Ok.boot {v : View} (h : v.Ok) (n : Nat) (hc : v.current = none) :
    Ok { v with st := Function.update v.st n (some .Running), current := some n } := by
  have hnone := h.idle hc
  have hq := h.empty_of_idle hc
  refine ⟨h.nodup, ?_, ?_, ?_, ?_, ?_⟩
  · intro i hi
    rw [hq] at hi
    simp at hi
  · intro c hc'
    obtain rfl := Option.some.inj hc'
    exact Or.inl (Function.update_self ..)
  · intro i hi
    by_cases hin : i = n
    · rw [hin]
    · simp [Function.update_of_ne hin, hnone i] at hi
  · intro i x hi _
    by_cases hin : i = n
    · exact Or.inl (by rw [hin])
    · simp [Function.update_of_ne hin, hnone i] at hi
  · intro hn
    simp at hn

/-- A new process waits at the end of the queue. -/
theorem Ok.create {v : View} (h : v.Ok) {c n : Nat} (hc : v.current = some c) (hnone : v.st n = none) :
    Ok { v with st := Function.update v.st n (some .Ready), queue := v.queue ++ [n] } := by
  have hcn : c ≠ n := by
    rintro rfl
    rcases h.current c hc with hr | hr <;> rw [hnone] at hr <;> simp at hr
  have hold : ∀ {i x}, v.st i = some x → i ≠ n := by
    rintro i x hi rfl
    rw [hnone] at hi
    simp at hi
  refine ⟨?_, ?_, ?_, ?_, ?_, ?_⟩
  · refine List.nodup_append.mpr ⟨h.nodup, List.nodup_singleton n, ?_⟩
    intro i hi j hj
    rw [List.mem_singleton.mp hj]
    exact hold (h.ready i hi)
  · intro i hi
    rcases List.mem_append.mp hi with hi | hi
    · exact (Function.update_of_ne (hold (h.ready i hi)) ..).trans (h.ready i hi)
    · rw [List.mem_singleton.mp hi]
      exact Function.update_self ..
  · intro c' hc'
    obtain rfl := Option.some.inj (hc.symm.trans hc')
    simpa only [Function.update_of_ne hcn] using h.current c hc
  · intro i hi
    by_cases hin : i = n
    · simp [hin] at hi
    · simp only [Function.update_of_ne hin] at hi
      exact h.running i hi
  · intro i x hi hx
    by_cases hin : i = n
    · exact Or.inr (by simp [hin])
    · simp only [Function.update_of_ne hin] at hi
      exact (h.placed i x hi hx).imp_right fun hq => List.mem_append_left _ hq
  · intro hn
    simp only at hn
    rw [hc] at hn
    simp at hn

theorem Ok.exit {v : View} (h : v.Ok) {c : Nat} (hc : v.current = some c) :
    Ok { v with st := Function.update v.st c (some .Exited) } := by
  have hmem := h.current_not_mem hc
  refine ⟨h.nodup, ?_, ?_, ?_, ?_, ?_⟩
  · intro i hi
    have hne : i ≠ c := by
      rintro rfl
      exact hmem hi
    exact (Function.update_of_ne hne ..).trans (h.ready i hi)
  · intro c' hc'
    obtain rfl := Option.some.inj (hc.symm.trans hc')
    exact Or.inr (Function.update_self ..)
  · intro i hi
    by_cases hic : i = c
    · simp [hic] at hi
    · simp only [Function.update_of_ne hic] at hi
      exact h.running i hi
  · intro i x hi hx
    by_cases hic : i = c
    · subst hic
      simp only [Function.update_self, Option.some.injEq] at hi
      exact absurd hi.symm hx
    · simp only [Function.update_of_ne hic] at hi
      exact h.placed i x hi hx
  · intro hn
    simp only at hn
    rw [hc] at hn
    simp at hn

/-- The first of the queue runs, and the process that ran goes to its end. -/
theorem Ok.rotate {v : View} (h : v.Ok) {c next : Nat} {rest : List Nat} (hc : v.current = some c)
    (hq : v.queue = next :: rest) :
    Ok {
      st := Function.update (Function.update v.st c (some .Ready)) next (some .Running)
      queue := rest ++ [c]
      current := some next } := by
  have hmem := h.current_not_mem hc
  have hnd := h.nodup
  rw [hq] at hmem hnd
  obtain ⟨hnext, hnd⟩ := List.nodup_cons.mp hnd
  have hcn : c ≠ next := by
    rintro rfl
    exact hmem List.mem_cons_self
  have hcr : c ∉ rest := fun hm => hmem (List.mem_cons_of_mem _ hm)
  refine ⟨?_, ?_, ?_, ?_, ?_, ?_⟩
  · refine List.nodup_append.mpr ⟨hnd, List.nodup_singleton c, ?_⟩
    intro i hi j hj heq
    rw [List.mem_singleton.mp hj] at heq
    exact hcr (heq ▸ hi)
  · intro i hi
    rcases List.mem_append.mp hi with hi | hi
    · have hin : i ≠ next := fun heq => hnext (heq ▸ hi)
      have hic : i ≠ c := fun heq => hcr (heq ▸ hi)
      simp only [Function.update_of_ne hin, Function.update_of_ne hic]
      exact h.ready i (by rw [hq]; exact List.mem_cons_of_mem _ hi)
    · obtain rfl := List.mem_singleton.mp hi
      simp only [Function.update_of_ne hcn, Function.update_self]
  · intro c' hc'
    obtain rfl := Option.some.inj hc'
    exact Or.inl (Function.update_self ..)
  · intro i hi
    by_cases hin : i = next
    · rw [hin]
    · by_cases hic : i = c
      · simp [hic, Function.update_of_ne hcn] at hi
      · simp only [Function.update_of_ne hin, Function.update_of_ne hic] at hi
        have := h.running i hi
        rw [hc] at this
        exact absurd (Option.some.inj this).symm hic
  · intro i x hi hx
    by_cases hin : i = next
    · exact Or.inl (by rw [hin])
    · by_cases hic : i = c
      · exact Or.inr (by simp [hic])
      · simp only [Function.update_of_ne hin, Function.update_of_ne hic] at hi
        rcases h.placed i x hi hx with hcur | hm
        · rw [hc] at hcur
          exact absurd (Option.some.inj hcur).symm hic
        · rw [hq] at hm
          rcases List.mem_cons.mp hm with heq | hm
          · exact absurd heq hin
          · exact Or.inr (List.mem_append_left _ hm)
  · intro hn
    simp at hn

/-- The first of the queue runs, and the process that ran is done. -/
theorem Ok.leave {v : View} (h : v.Ok) {c next : Nat} {rest : List Nat} (hc : v.current = some c)
    (hrun : v.st c ≠ some .Running) (hq : v.queue = next :: rest) :
    Ok {
      st := Function.update v.st next (some .Running)
      queue := rest
      current := some next } := by
  have hex : v.st c = some .Exited := (h.current c hc).resolve_left hrun
  have hnd := h.nodup
  rw [hq] at hnd
  obtain ⟨hnext, hnd⟩ := List.nodup_cons.mp hnd
  refine ⟨hnd, ?_, ?_, ?_, ?_, ?_⟩
  · intro i hi
    have hin : i ≠ next := fun heq => hnext (heq ▸ hi)
    simp only [Function.update_of_ne hin]
    exact h.ready i (by rw [hq]; exact List.mem_cons_of_mem _ hi)
  · intro c' hc'
    obtain rfl := Option.some.inj hc'
    exact Or.inl (Function.update_self ..)
  · intro i hi
    by_cases hin : i = next
    · rw [hin]
    · simp only [Function.update_of_ne hin] at hi
      have := h.running i hi
      rw [hc] at this
      obtain rfl := Option.some.inj this
      exact absurd hi hrun
  · intro i x hi hx
    by_cases hin : i = next
    · exact Or.inl (by rw [hin])
    · simp only [Function.update_of_ne hin] at hi
      rcases h.placed i x hi hx with hcur | hm
      · rw [hc] at hcur
        obtain rfl := Option.some.inj hcur
        rw [hex] at hi
        exact absurd (Option.some.inj hi).symm hx
      · rw [hq] at hm
        rcases List.mem_cons.mp hm with heq | hm
        · exact absurd heq hin
        · exact Or.inr hm
  · intro hn
    simp at hn

/-- **One move keeps the state fields and the queue in agreement.** -/
theorem Ok.move {v v' : View} (h : v.Ok) (hm : Move v v') : v'.Ok := by
  cases hm with
  | boot n hc => exact h.boot n hc
  | create n hc hnone => exact h.create hc hnone
  | exit hc => exact h.exit hc
  | rotate hc _ hq => exact h.rotate hc hq
  | leave hc hrun hq => exact h.leave hc hrun hq

theorem Ok.moves {v v' : View} (h : v.Ok) (hm : Moves v v') : v'.Ok := by
  induction hm with
  | refl => exact h
  | tail _ hm ih => exact ih.move hm

/-- Exited, and not the current process any more. -/
def Gone (v : View) (i : Nat) : Prop := v.st i = some .Exited ∧ v.current ≠ some i

/-- **A process that is gone stays gone.** -/
theorem Gone.move {v v' : View} {i : Nat} (h : v.Ok) (hg : v.Gone i) (hm : Move v v') :
    v'.Gone i := by
  obtain ⟨hex, hcur⟩ := hg
  have hnq : ∀ {next rest}, v.queue = next :: rest → i ≠ next := by
    rintro next rest hq rfl
    have hready := h.ready i (by rw [hq]; exact List.mem_cons_self)
    rw [hex] at hready
    simp at hready
  cases hm with
  | boot n hc =>
    rw [h.idle hc i] at hex
    simp at hex
  | create n hc hnone =>
    have hin : i ≠ n := by
      rintro rfl
      rw [hex] at hnone
      simp at hnone
    exact ⟨(Function.update_of_ne hin ..).trans hex, hcur⟩
  | exit hc =>
    refine ⟨(Function.update_of_ne ?_ ..).trans hex, hcur⟩
    rintro rfl
    exact hcur hc
  | rotate hc hrun hq =>
    refine ⟨?_, fun heq => hnq hq (Option.some.inj heq).symm⟩
    have hic : i ≠ _ := fun heq => hcur (by rw [hc, heq])
    simp only [Function.update_of_ne (hnq hq), Function.update_of_ne hic, hex]
  | leave hc hrun hq =>
    exact ⟨(Function.update_of_ne (hnq hq) ..).trans hex, fun heq => hnq hq (Option.some.inj heq).symm⟩

theorem Gone.moves {v v' : View} {i : Nat} (h : v.Ok) (hg : v.Gone i) (hm : Moves v v') :
    v'.Gone i := by
  induction hm with
  | refl => exact hg
  | tail hms hm ih => exact ih.move (h.moves hms) hm

end View

/-! ### The kernel as a view -/

namespace System

open View

/-- One field of the processes. -/
def fields {α : Type} (get : Proc → α) (procs : List Proc) (i : Nat) : Option α := procs[i]?.map get

theorem fields_append {α : Type} (get : Proc → α) (procs : List Proc) (p : Proc) :
    fields get (procs ++ [p]) =
      Function.update (fields get procs) procs.length (some (get p)) := by
  funext i
  by_cases hi : i = procs.length
  · rw [hi, Function.update_self, fields, List.getElem?_concat_length]
    rfl
  · rw [Function.update_of_ne hi, fields, List.getElem?_append]
    split
    · rfl
    · rw [fields, List.getElem?_eq_none (l := procs) (by omega), List.getElem?_singleton,
        if_neg (by omega)]

theorem fields_modify {α : Type} {get : Proc → α} {procs : List Proc} {i : Nat} {p : Proc}
    (hp : procs[i]? = some p) {f : Proc → Proc} {x : α} (hx : ∀ q, get (f q) = x) :
    fields get (procs.modify i f) = Function.update (fields get procs) i (some x) := by
  funext j
  rw [fields, List.getElem?_modify]
  by_cases hj : j = i
  · rw [hj, Function.update_self, hp]
    simp [hx]
  · rw [Function.update_of_ne hj]
    simp [Ne.symm hj, fields]

/-- A change of another field does not show. -/
theorem fields_modify_same {α : Type} {get : Proc → α} (procs : List Proc) (i : Nat)
    {f : Proc → Proc} (hf : ∀ q, get (f q) = get q) :
    fields get (procs.modify i f) = fields get procs := by
  funext j
  rw [fields, List.getElem?_modify]
  by_cases hj : i = j
  · simp [hj, Function.comp_def, hf, fields]
  · simp [hj, fields]

/-- The state fields of the processes. -/
def states (procs : List Proc) (i : Nat) : Option ProcState := procs[i]?.map Proc.state

def view (s : System) : View where
  st := states s.procs
  queue := s.readyQueue
  current := s.current

theorem states_append (procs : List Proc) (p : Proc) :
    states (procs ++ [p]) = Function.update (states procs) procs.length (some p.state) :=
  fields_append Proc.state procs p

theorem states_modify {procs : List Proc} {i : Nat} {p : Proc} (hp : procs[i]? = some p)
    {f : Proc → Proc} {x : ProcState} (hx : ∀ q, (f q).state = x) :
    states (procs.modify i f) = Function.update (states procs) i (some x) := fields_modify hp hx

theorem states_modify_same (procs : List Proc) (i : Nat) {f : Proc → Proc}
    (hf : ∀ q, (f q).state = q.state) : states (procs.modify i f) = states procs :=
  fields_modify_same procs i hf

theorem view_setState {s : System} {i : Nat} {p : Proc} (hp : s.procs[i]? = some p) (x : ProcState) :
    (s.setState i x).view = { s.view with st := Function.update s.view.st i (some x) } := by
  simp only [setState, view]
  rw [states_modify (x := x) hp fun _ => rfl]

/-- The scheduler does not see the time slices. -/
theorem view_setTicks (s : System) (i ticks : Nat) :
    System.view { s with procs := s.procs.modify i fun p => { p with ticksLeft := ticks } } =
      s.view := by
  have hst := states_modify_same s.procs i (f := fun p => { p with ticksLeft := ticks }) fun _ => rfl
  simp only [view, hst]

theorem exists_proc {s : System} {i : Nat} {x : ProcState} (h : s.view.st i = some x) :
    ∃ p, s.procs[i]? = some p ∧ p.state = x := Option.map_eq_some_iff.mp h

theorem exists_current {s : System} (h : s.view.Ok) {c : Nat} (hc : s.current = some c) :
    ∃ p, s.procs[c]? = some p := by
  rcases h.current c hc with hr | hr
  · exact (exists_proc hr).imp fun _ hp => hp.1
  · exact (exists_proc hr).imp fun _ hp => hp.1

theorem init_moves {s s' : System} (h : s.init = some s') :
    Moves s.view s'.view ∧ ∃ c, s'.current = some c := by
  unfold init at h
  split at h
  · rename_i hc
    obtain rfl := Option.some.inj h
    exact ⟨.refl, Option.isSome_iff_exists.mp hc⟩
  · rename_i hc
    obtain ⟨pml4, _, rfl⟩ := Option.map_eq_some_iff.mp h
    refine ⟨.single ?_, _, rfl⟩
    have hnone : s.current = none := by simpa using hc
    have hmove := Move.boot (v := s.view) s.procs.length hnone
    simpa only [view, states_append] using hmove

theorem addProc_moves {s s' : System} {p : Proc} {i c : Nat} (h : (i, s') = s.addProc p)
    (hc : s.current = some c) : Moves s.view s'.view := by
  obtain ⟨rfl, rfl⟩ := Prod.mk.inj h
  refine .single ?_
  have hnone : states s.procs s.procs.length = none := by simp [states]
  have hmove := Move.create (v := s.view) s.procs.length hc hnone
  have hlast : (s.procs ++ [p])[s.procs.length]? = some p := List.getElem?_concat_length
  simp only [pushReady, setState, view]
  rw [states_modify (x := .Ready) hlast fun _ => rfl, states_append, Function.update_idem]
  exact hmove

/-- What `schedule` does: with an empty queue nothing, else the first of the queue runs, and the
process that ran goes to the end of the queue if it has not exited. -/
theorem schedule_cases {s s' : System} (hok : s.view.Ok) (h : s.schedule = some s') :
    (s.readyQueue = [] ∧ s' = s) ∨
    ∃ old next rest p q s₁, s.readyQueue = next :: rest ∧ s.current = some old ∧ old ≠ next ∧
      s.procs[old]? = some p ∧ s₁.procs[next]? = some q ∧
      ((p.state = .Running ∧ s₁ = { s with readyQueue := rest }.pushReady old) ∨
        (p.state ≠ .Running ∧ s₁ = { s with readyQueue := rest })) ∧
      s' = { s₁ with
        procs := s₁.procs.modify next fun p =>
          { p with state := .Running, ticksLeft := DEFAULT_TIME_SLICE_TICKS }
        current := some next
        rsp0 := q.kstackTop
        cr3 := q.pagetable &&& ADDR_MASK } := by
  unfold schedule at h
  split at h
  · rename_i hq
    exact Or.inl ⟨hq, (Option.some.inj h).symm⟩
  · rename_i next rest hq
    simp only at h
    split at h
    · simp at h
    · rename_i old hc
      have hmem : next ∈ s.view.queue := by simp [view, hq]
      split at h
      · rename_i heq
        exact absurd (heq ▸ hmem) (hok.current_not_mem hc)
      · rename_i hne
        obtain ⟨s₁, hre, hsw⟩ := Option.bind_eq_some_iff.mp h
        simp only [requeue, Option.bind_eq_bind, Option.bind_eq_some_iff] at hre
        obtain ⟨p, hp, hre⟩ := hre
        simp only [switchTo, Option.bind_eq_bind, Option.bind_eq_some_iff] at hsw
        obtain ⟨q, hnext, hsw⟩ := hsw
        refine Or.inr ⟨old, next, rest, p, q, s₁, hq, hc, hne, hp, hnext, ?_, (Option.some.inj hsw).symm⟩
        split at hre
        · rename_i hrun
          exact Or.inl ⟨hrun, (Option.some.inj hre).symm⟩
        · rename_i hrun
          exact Or.inr ⟨hrun, (Option.some.inj hre).symm⟩

theorem schedule_moves {s s' : System} (hok : s.view.Ok) (h : s.schedule = some s') :
    Moves s.view s'.view := by
  rcases schedule_cases hok h with ⟨_, rfl⟩ |
    ⟨old, next, rest, p, q, s₁, hq, hc, _, hp, hnext, hcases, rfl⟩
  · exact .refl
  have hst : states s.procs old = some p.state := by rw [states, hp]; rfl
  refine .single ?_
  rcases hcases with ⟨hrun, rfl⟩ | ⟨hrun, rfl⟩
  · have hmove := Move.rotate (v := s.view) hc (by rw [← hrun]; exact hst) hq
    simp only [pushReady, setState, view] at hnext ⊢
    rw [states_modify (x := .Running) hnext fun _ => rfl,
      states_modify (x := .Ready) hp fun _ => rfl]
    exact hmove
  · have hmove := Move.leave (v := s.view) hc
      (fun heq => hrun (Option.some.inj (hst.symm.trans heq))) hq
    simp only [view] at hnext ⊢
    rw [states_modify (x := .Running) hnext fun _ => rfl]
    exact hmove

theorem exitCurrent_moves {s s' : System} (hok : s.view.Ok) (h : s.exitCurrent = some s') :
    Moves s.view s'.view := by
  unfold exitCurrent at h
  split at h
  · exact schedule_moves hok h
  · rename_i c hc
    obtain ⟨p, hp⟩ := exists_current hok hc
    have hmove : Move s.view (s.setState c .Exited).view := by
      rw [view_setState hp]
      exact Move.exit hc
    exact .head hmove (schedule_moves (hok.move hmove) h)

theorem onTimerTick_moves {s s' : System} (hok : s.view.Ok) (h : s.onTimerTick = some s') :
    Moves s.view s'.view := by
  unfold onTimerTick at h
  split at h
  · obtain rfl := Option.some.inj h
    exact .refl
  · rename_i c hc
    simp only [Option.bind_eq_bind, Option.bind_eq_some_iff] at h
    obtain ⟨p, _, h⟩ := h
    generalize consumeTick p.ticksLeft DEFAULT_TIME_SLICE_TICKS = tick at h
    obtain ⟨ticks, expired⟩ := tick
    have hsame := s.view_setTicks c ticks
    simp only at h
    split at h
    · rw [← hsame] at hok ⊢
      exact schedule_moves hok h
    · obtain rfl := Option.some.inj h
      rw [hsame]

/-- The scheduler sees no difference. -/
structure Same (s s' : System) : Prop where
  procs : s'.procs = s.procs
  readyQueue : s'.readyQueue = s.readyQueue
  current : s'.current = s.current

theorem Same.view {s s' : System} (h : Same s s') : s'.view = s.view := by
  rw [System.view, System.view, h.procs, h.readyQueue, h.current]

/-- What the calls do to the scheduler. -/
inductive Effect : Action → System → System → Prop
  | none {a : Action} {s s' : System} : a ≠ .onTimerTick → Same s s' → Effect a s s'
  | init {a : Action} {s s₁ s' : System} : a ≠ .onTimerTick → s.init = some s₁ → Same s₁ s' →
      Effect a s s'
  | create {a : Action} {s s₁ s₂ s' : System} {p : Proc} {i : Nat} : a ≠ .onTimerTick →
      s.init = some s₁ → (i, s') = s₂.addProc p → p.ticksLeft = DEFAULT_TIME_SLICE_TICKS →
      Same s₁ s₂ → Effect a s s'
  | yieldNow {s s' : System} : s.schedule = some s' → Effect .yieldNow s s'
  | onTimerTick {s s' : System} : s.onTimerTick = some s' → Effect .onTimerTick s s'
  | exitCurrent {s s' : System} : s.exitCurrent = some s' → Effect .exitCurrent s s'

theorem exec_effect {s s' : System} {a : Action} (h : s.exec a = some s') : Effect a s s' := by
  cases a with
  | init => exact .init (by simp) h ⟨rfl, rfl, rfl⟩
  | spawnKernel entry =>
    obtain ⟨⟨i, s₂⟩, hs, rfl⟩ := Option.map_eq_some_iff.mp h
    obtain ⟨s₁, _, _, _, hinit, _, _, hadd⟩ := spawnKernel_cases hs
    exact .create (by simp) hinit hadd rfl ⟨rfl, rfl, rfl⟩
  | spawnUser code =>
    obtain ⟨⟨i, s₂⟩, hs, rfl⟩ := Option.map_eq_some_iff.mp h
    obtain ⟨s₁, _, _, _, _, ⟨_, _, _⟩, _, hinit, _, _, _, _, _, hload⟩ := spawnUser_cases hs
    obtain ⟨_, _, _, _, _, _, _, _, _, _, hadd⟩ := loadUser_cases hload
    exact .create (by simp) hinit hadd rfl ⟨rfl, rfl, rfl⟩
  | spawnElf image =>
    obtain ⟨⟨res, s₂⟩, hs, rfl⟩ := Option.map_eq_some_iff.mp h
    obtain ⟨s₁, hinit, hcases⟩ := spawnElf_cases hs
    rcases hcases with ⟨rfl, _⟩ | ⟨_, _, _, _, _, _, _, _, _, _, _, _, hcases⟩
    · exact .init (by simp) hinit ⟨rfl, rfl, rfl⟩
    · rcases hcases with ⟨_, _, rfl⟩ | ⟨⟨_, _, _⟩, i, _, _, hload⟩
      · exact .init (by simp) hinit ⟨rfl, rfl, rfl⟩
      · obtain ⟨_, _, _, _, _, _, _, _, _, _, hadd⟩ := loadUser_cases hload
        exact .create (by simp) hinit hadd rfl ⟨rfl, rfl, rfl⟩
  | yieldNow => exact .yieldNow h
  | onTimerTick => exact .onTimerTick h
  | exitCurrent => exact .exitCurrent h
  | growHeap =>
    obtain ⟨⟨addr, pm⟩, _, rfl⟩ := Option.map_eq_some_iff.mp h
    cases addr with
    | none => exact .none (by simp) ⟨rfl, rfl, rfl⟩
    | some phys => exact .none (by simp) ⟨rfl, rfl, rfl⟩

/-- **Each step of the kernel is a sequence of moves of its scheduler.** -/
theorem step_moves {s s' : System} (hok : s.view.Ok) (h : Step s s') : Moves s.view s'.view := by
  cases h with
  | write m _ => exact .refl
  | call a h =>
    cases exec_effect h with
    | none _ hsame => rw [hsame.view]
    | init _ hinit hsame =>
      rw [hsame.view]
      exact (init_moves hinit).1
    | create _ hinit hadd _ hsame =>
      obtain ⟨hm, c, hc⟩ := init_moves hinit
      have hadd := addProc_moves hadd (hsame.current.trans hc)
      rw [hsame.view] at hadd
      exact hm.trans hadd
    | yieldNow h => exact schedule_moves hok h
    | onTimerTick h => exact onTimerTick_moves hok h
    | exitCurrent h => exact exitCurrent_moves hok h

theorem steps_moves {s s' : System} (hok : s.view.Ok) (h : Steps s s') : Moves s.view s'.view := by
  induction h with
  | refl => exact .refl
  | tail _ h ih => exact ih.trans (step_moves (hok.moves ih) h)

/-- No process yet: the statics of `proc.rs` as they are linked. -/
def Unstarted (s : System) : Prop := s.procs = [] ∧ s.readyQueue = [] ∧ s.current = none

theorem Unstarted.ok {s : System} (h : s.Unstarted) : s.view.Ok := by
  obtain ⟨hp, hq, hc⟩ := h
  have hst : ∀ i, s.view.st i = none := by
    intro i
    simp only [view, states, hp]
    rfl
  refine ⟨?_, ?_, ?_, ?_, ?_, fun _ => hst⟩
  · simp only [view, hq]
    exact List.nodup_nil
  · simp [view, hq]
  · simp [view, hc]
  · intro i hi
    simp [hst i] at hi
  · intro i x hi
    simp [hst i] at hi

end System

end Zeronix
