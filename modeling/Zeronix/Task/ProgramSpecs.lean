import Zeronix.Task.Programs

/-!
# What the programs of the kernel do

Creating a process takes locks and gives them back, and shows in the scheduler as one more
process (`still_spawnElf`).  `schedule` takes the queue's lock twice and holds none of its own
when it switches; there the scheduler has made the moves of `System.schedule`
(`along_schedule`).
-/

namespace Zeronix

open SpinLock

namespace Kernel

def st (k : Kernel) : Nat → Option ProcState := k.sys.view.st

/-- A process that has exited stays so. -/
def later (k k' : Kernel) : Prop := ∀ i, k.st i = some .Exited → k'.st i = some .Exited

theorem later_refl (k : Kernel) : later k k := fun _ h => h

theorem later_trans (k k' k'' : Kernel) (h : later k k') (h' : later k' k'') : later k k'' :=
  fun i hi => h' i (h i hi)

/-- What code that leaves the running process alone does to the statics. -/
structure Kept (k k' : Kernel) : Prop where
  states : ∀ i x, k.st i = some x → k'.st i = some x
  sched : ∀ c, k.sys.current = some c →
    k'.sys.current = some c ∧ (k.sys.view.Ok → k'.sys.view.Ok)
  exitHook : k'.exitHook = k.exitHook
  userRsp : k'.userRsp = k.userRsp
  stack : k'.stack = k.stack

namespace Kept

theorem refl (k : Kernel) : Kept k k := ⟨fun _ _ h => h, fun _ hc => ⟨hc, id⟩, rfl, rfl, rfl⟩

theorem trans (k k' k'' : Kernel) (h : Kept k k') (h' : Kept k' k'') : Kept k k'' where
  states i x hi := h'.states i x (h.states i x hi)
  sched c hc := by
    obtain ⟨hc', hok⟩ := h.sched c hc
    obtain ⟨hc'', hok'⟩ := h'.sched c hc'
    exact ⟨hc'', fun hv => hok' (hok hv)⟩
  exitHook := h'.exitHook.trans h.exitHook
  userRsp := h'.userRsp.trans h.userRsp
  stack := h'.stack.trans h.stack

theorem later {k k' : Kernel} (h : Kept k k') : later k k' := fun i hi => h.states i _ hi

end Kept

/-- What code does that the scheduler does not see. -/
structure Unseen (k k' : Kernel) : Prop where
  view : k'.sys.view = k.sys.view
  exitHook : k'.exitHook = k.exitHook
  userRsp : k'.userRsp = k.userRsp
  stack : k'.stack = k.stack

namespace Unseen

theorem refl (k : Kernel) : Unseen k k := ⟨rfl, rfl, rfl, rfl⟩

theorem trans (k k' k'' : Kernel) (h : Unseen k k') (h' : Unseen k' k'') : Unseen k k'' where
  view := h'.view.trans h.view
  exitHook := h'.exitHook.trans h.exitHook
  userRsp := h'.userRsp.trans h.userRsp
  stack := h'.stack.trans h.stack

theorem kept (k k' : Kernel) (h : Unseen k k') : Kept k k' where
  states i x hi := by
    rw [st] at hi ⊢
    rw [h.view]
    exact hi
  sched c hc := by
    have hcur : k'.sys.current = k.sys.current := congrArg View.current h.view
    refine ⟨hcur.trans hc, fun hv => ?_⟩
    rw [h.view]
    exact hv
  exitHook := h.exitHook
  userRsp := h.userRsp
  stack := h.stack

end Unseen

/-! ### Code that leaves the running process alone -/

/-- It takes locks of rank `r` and above only. -/
abbrev Still {α : Type} (r : Nat) (p : Code α) : Prop := Quiet Lock.rank later Kept r p

/-- The same for code that the scheduler does not see. -/
abbrev Hidden {α : Type} (r : Nat) (p : Code α) : Prop := Quiet Lock.rank later Unseen r p

namespace Hidden

variable {α β : Type} {r : Nat}

theorem still {r' : Nat} {p : Code α} (h : Hidden r p) (hr : r' ≤ r) : Still r' p :=
  (h.weaken Unseen.kept).mono hr

theorem bind {p : Code α} {f : α → Code β} (hp : Hidden r p) (hf : ∀ a, Hidden r (f a)) :
    Hidden r (p >>= f) := Quiet.bind Unseen.trans hp hf

theorem each {f : β → Code Unit} (hf : ∀ b, Hidden r (f b)) (bs : List β) :
    Hidden r (Prog.each f bs) := Quiet.each Unseen.refl Unseen.trans hf bs

theorem lift {f : Kernel → β × Kernel} (hf : ∀ k, Unseen k (f k).2) : Hidden r (Prog.lift f) :=
  Quiet.lift (fun k => (hf k).kept.later) hf

theorem liftOpt {f : Kernel → Option (β × Kernel)}
    (hf : ∀ k b k', f k = some (b, k') → Unseen k k') : Hidden r (Prog.liftOpt f) :=
  Quiet.liftOpt later_refl (fun k b k' h => (hf k b k' h).kept.later) hf

theorem onSys {f : System → Option (β × System)}
    (hf : ∀ s b s', f s = some (b, s') → s'.view = s.view) : Hidden r (onSys f) := by
  refine liftOpt fun k b k' h => ?_
  obtain ⟨⟨b', s⟩, hfs, heq⟩ := Option.map_eq_some_iff.mp h
  cases heq
  exact ⟨hf _ _ _ hfs, rfl, rfl, rfl⟩

/-- What is done to memory does not show. -/
theorem onPm {f : PhysMem → Option (β × PhysMem)} : Hidden r (onPm f) := by
  refine onSys fun s b s' h => ?_
  obtain ⟨⟨b', pm⟩, _, heq⟩ := Option.map_eq_some_iff.mp h
  cases heq
  rfl

theorem guarded {l : Lock} {body : Code α} (hr : r ≤ l.rank) (h : Hidden (l.rank + 1) body) :
    Hidden r (guarded l body) := quiet_guarded hr h

end Hidden

namespace Still

variable {α β : Type} {r : Nat}

theorem ret (a : α) : Still r (.ret a) := Quiet.ret Kept.refl a

theorem bind {p : Code α} {f : α → Code β} (hp : Still r p) (hf : ∀ a, Still r (f a)) :
    Still r (p >>= f) := Quiet.bind Kept.trans hp hf

theorem lift {f : Kernel → β × Kernel} (hf : ∀ k, Kept k (f k).2) : Still r (Prog.lift f) :=
  Quiet.lift (fun k => (hf k).later) hf

theorem guarded {l : Lock} {body : Code α} (hr : r ≤ l.rank) (h : Still (l.rank + 1) body) :
    Still r (guarded l body) := quiet_guarded hr h

end Still

theorem hidden_growHeap : Hidden 5 growHeap := by
  refine .guarded (Nat.le_refl 5) (.onSys fun s b s' h => ?_)
  obtain ⟨s'', hs, heq⟩ := Option.map_eq_some_iff.mp h
  cases heq
  obtain ⟨⟨addr, pm⟩, _, rfl⟩ := Option.map_eq_some_iff.mp hs
  cases addr with
  | none => rfl
  | some addr => rfl

theorem hidden_useHeap : Hidden 4 useHeap := by
  refine .bind (.lift fun k => ⟨rfl, rfl, rfl, rfl⟩) fun requests => ?_
  refine .each (fun n => ?_) requests
  exact .guarded (Nat.le_refl 4) (.each (fun _ => hidden_growHeap) _)

theorem hidden_createUserPageTable : Hidden 5 createUserPageTable := by
  refine .guarded (Nat.le_refl 5) (.onSys fun s b s' h => ?_)
  obtain ⟨⟨pml4, pm⟩, _, heq⟩ := Option.map_eq_some_iff.mp h
  cases heq
  rfl

theorem hidden_mapIntoPageTable (pml4 virt phys : Nat) (flags : EntryFlags) :
    Hidden 5 (mapIntoPageTable pml4 virt phys flags) := .guarded (Nat.le_refl 5) .onPm

theorem hidden_mapBootdataIdentity (pagetable : Nat) : Hidden 5 (mapBootdataIdentity pagetable) := by
  rw [mapBootdataIdentity]
  split
  · exact Quiet.stop
  · exact .each (fun addr => hidden_mapIntoPageTable _ _ _ _) _

theorem hidden_mapUserStack (pagetable stackTop stackPhys : Nat) :
    Hidden 5 (mapUserStack pagetable stackTop stackPhys) := by
  rw [mapUserStack]
  split
  · exact Quiet.stop
  · exact .each (fun i => hidden_mapIntoPageTable _ _ _ _) _

theorem kept_init {k : Kernel} {s : System} (h : k.sys.init = some s) :
    Kept k (k.setSys s) := by
  unfold System.init at h
  split at h
  · cases h
    exact .refl k
  · rename_i hc
    obtain ⟨pml4, _, rfl⟩ := Option.map_eq_some_iff.mp h
    refine ⟨fun i x hi => ?_, fun c hc' => absurd hc' (by simp_all), rfl, rfl, rfl⟩
    have hne : i ≠ k.sys.procs.length := by
      rintro rfl
      simp [st, System.view, System.states] at hi
    show System.states (k.sys.procs ++ [_]) i = some x
    rw [System.states_append, Function.update_of_ne hne]
    exact hi

theorem kept_addProc (k : Kernel) (p : Proc) : Kept k (k.setSys (k.sys.addProc p).2) where
  states i x hi := by
    have hlast : (k.sys.procs ++ [p])[k.sys.procs.length]? = some p := List.getElem?_concat_length
    have hne : i ≠ k.sys.procs.length := by
      rintro rfl
      simp [st, System.view, System.states] at hi
    show System.states ((k.sys.procs ++ [p]).modify k.sys.procs.length _) i = some x
    rw [System.states_modify (x := .Ready) hlast fun _ => rfl, System.states_append,
      Function.update_of_ne hne, Function.update_of_ne hne]
    exact hi
  sched c hc := ⟨hc, fun hok => hok.moves (System.addProc_moves rfl hc)⟩
  exitHook := rfl
  userRsp := rfl
  stack := rfl

theorem still_addProc (p : Proc) : Still 3 (addProc p) := by
  refine .bind (hidden_useHeap.still (by decide)) fun _ => .guarded (Nat.le_refl 3) ?_
  exact .bind (hidden_useHeap.still (by decide)) fun _ => .lift fun k => kept_addProc k p

theorem still_startUser (pid pagetable kstackPhys codePhys ustackPhys rip stackTop : Nat) :
    Still 3 (startUser pid pagetable kstackPhys codePhys ustackPhys rip stackTop) := by
  rw [startUser]
  split
  · exact Quiet.stop
  · split
    · exact Quiet.stop
    · exact .bind (Hidden.onPm.still (Nat.le_refl 3)) fun _ => still_addProc _

theorem still_spawnParsed (image : List UInt8) (parsed : Elf.ParsedElf) :
    Still 3 (spawnParsed image parsed) := by
  refine .bind (Hidden.still (.onSys fun s b s' h => ?_) (Nat.le_refl 3)) fun pid => ?_
  · cases h
    rfl
  · split
    · exact Quiet.stop
    · refine .bind (hidden_createUserPageTable.still (by decide)) fun pagetable => ?_
      refine .bind ((hidden_mapBootdataIdentity pagetable).still (by decide)) fun _ => ?_
      refine .bind (.guarded (by decide) (Hidden.onPm.still (Nat.le_refl _))) fun blocks => ?_
      split
      · exact .ret _
      · refine .bind (Hidden.onPm.still (Nat.le_refl 3)) fun _ => ?_
        refine .bind ((hidden_mapIntoPageTable _ _ _ _).still (by decide)) fun _ => ?_
        refine .bind ((hidden_mapUserStack _ _ _).still (by decide)) fun _ => ?_
        exact .bind (still_startUser _ _ _ _ _ _ _) fun i => .ret _

theorem still_init : Still 3 (onSys fun s => s.init.map fun s => ((), s)) := by
  refine Quiet.liftOpt later_refl (fun k b k' h => ?_) fun k b k' h => ?_
  all_goals
    obtain ⟨⟨b', s⟩, hs, heq⟩ := Option.map_eq_some_iff.mp h
    obtain ⟨s', hs', heq'⟩ := Option.map_eq_some_iff.mp hs
    cases heq
    cases heq'
  · exact (kept_init hs').later
  · exact kept_init hs'

/-- **Creating a process leaves the running one alone.** -/
theorem still_spawnElf (image : List UInt8) : Still 3 (spawnElf image) := by
  refine .bind still_init fun _ => ?_
  split
  · exact Quiet.stop
  · exact .ret _
  · split
    · exact .ret _
    · exact still_spawnParsed _ _

/-! ### Switching -/

theorem view_switchTo {s s' : System} {next : Nat} (h : s.switchTo next = some s') :
    s'.view = {
      st := Function.update s.view.st next (some .Running)
      queue := s.view.queue
      current := some next } := by
  simp only [System.switchTo, Option.bind_eq_bind, Option.bind_eq_some_iff] at h
  obtain ⟨p, hp, h⟩ := h
  cases h
  simp only [System.view]
  rw [System.states_modify (x := .Running) hp fun _ => rfl]

/-- The statics when process `t` is left for `next`. -/
structure Switched (t next : Nat) (k k' : Kernel) : Prop where
  ne : next ≠ t
  queued : next ∈ k.sys.readyQueue
  current : k'.sys.current = some next
  ok : k'.sys.view.Ok
  running : k'.st next = some .Running
  exited : k'.st t = some .Exited ↔ k.st t = some .Exited

/-- The moves of the scheduler are those of a switch. -/
theorem switched_of_move {t next : Nat} {rest : List Nat} {k k' : Kernel} (hok : k.sys.view.Ok)
    (hcur : k.sys.current = some t) (hq : k.sys.readyQueue = next :: rest)
    (hmove : View.Move k.sys.view k'.sys.view) (hcur' : k'.sys.current = some next)
    (hst : k'.st t = some .Ready ∧ k.st t = some .Running ∨ k'.st t = k.st t)
    (hrun : k'.st next = some .Running) : Switched t next k k' := by
  have hmem : next ∈ k.sys.readyQueue := by simp [hq]
  refine ⟨?_, hmem, hcur', hok.move hmove, hrun, ?_⟩
  · rintro rfl
    exact hok.current_not_mem hcur hmem
  · rcases hst with ⟨h, h'⟩ | h
    · simp [h, h']
    · rw [h]

section Along

variable {P : Cpu Kernel Lock → Op Kernel Lock Nat → Prop}
variable {R : Cpu Kernel Lock → Cpu Kernel Lock → Prop} {s : Cpu Kernel Lock} {t : Nat}

theorem along_onSys {β : Type} {Q : β → Cpu Kernel Lock → Prop} {f : System → Option (β × System)}
    (hP : ∀ s op, Calm later s op → P s op) (hflag : s.flag = false)
    (h : ∀ b s', f s.data.sys = some (b, s') →
      later s.data (s.data.setSys s') ∧ Q b { s with data := s.data.setSys s' }) :
    (onSys f).Along P R Q s := by
  refine Prog.along_liftOpt (fun _ => ⟨hP _ _ ⟨hflag, later_refl _⟩, hP _ _ hflag⟩) fun b k hk => ?_
  obtain ⟨⟨b', s'⟩, hs', heq⟩ := Option.map_eq_some_iff.mp hk
  cases heq
  obtain ⟨hl, hQ⟩ := h b' s' hs'
  exact ⟨hP _ _ ⟨hflag, hl⟩, hQ⟩

theorem along_currentProc {Q : Nat → Cpu Kernel Lock → Prop} (hP : ∀ s op, Calm later s op → P s op)
    (hflag : s.flag = false) (hcur : s.data.sys.current = some t) (hQ : Q t s) :
    currentProc.Along P R Q s := by
  refine along_onSys hP hflag fun old s' h => ?_
  rw [hcur] at h
  cases h
  exact ⟨later_refl _, hQ⟩

/-- The process that runs goes to the end of the queue, if it has not exited. -/
theorem along_requeue {Q : Unit → Cpu Kernel Lock → Prop} {p : Proc}
    (hP : ∀ s op, Calm later s op → P s op) (hflag : s.flag = false)
    (hheld : ∀ l ∈ s.held, l.rank < 3) (hp : s.data.sys.procs[t]? = some p)
    (hrun : p.state = .Running → ∀ k : Kernel, k.sys.view = {
        st := Function.update s.data.sys.view.st t (some .Ready)
        queue := s.data.sys.readyQueue ++ [t]
        current := s.data.sys.current } → Q () { s with data := k })
    (hstay : p.state ≠ .Running → Q () s) : (requeue t).Along P R Q s := by
  obtain ⟨k, held, flag⟩ := s
  cases hflag
  have hfree : Lock.readyQueue ∉ held := fun hl => absurd (hheld _ hl) (by decide)
  rw [requeue, Prog.along_do]
  refine along_onSys hP rfl fun state s' hs' => ?_
  rw [hp] at hs'
  cases hs'
  refine ⟨later_refl k, ?_⟩
  by_cases hstate : p.state = .Running
  · rw [if_pos hstate, Prog.along_do, Prog.along_lift]
    have hst : k.st t = some .Running := by
      show k.sys.procs[t]?.map Proc.state = some .Running
      rw [hp, Option.map_some, hstate]
    have hview := System.view_setState hp .Ready
    refine ⟨hP _ _ ⟨rfl, fun i hi => ?_⟩, ?_⟩
    · have hne : i ≠ t := by
        rintro rfl
        exact absurd (hst.symm.trans hi) (by simp)
      show (k.sys.setState t .Ready).view.st i = some .Exited
      rw [hview]
      simp only [Function.update_of_ne hne]
      exact hi
    · refine along_guarded (s := ⟨k.setSys (k.sys.setState t .Ready), held, false⟩) hP rfl hfree ?_
      rw [Prog.along_do]
      refine (hidden_useHeap ⟨k.setSys (k.sys.setState t .Ready), .readyQueue :: held, false⟩ R _ rfl
        (fun l hl => ?_) fun _ k' hk' => ?_).mono hP fun _ _ h => h
      · rcases List.mem_cons.mp hl with rfl | hl
        · decide
        · exact Nat.lt_trans (hheld l hl) (by decide)
      · refine ⟨hP _ _ ⟨rfl, later_refl k'⟩, rfl, rfl, hrun hstate _ ?_⟩
        have hk := hk'.view.trans hview
        show { k'.sys.view with queue := k'.sys.view.queue ++ [t] } = _
        rw [hk]
        rfl
  · rw [if_neg hstate]
    exact hstay hstate

/-- The second half of `schedule`, when the scheduler has come to `view`. -/
theorem along_switchTo {Q : Unit → Cpu Kernel Lock → Prop} {next : Nat}
    (hP : ∀ s op, Calm later s op → P s op) (hflag : s.flag = false)
    (hready : s.data.st next = some .Ready)
    (h : ∀ k : Kernel, k.sys.view = {
        st := Function.update s.data.sys.view.st next (some .Running)
        queue := s.data.sys.readyQueue
        current := some next } →
      P { s with data := k } (.switch next) ∧ ∀ s', R { s with data := k } s' → Q () s') :
    Prog.Along P R Q (do
      onSys fun s => (s.switchTo next).map fun s => ((), s)
      Prog.switch next (.ret ())
      restoreInterrupts false) s := by
  rw [Prog.along_do]
  refine along_onSys hP hflag fun _ s' hs' => ?_
  obtain ⟨s'', hsw, heq⟩ := Option.map_eq_some_iff.mp hs'
  cases heq
  have hview := view_switchTo hsw
  refine ⟨fun i hi => ?_, h _ hview⟩
  have hne : i ≠ next := by
    rintro rfl
    exact absurd (hready.symm.trans hi) (by simp)
  show s'.view.st i = some .Exited
  rw [hview]
  simp only [Function.update_of_ne hne]
  exact hi

/-- **One call of `schedule`.**  With nothing in the queue it does nothing; otherwise it switches
with its own locks given back. -/
theorem along_schedule {Q : Unit → Cpu Kernel Lock → Prop}
    (hP : ∀ s op, Calm later s op → P s op) (hflag : s.flag = false)
    (hheld : ∀ l ∈ s.held, l.rank < 3) (hok : s.data.sys.view.Ok)
    (hcur : s.data.sys.current = some t) (hempty : s.data.sys.readyQueue = [] → Q () s)
    (hswitch : ∀ next k, Switched t next s.data k → P { s with data := k } (.switch next) ∧
      ∀ s', R { s with data := k } s' → Q () s') :
    schedule.Along P R Q s := by
  obtain ⟨k, held, flag⟩ := s
  cases hflag
  have hfree : Lock.readyQueue ∉ held := fun hl => absurd (hheld _ hl) (by decide)
  simp only [schedule, Prog.along_do, interruptsEnabled, disableInterrupts, Prog.Along]
  refine ⟨hP _ _ rfl, hP _ _ ⟨rfl, rfl⟩, ?_⟩
  refine along_guarded (s := ⟨k, held, false⟩) hP rfl hfree ?_
  refine ⟨hP _ _ ⟨rfl, later_refl _⟩, rfl, rfl, ?_⟩
  cases hq : k.sys.readyQueue with
  | nil =>
    have hsame : k.setSys { k.sys with readyQueue := [] } = k := by rw [← hq]; rfl
    simp only [hq, List.head?_nil, List.tail_nil, hsame]
    exact hempty hq
  | cons next rest =>
    have hmem : next ∈ k.sys.readyQueue := by simp [hq]
    have hne : t ≠ next := by
      rintro rfl
      exact hok.current_not_mem hcur hmem
    have hready : k.st next = some .Ready := hok.ready next hmem
    obtain ⟨p, hp⟩ := System.exists_current hok hcur
    have hst : k.st t = some p.state := by
      show k.sys.procs[t]?.map Proc.state = some p.state
      rw [hp, Option.map_some]
    simp only [hq, List.head?_cons, List.tail_cons]
    rw [Prog.along_do]
    refine along_currentProc (s := ⟨k.setSys { k.sys with readyQueue := rest }, held, false⟩) hP rfl
      hcur ?_
    rw [if_neg hne, Prog.along_do]
    refine along_requeue (s := ⟨k.setSys { k.sys with readyQueue := rest }, held, false⟩) hP rfl hheld
      hp (fun hrun k₁ hk₁ => ?_) fun hrun => ?_
    · refine along_switchTo (s := ⟨k₁, held, false⟩) hP rfl ?_ fun k₂ hk₂ => hswitch next k₂ ?_
      · show k₁.sys.view.st next = some .Ready
        rw [hk₁]
        simp only [Function.update_of_ne (Ne.symm hne)]
        exact hready
      · have hst₁ : k₁.sys.view.st = Function.update k.sys.view.st t (some .Ready) :=
          congrArg View.st hk₁
        have hq₁ : k₁.sys.readyQueue = rest ++ [t] := congrArg View.queue hk₁
        simp only [hst₁, hq₁] at hk₂
        rw [hrun] at hst
        refine switched_of_move hok hcur hq ?_ (congrArg View.current hk₂) (Or.inl ⟨?_, hst⟩) ?_
        · rw [hk₂]
          exact View.Move.rotate (v := k.sys.view) hcur hst hq
        · show k₂.sys.view.st t = some .Ready
          rw [hk₂]
          simp only [Function.update_of_ne hne, Function.update_self]
        · show k₂.sys.view.st next = some .Running
          rw [hk₂]
          simp only [Function.update_self]
    · refine along_switchTo (s := ⟨k.setSys { k.sys with readyQueue := rest }, held, false⟩) hP rfl
        hready fun k₂ hk₂ => hswitch next k₂ ?_
      refine switched_of_move hok hcur hq ?_ (congrArg View.current hk₂) (Or.inr ?_) ?_
      · rw [hk₂]
        exact View.Move.leave (v := k.sys.view) hcur
          (fun heq => hrun (Option.some.inj (hst.symm.trans heq))) hq
      · show k₂.sys.view.st t = k.sys.view.st t
        rw [hk₂]
        simp only [Function.update_of_ne hne]
        rfl
      · show k₂.sys.view.st next = some .Running
        rw [hk₂]
        simp only [Function.update_self]

theorem hidden_consumeTick : Hidden 3 consumeTick := by
  refine .onSys fun s b s' h => ?_
  split at h
  · cases h
    rfl
  · rename_i i _
    obtain ⟨p, _, heq⟩ := Option.map_eq_some_iff.mp h
    generalize Zeronix.consumeTick p.ticksLeft DEFAULT_TIME_SLICE_TICKS = tick at heq
    cases heq
    exact s.view_setTicks i tick.1

theorem Switched.of_unseen {next : Nat} {k k₁ k₂ : Kernel} (h : Switched t next k₁ k₂)
    (hu : Unseen k k₁) : Switched t next k k₂ where
  ne := h.ne
  queued := by
    have hq : k₁.sys.readyQueue = k.sys.readyQueue := congrArg View.queue hu.view
    exact hq ▸ h.queued
  current := h.current
  ok := h.ok
  running := h.running
  exited := by
    rw [h.exited, st, st, hu.view]

/-- **A tick of the timer.** -/
theorem along_timerHandler {Q : Unit → Cpu Kernel Lock → Prop}
    (hP : ∀ s op, Calm later s op → P s op) (hflag : s.flag = false)
    (hheld : ∀ l ∈ s.held, l.rank < 3) (hok : s.data.sys.view.Ok)
    (hcur : s.data.sys.current = some t)
    (hstay : ∀ k, Unseen s.data k → Q () { s with data := k })
    (hswitch : ∀ next k, Switched t next s.data k → P { s with data := k } (.switch next) ∧
      ∀ s', R { s with data := k } s' → Q () s') :
    timerHandler.Along P R Q s := by
  rw [timerHandler, onTimerTick, Prog.along_do]
  refine (hidden_consumeTick s R _ hflag hheld fun expired k hu => ?_).mono hP fun _ _ h => h
  cases expired with
  | false => exact hstay k hu
  | true =>
    have hcur' : k.sys.current = some t := (congrArg View.current hu.view).trans hcur
    refine along_schedule (s := { s with data := k }) (t := t) hP hflag hheld (hu.view ▸ hok) hcur'
      (fun _ => hstay k hu) ?_
    exact fun next k' hk' => hswitch next k' (hk'.of_unseen hu)

/-- The statics when process `t` has just exited. -/
def exited (k : Kernel) (t : Nat) : Kernel := k.setSys (k.sys.setState t .Exited)

theorem view_exited {k : Kernel} (hok : k.sys.view.Ok) (hcur : k.sys.current = some t) :
    (k.exited t).sys.view = { k.sys.view with st := Function.update k.sys.view.st t (some .Exited) } := by
  obtain ⟨p, hp⟩ := System.exists_current hok hcur
  exact System.view_setState hp .Exited

theorem st_exited {k : Kernel} (hok : k.sys.view.Ok) (hcur : k.sys.current = some t) :
    (k.exited t).st t = some .Exited := by
  rw [st, view_exited hok hcur]
  simp only [Function.update_self]

theorem later_exited {k : Kernel} (hok : k.sys.view.Ok) (hcur : k.sys.current = some t) :
    later k (k.exited t) := by
  intro i hi
  rw [st, view_exited hok hcur]
  by_cases hit : i = t
  · subst hit
    simp only [Function.update_self]
  · simp only [Function.update_of_ne hit]
    exact hi

/-- What happens when process `t` leaves at `s` for good: with no other process the CPU waits for
interrupts, else it switches, and would wait if `t` were switched to again. -/
structure Leaving (P : Cpu Kernel Lock → Op Kernel Lock Nat → Prop)
    (R : Cpu Kernel Lock → Cpu Kernel Lock → Prop) (t : Nat) (s : Cpu Kernel Lock) : Prop where
  empty : s.data.sys.readyQueue = [] → P s (.setFlag true) ∧ P { s with flag := true } .idle
  switch : ∀ next k, Switched t next s.data k → P { s with data := k } (.switch next) ∧
    ∀ s', R { s with data := k } s' → P s' (.setFlag true) ∧ P { s' with flag := true } .idle

/-- **The end of a process.** -/
theorem along_exitCurrent {α : Type} {Q : α → Cpu Kernel Lock → Prop} (status : Nat)
    (hP : ∀ s op, Calm later s op → P s op) (hflag : s.flag = false)
    (hheld : ∀ l ∈ s.held, l.rank < 3) (hok : s.data.sys.view.Ok)
    (hcur : s.data.sys.current = some t)
    (hleave : Leaving P R t { s with data := s.data.exited t }) :
    (exitCurrent status : Code α).Along P R Q s := by
  obtain ⟨k, held, flag⟩ := s
  cases hflag
  have hcur' : k.sys.current = some t := hcur
  simp only [exitCurrent, Prog.along_do, disableInterrupts, enableInterrupts, Prog.Along,
    Prog.along_lift, hcur']
  refine ⟨hP _ _ ⟨rfl, rfl⟩, hP _ _ ⟨rfl, later_exited hok hcur⟩, ?_⟩
  have hok' : (k.exited t).sys.view.Ok := by
    rw [view_exited hok hcur]
    exact hok.move (.exit hcur)
  exact along_schedule (s := ⟨k.exited t, held, false⟩) (t := t) hP rfl hheld hok' hcur
    hleave.empty hleave.switch

end Along

end Kernel

end Zeronix
