import Zeronix.Shell

/-!
# Job control

What the shell does to its jobs, whatever the lines say: a `Jobs` has the slot of the foreground
job, the list of the others, the next id, and the ids of the jobs that were reported done.  A byte
changes it in one of a few ways (`Jobs.Move`), and a second ticks all jobs (`Jobs.tick`).

The ids that are not reported and those that are make up the ids given out so far (`Jobs.Ok`), so
no job is lost and none is there twice.  A job is therefore in one place at a time, and `Follows`
says in which, from the seconds since its start.
-/

namespace Zeronix

/-! ### The jobs of a shell -/

structure Jobs where
  active : Option Job
  jobs : List Job
  next : Nat
  reported : List Nat

def Job.tick (job : Job) : Job := { job with remaining := job.remaining - 1 }

/-- The job has seconds left. -/
def Job.alive (job : Job) : Bool := job.remaining != 0

def Job.key (job : Job) : Nat × Nat × Nat := (job.id, job.remaining, job.total)

namespace Jobs

/-- The jobs that are not done. -/
def unfinished (v : Jobs) : List Job := v.active.toList ++ v.jobs

/-- What stays of a job when it changes its place. -/
def keys (v : Jobs) : List (Nat × Nat × Nat) := v.unfinished.map Job.key

/-- The jobs that end with the next second. -/
def done (jobs : List Job) : List Nat :=
  ((jobs.map Job.tick).filter fun job => !job.alive).map Job.id

/-- One second later. -/
def tick (v : Jobs) : Jobs where
  active := (v.active.map Job.tick).filter Job.alive
  jobs := (v.jobs.map Job.tick).filter Job.alive
  next := v.next
  reported := v.reported ++ done v.unfinished

/-- What a byte does. -/
inductive Move : Jobs → Jobs → Prop
  | stay {v : Jobs} : Move v v
  | start {v : Jobs} (job : Job) : job.id = v.next → 1 ≤ job.total → job.remaining = job.total →
      Move v { v with jobs := v.jobs ++ [job], next := v.next + 1 }
  | startActive {v : Jobs} (job : Job) : v.active = none → job.id = v.next → 1 ≤ job.total →
      job.remaining = job.total → Move v { v with active := some job, next := v.next + 1 }
  | suspend {v : Jobs} {job : Job} (b : Bool) : v.active = some job →
      Move v { v with active := none, jobs := v.jobs ++ [{ job with background := b }] }
  | foreground {v : Jobs} {job : Job} {l₁ l₂ : List Job} (b : Bool) : v.active = none →
      v.jobs = l₁ ++ job :: l₂ →
      Move v { v with active := some { job with background := b }, jobs := l₁ ++ l₂ }

/-- Bytes and `n` seconds. -/
inductive Moves : Nat → Jobs → Jobs → Prop
  | refl (v : Jobs) : Moves 0 v v
  | move {n : Nat} {u v w : Jobs} : Moves n u v → Move v w → Moves n u w
  | tick {n : Nat} {u v : Jobs} : Moves n u v → Moves (n + 1) u v.tick

theorem Moves.trans {m n : Nat} {u v w : Jobs} (h₁ : Moves m u v) (h₂ : Moves n v w) :
    Moves (m + n) u w := by
  induction h₂ with
  | refl => exact h₁
  | move _ hmove ih => exact .move (ih h₁) hmove
  | tick _ ih => exact .tick (ih h₁)

theorem moves_iterate (n : Nat) (v : Jobs) : Moves n v (tick^[n] v) := by
  induction n with
  | zero => exact .refl v
  | succ n ih =>
    rw [Function.iterate_succ_apply']
    exact .tick ih

/-! ### No job is lost -/

/-- The ids of the jobs, done or not, are those given out so far, and every job that is not done
has seconds left. -/
structure Ok (v : Jobs) : Prop where
  pos : 1 ≤ v.next
  ids : (v.unfinished.map Job.id ++ v.reported).Perm (List.range' 1 (v.next - 1))
  remaining : ∀ job ∈ v.unfinished, 1 ≤ job.remaining ∧ job.remaining ≤ job.total

theorem done_cons (job : Job) (jobs : List Job) :
    done (job :: jobs) = (if job.tick.alive then [] else [job.id]) ++ done jobs := by
  simp only [done, List.map_cons, List.filter_cons]
  cases job.tick.alive <;> rfl

theorem unfinished_tick (v : Jobs) :
    v.tick.unfinished = (v.unfinished.map Job.tick).filter Job.alive := by
  unfold tick unfinished
  cases v.active with
  | none => rfl
  | some job =>
    simp only [Option.map_some, Option.toList_some, List.singleton_append, List.map_cons,
      List.filter_cons]
    by_cases hj : job.tick.alive
    · rw [if_pos hj, Option.filter_some_pos hj]
      rfl
    · rw [if_neg hj, Option.filter_some_neg (by simpa using hj)]
      rfl

/-- The ids after a second are the same ones. -/
theorem perm_tick (v : Jobs) : (v.tick.unfinished.map Job.id ++ v.tick.reported).Perm
    (v.unfinished.map Job.id ++ v.reported) := by
  have hids : (v.unfinished.map Job.tick).map Job.id = v.unfinished.map Job.id := by
    rw [List.map_map]
    rfl
  have hsplit := (List.filter_append_perm Job.alive (v.unfinished.map Job.tick)).map Job.id
  rw [List.map_append, hids] at hsplit
  rw [unfinished_tick]
  show (_ ++ (v.reported ++ _)).Perm _
  refine List.Perm.trans ?_ (hsplit.append_right v.reported)
  rw [List.append_assoc]
  exact List.perm_append_comm.append_left _

theorem ok_tick {v : Jobs} (h : v.Ok) : v.tick.Ok := by
  refine ⟨h.pos, (perm_tick v).trans h.ids, fun job hjob => ?_⟩
  rw [unfinished_tick, List.mem_filter, List.mem_map] at hjob
  obtain ⟨⟨old, hold, rfl⟩, halive⟩ := hjob
  have hbound := h.remaining old hold
  simp only [Job.alive, Job.tick, bne_iff_ne, ne_eq] at halive ⊢
  omega

/-- The ids up to a new one. -/
theorem range'_next {n : Nat} (hn : 1 ≤ n) :
    List.range' 1 (n + 1 - 1) = List.range' 1 (n - 1) ++ [n] := by
  have hlen : n + 1 - 1 = n - 1 + 1 := by omega
  rw [hlen, List.range'_concat]
  congr 2
  omega

/-- A byte moves jobs between the slot and the list, or starts one. -/
theorem Move.effect {v w : Jobs} (h : Move v w) : w.reported = v.reported ∧
    ((w.next = v.next ∧ w.keys.Perm v.keys) ∨
      ∃ total, 1 ≤ total ∧ w.next = v.next + 1 ∧
        w.keys.Perm (v.keys ++ [(v.next, total, total)])) := by
  cases h with
  | stay => exact ⟨rfl, .inl ⟨rfl, List.Perm.refl _⟩⟩
  | start job hid htotal hremaining =>
    refine ⟨rfl, .inr ⟨job.total, htotal, rfl, ?_⟩⟩
    simp [keys, unfinished, Job.key, hid, hremaining]
  | startActive job hactive hid htotal hremaining =>
    refine ⟨rfl, .inr ⟨job.total, htotal, rfl, ?_⟩⟩
    simp only [keys, unfinished, hactive, Option.toList_some, Option.toList_none, List.map_append,
      List.map_singleton, List.nil_append, Job.key, hid, hremaining]
    exact List.perm_append_comm
  | @suspend job b hactive =>
    refine ⟨rfl, .inl ⟨rfl, ?_⟩⟩
    simp only [keys, unfinished, hactive, Option.toList_some, Option.toList_none, List.map_append,
      List.map_singleton, List.nil_append, Job.key]
    exact List.perm_append_comm
  | @foreground job l₁ l₂ b hactive hjobs =>
    refine ⟨rfl, .inl ⟨rfl, ?_⟩⟩
    simp only [keys, unfinished, hactive, hjobs, Option.toList_some, Option.toList_none,
      List.map_append, List.map_cons, List.nil_append, List.singleton_append, Job.key]
    exact List.perm_middle.symm

theorem ids_eq_keys (v : Jobs) : v.unfinished.map Job.id = v.keys.map Prod.fst := by
  rw [keys, List.map_map]
  rfl

theorem mem_keys {v : Jobs} {job : Job} (h : job ∈ v.unfinished) : job.key ∈ v.keys :=
  List.mem_map_of_mem h

theorem exists_of_mem_keys {v : Jobs} {id remaining total : Nat}
    (h : (id, remaining, total) ∈ v.keys) : ∃ job ∈ v.unfinished,
      job.id = id ∧ job.remaining = remaining ∧ job.total = total := by
  obtain ⟨job, hjob, hkey⟩ := List.mem_map.1 h
  simp only [Job.key, Prod.mk.injEq] at hkey
  exact ⟨job, hjob, hkey⟩

theorem Move.ok {v w : Jobs} (hmove : Move v w) (h : v.Ok) : w.Ok := by
  obtain ⟨hreported, ⟨hnext, hkeys⟩ | ⟨total, htotal, hnext, hkeys⟩⟩ := hmove.effect
  · refine ⟨by rw [hnext]; exact h.pos, ?_, fun job hjob => ?_⟩
    · rw [hnext, hreported, ids_eq_keys]
      refine ((hkeys.map Prod.fst).append_right _).trans ?_
      rw [← ids_eq_keys]
      exact h.ids
    · obtain ⟨old, hold, -, hr, ht⟩ := exists_of_mem_keys (hkeys.mem_iff.1 (mem_keys hjob))
      have hbound := h.remaining old hold
      omega
  · refine ⟨by omega, ?_, fun job hjob => ?_⟩
    · rw [hnext, range'_next h.pos, hreported, ids_eq_keys]
      refine ((hkeys.map Prod.fst).append_right _).trans ?_
      rw [List.map_append, ← ids_eq_keys, List.append_assoc]
      refine (List.perm_append_comm.append_left _).trans ?_
      rw [← List.append_assoc]
      exact h.ids.append_right _
    · rcases List.mem_append.1 (hkeys.mem_iff.1 (mem_keys hjob)) with hold | hnew
      · obtain ⟨old, hold, -, hr, ht⟩ := exists_of_mem_keys hold
        have hbound := h.remaining old hold
        omega
      · simp only [Job.key, List.mem_singleton, Prod.mk.injEq] at hnew
        omega

theorem Moves.ok {n : Nat} {v w : Jobs} (hmoves : Moves n v w) (h : v.Ok) : w.Ok := by
  induction hmoves with
  | refl => exact h
  | move _ hmove ih => exact hmove.ok (ih h)
  | tick _ ih => exact ok_tick (ih h)

/-- An id that was given out is in one place. -/
theorem Ok.count {v : Jobs} (h : v.Ok) {id : Nat} (hpos : 1 ≤ id) (hid : id < v.next) :
    (v.active.toList.map Job.id).count id + (v.jobs.map Job.id).count id +
      v.reported.count id = 1 := by
  have hone : (List.range' 1 (v.next - 1)).count id = 1 :=
    List.count_eq_one_of_mem List.nodup_range' (List.mem_range'_1.2 (by omega))
  rw [← hone, ← h.ids.count_eq id, List.count_append, unfinished, List.map_append,
    List.count_append]

theorem Ok.nodup {v : Jobs} (h : v.Ok) : (v.unfinished.map Job.id).Nodup :=
  (List.nodup_append.1 (h.ids.nodup_iff.2 List.nodup_range')).1

theorem Ok.lt_next {v : Jobs} (h : v.Ok) {job : Job} (hjob : job ∈ v.unfinished) :
    1 ≤ job.id ∧ job.id < v.next := by
  have hmem : job.id ∈ List.range' 1 (v.next - 1) :=
    h.ids.mem_iff.1 (List.mem_append_left _ (List.mem_map_of_mem hjob))
  have := List.mem_range'_1.1 hmem
  have := h.pos
  omega

/-! ### The time of a job -/

/-- The job `id` of `total` seconds, `n` seconds after its start. -/
def Follows (v : Jobs) (id total n : Nat) : Prop :=
  (n < total → ∃ job ∈ v.unfinished, job.id = id ∧ job.remaining = total - n ∧
    job.total = total) ∧ (total ≤ n → id ∈ v.reported)

theorem Move.follows {v w : Jobs} {id total n : Nat} (hmove : Move v w)
    (h : v.Follows id total n) : w.Follows id total n := by
  obtain ⟨hreported, hkeys⟩ := hmove.effect
  refine ⟨fun hn => ?_, fun hn => by rw [hreported]; exact h.2 hn⟩
  obtain ⟨job, hjob, rfl, hr, ht⟩ := h.1 hn
  have hmem : job.key ∈ w.keys := by
    rcases hkeys with ⟨-, hkeys⟩ | ⟨_, -, -, hkeys⟩
    · exact hkeys.mem_iff.2 (mem_keys hjob)
    · exact hkeys.mem_iff.2 (List.mem_append_left _ (mem_keys hjob))
  obtain ⟨new, hnew, hid, hremaining, htotal⟩ := exists_of_mem_keys hmem
  exact ⟨new, hnew, hid, hremaining.trans hr, htotal.trans ht⟩

theorem follows_tick {v : Jobs} {id total n : Nat} (h : v.Follows id total n) :
    v.tick.Follows id total (n + 1) := by
  constructor
  · intro hn
    obtain ⟨job, hjob, hid, hr, ht⟩ := h.1 (by omega)
    refine ⟨job.tick, ?_, hid, ?_, ht⟩
    · rw [unfinished_tick]
      refine List.mem_filter.2 ⟨List.mem_map_of_mem hjob, ?_⟩
      simp only [Job.alive, Job.tick, bne_iff_ne, ne_eq]
      omega
    · show job.remaining - 1 = _
      omega
  · intro hn
    by_cases hdone : total ≤ n
    · exact List.mem_append_left _ (h.2 hdone)
    · obtain ⟨job, hjob, rfl, hr, ht⟩ := h.1 (by omega)
      refine List.mem_append_right _ (List.mem_map.2 ⟨job.tick, List.mem_filter.2
        ⟨List.mem_map_of_mem hjob, ?_⟩, rfl⟩)
      simp only [Job.alive, Job.tick, Bool.not_eq_true', bne_eq_false_iff_eq]
      omega

theorem Moves.follows {m n : Nat} {v w : Jobs} {id total : Nat} (hmoves : Moves n v w)
    (h : v.Follows id total m) : w.Follows id total (m + n) := by
  induction hmoves with
  | refl => exact h
  | move _ hmove ih => exact hmove.follows (ih h)
  | tick _ ih => exact follows_tick (ih h)

/-- The slot is not taken from its job. -/
theorem Move.active {v w : Jobs} (hmove : Move v w) {job job' : Job} (hv : v.active = some job)
    (hw : w.active = some job') : job'.id = job.id := by
  cases hmove with
  | stay => simp_all
  | start => simp_all
  | startActive _ hactive => simp_all
  | suspend => simp at hw
  | foreground _ hactive => simp_all

theorem active_iterate {n : Nat} {v : Jobs} {job' : Job} (h : (tick^[n] v).active = some job') :
    ∃ job, v.active = some job ∧ job'.id = job.id := by
  induction n generalizing job' with
  | zero => exact ⟨job', h, rfl⟩
  | succ n ih =>
    rw [Function.iterate_succ_apply'] at h
    obtain ⟨hsome, -⟩ := Option.filter_eq_some_iff.1 h
    obtain ⟨old, hold, rfl⟩ := Option.map_eq_some_iff.1 hsome
    obtain ⟨job, hjob, hid⟩ := ih hold
    exact ⟨job, hjob, hid⟩

/-- A job that is not done is not reported. -/
theorem Ok.count_zero {v : Jobs} (h : v.Ok) {job : Job} (hjob : job ∈ v.unfinished) :
    v.reported.count job.id = 0 := by
  refine List.count_eq_zero.2 fun hmem => ?_
  have hnodup := h.ids.nodup_iff.2 List.nodup_range'
  exact (List.nodup_append.1 hnodup).2.2 _ (List.mem_map_of_mem hjob) _ hmem rfl

/-- A job that is reported is reported once, and is in no other place. -/
theorem Ok.count_one {v : Jobs} (h : v.Ok) {id : Nat} (hmem : id ∈ v.reported) :
    v.reported.count id = 1 ∧ ∀ job ∈ v.unfinished, job.id ≠ id := by
  have hnodup := h.ids.nodup_iff.2 List.nodup_range'
  refine ⟨List.count_eq_one_of_mem (List.nodup_append.1 hnodup).2.1 hmem, fun job hjob hid => ?_⟩
  exact (List.nodup_append.1 hnodup).2.2 _ (List.mem_map_of_mem hjob) _ hmem hid

/-- The job that a byte starts. -/
theorem Move.started {v w : Jobs} (hmove : Move v w) (hnext : w.next ≠ v.next) :
    w.next = v.next + 1 ∧ ∃ job ∈ w.unfinished, job.id = v.next ∧ job.remaining = job.total ∧
      w.Follows job.id job.total 0 := by
  obtain ⟨-, ⟨hsame, -⟩ | ⟨total, htotal, hadd, hkeys⟩⟩ := hmove.effect
  · exact absurd hsame hnext
  have hmem : (v.next, total, total) ∈ w.keys :=
    hkeys.mem_iff.2 (List.mem_append_right _ List.mem_cons_self)
  obtain ⟨job, hjob, hid, hremaining, hjobTotal⟩ := exists_of_mem_keys hmem
  have hsame : job.remaining = job.total := by omega
  exact ⟨hadd, job, hjob, hid, hsame, fun _ => ⟨job, hjob, rfl, hsame, rfl⟩, by omega⟩

end Jobs

/-! ### The jobs of a terminal -/

/-- The id of the job that the message reports done. -/
def Message.reported : Message → Option Nat
  | finished job => some job.id
  | finishedJob job => some job.id
  | _ => none

namespace Terminal

/-- The jobs that were reported done. -/
def reports (t : Terminal) : List Nat := t.console.filterMap Message.reported

def view (t : Terminal) : Jobs where
  active := t.shell.active
  jobs := t.shell.jobs
  next := t.shell.nextJobId
  reported := t.reports

theorem reports_write (t : Terminal) (m : Message) :
    (t.write m).reports = t.reports ++ m.reported.toList := by
  cases h : m.reported <;> simp [reports, write, h]

theorem view_write {t : Terminal} {m : Message} (h : m.reported = none) :
    (t.write m).view = t.view := by
  rw [view, reports_write, h, Option.toList_none, List.append_nil]
  rfl

theorem reports_append {t : Terminal} {ms : List Message} (h : ∀ m ∈ ms, m.reported = none) :
    { t with console := t.console ++ ms }.reports = t.reports := by
  have hnone : ms.filterMap Message.reported = [] := List.filterMap_eq_nil_iff.2 h
  simp [reports, hnone]

theorem view_setLine (t : Terminal) (line : List Char) : (t.setLine line).view = t.view := rfl

theorem view_setActive (t : Terminal) (job : Option Job) :
    (t.setActive job).view = { t.view with active := job } := rfl

theorem view_setJobs (t : Terminal) (jobs : List Job) :
    (t.setJobs jobs).view = { t.view with jobs := jobs } := rfl

/-! ### A second -/

theorem tickJob_spec {job : Job} (h : job.remaining ≤ job.total) :
    ∃ ms, tickJob job = some (job.tick, ms) ∧ ∀ m ∈ ms, m.reported = none := by
  unfold tickJob
  split
  case isTrue hzero =>
    refine ⟨[], ?_, by simp⟩
    obtain ⟨id, name, kind, remaining, total, background⟩ := job
    subst hzero
    rfl
  case isFalse hpos =>
    dsimp only
    split
    · refine ⟨[.count job.tick (job.total - job.tick.remaining)], ?_, by simp [Message.reported]⟩
      have hle : job.remaining - 1 ≤ job.total := by omega
      simp [Word.sub, hle, Job.tick]
    · exact ⟨[], rfl, by simp⟩

theorem runJob_spec {t : Terminal} {job : Job} (h : job.remaining ≤ job.total) :
    ∃ t', t.runJob job = some (job.tick, t') ∧ t'.shell = t.shell ∧ t'.reports = t.reports := by
  obtain ⟨ms, htick, hms⟩ := tickJob_spec h
  refine ⟨{ t with console := t.console ++ ms }, ?_, rfl, reports_append hms⟩
  simp [runJob, htick]

/-- The foreground job is ticked first. -/
theorem tickActive_spec {t : Terminal}
    (h : ∀ job ∈ t.shell.active, job.remaining ≤ job.total) :
    ∃ t', t.tickActive = some t' ∧
      t'.shell = { t.shell with active := (t.shell.active.map Job.tick).filter Job.alive } ∧
      t'.reports = t.reports ++ Jobs.done t.shell.active.toList := by
  unfold tickActive
  cases hactive : t.shell.active with
  | none =>
    refine ⟨t, rfl, ?_, by simp [Jobs.done]⟩
    rw [Option.map_none, Option.filter_none, ← hactive]
  | some job =>
    obtain ⟨t', hrun, hshell, hreports⟩ :=
      runJob_spec (t := t.setActive none) (h job (by simp [hactive]))
    by_cases hzero : job.tick.remaining = 0
    · have hdead : job.tick.alive = false := by simp [Job.alive, hzero]
      refine ⟨(t'.write (.finished job.tick)).write .prompt, by simp [hrun, hzero], ?_, ?_⟩
      · rw [Option.map_some, Option.filter_some_neg (by simp [hdead])]
        exact hshell
      · rw [Option.toList_some, Jobs.done_cons, if_neg (by simp [hdead])]
        rw [reports_write, reports_write, hreports]
        exact List.append_nil _
    · have halive : job.tick.alive = true := by simp [Job.alive, hzero]
      refine ⟨t'.setActive (some job.tick), by simp [hrun, hzero], ?_, ?_⟩
      · rw [Option.map_some, Option.filter_some_pos halive]
        simp only [setActive, hshell]
      · rw [Option.toList_some, Jobs.done_cons, if_pos halive]
        show t'.reports = _
        rw [hreports]
        show t.reports = _
        simp [Jobs.done]

/-- The loop over the other jobs, past those of `before`. -/
theorem tickJobs_spec (before rest : List Job) {t : Terminal}
    (hjobs : t.shell.jobs = before ++ rest) (h : ∀ job ∈ rest, job.remaining ≤ job.total) :
    ∃ t', tickJobs rest.length before.length t = some t' ∧
      t'.shell = { t.shell with jobs := before ++ (rest.map Job.tick).filter Job.alive } ∧
      t'.reports = t.reports ++ Jobs.done rest := by
  induction rest generalizing before t with
  | nil =>
    refine ⟨t, rfl, ?_, by simp [Jobs.done]⟩
    rw [List.map_nil, List.filter_nil, ← hjobs]
  | cons job rest ih =>
    have hget : t.shell.jobs[before.length]? = some job := by
      rw [hjobs, List.getElem?_append_right (Nat.le_refl _), Nat.sub_self, List.getElem?_cons_zero]
    obtain ⟨t₁, hrun, hshell, hreports⟩ := runJob_spec (t := t) (h job List.mem_cons_self)
    have hrest : ∀ other ∈ rest, other.remaining ≤ other.total :=
      fun other hother => h other (List.mem_cons_of_mem _ hother)
    rw [List.length_cons, tickJobs, hget, Jobs.done_cons, List.map_cons, List.filter_cons]
    by_cases hzero : job.tick.remaining = 0
    · -- the job ends, and the next one moves to its index
      have hdead : job.tick.alive = false := by simp [Job.alive, hzero]
      let t₂ := (t₁.setJobs (before ++ rest)).write (.finishedJob job.tick)
      let t₃ := if t₂.shell.active.isNone then t₂.write .prompt else t₂
      have hthree : t₃.shell = t₂.shell ∧ t₃.reports = t₂.reports := by
        by_cases hactive : t₂.shell.active.isNone
        · simp only [t₃, if_pos hactive]
          exact ⟨rfl, by rw [reports_write]; exact List.append_nil _⟩
        · simp only [t₃, if_neg hactive, and_self]
      obtain ⟨t', htick, hshell', hreports'⟩ := ih before (t := t₃) (by rw [hthree.1]; rfl) hrest
      refine ⟨t', ?_, ?_, ?_⟩
      · have herase : t₁.shell.jobs.eraseIdx before.length = before ++ rest := by
          rw [hshell, hjobs, List.eraseIdx_append_of_length_le (Nat.le_refl _), Nat.sub_self,
            List.eraseIdx_cons_zero]
        simp only [hrun, Option.bind_eq_bind, Option.bind_some, hzero, if_true, herase]
        exact htick
      · rw [hshell', hthree.1]
        simp [hdead, t₂, setJobs, write, hshell]
      · rw [hreports', hthree.2, reports_write, if_neg (by simp [hdead]), ← List.append_assoc]
        show t₁.reports ++ _ ++ _ = _
        rw [hreports]
        rfl
    · have halive : job.tick.alive = true := by simp [Job.alive, hzero]
      have hset : t₁.shell.jobs.set before.length job.tick = before ++ [job.tick] ++ rest := by
        rw [hshell, hjobs, List.set_append_right _ _ (Nat.le_refl _), Nat.sub_self,
          List.set_cons_zero, List.append_assoc, List.singleton_append]
      obtain ⟨t', htick, hshell', hreports'⟩ :=
        ih (before ++ [job.tick]) (t := t₁.setJobs (before ++ [job.tick] ++ rest)) rfl hrest
      refine ⟨t', ?_, ?_, ?_⟩
      · simp only [hrun, Option.bind_eq_bind, Option.bind_some, hzero, if_false, hset]
        rw [List.length_append] at htick
        exact htick
      · rw [hshell', if_pos halive]
        simp [setJobs, hshell]
      · rw [hreports', if_pos halive, List.nil_append]
        show t₁.reports ++ _ = _
        rw [hreports]

theorem tickOneSecond_spec {t : Terminal} (h : t.view.Ok) :
    ∃ t', t.tickOneSecond = some t' ∧ t'.view = t.view.tick ∧
      t'.shell.lastSecond = t.shell.lastSecond := by
  have hle : ∀ job ∈ t.view.unfinished, job.remaining ≤ job.total :=
    fun job hjob => (h.remaining job hjob).2
  obtain ⟨t₁, hactive, hshell₁, hreports₁⟩ := tickActive_spec (t := t) fun job hjob =>
    hle job (List.mem_append_left _ (Option.mem_toList.2 hjob))
  obtain ⟨t₂, hjobs, hshell₂, hreports₂⟩ := tickJobs_spec [] t₁.shell.jobs rfl
    fun job hjob => hle job (List.mem_append_right _ (by rw [hshell₁] at hjob; exact hjob))
  refine ⟨t₂, ?_, ?_, by rw [hshell₂, hshell₁]⟩
  · rw [tickOneSecond, hactive]
    exact hjobs
  · rw [hshell₁] at hshell₂ hreports₂
    rw [view, hreports₂, hreports₁, hshell₂]
    simp [Jobs.tick, view, Jobs.unfinished, Jobs.done]

/-- A turn of the loop of `poll_jobs`. -/
theorem pollLoop_succ (n : Nat) {t : Terminal} (h : t.view.Ok)
    (hadd : t.shell.lastSecond + 1 < Word.modulus) :
    ∃ t', pollLoop (n + 1) t = pollLoop n t' ∧ t'.view = t.view.tick ∧
      t'.shell.lastSecond = t.shell.lastSecond + 1 := by
  obtain ⟨t', htick, hview, hsecond⟩ := tickOneSecond_spec
    (t := { t with shell := { t.shell with lastSecond := t.shell.lastSecond + 1 } }) h
  refine ⟨t', ?_, hview, hsecond⟩
  simp only [pollLoop, Word.add, if_pos hadd, Option.bind_eq_bind, Option.bind_some, htick]

/-- The clock does not panic before its counter ends. -/
theorem pollLoop_total (n : Nat) {t : Terminal} (h : t.view.Ok)
    (hn : t.shell.lastSecond + n < Word.modulus) : ∃ t', pollLoop n t = some t' := by
  induction n generalizing t with
  | zero => exact ⟨t, rfl⟩
  | succ n ih =>
    obtain ⟨t₁, hloop, hview, hsecond⟩ := pollLoop_succ n h (by omega)
    rw [hloop]
    exact ih (by rw [hview]; exact Jobs.ok_tick h) (by omega)

theorem view_pollLoop {n : Nat} {t t' : Terminal} (h : t.view.Ok)
    (hpoll : pollLoop n t = some t') : t'.view = Jobs.tick^[n] t.view := by
  induction n generalizing t with
  | zero =>
    cases hpoll
    rfl
  | succ n ih =>
    by_cases hadd : t.shell.lastSecond + 1 < Word.modulus
    · obtain ⟨t₁, hloop, hview, -⟩ := pollLoop_succ n h hadd
      rw [hloop] at hpoll
      rw [Function.iterate_succ_apply, ← hview]
      exact ih (by rw [hview]; exact Jobs.ok_tick h) hpoll
    · simp [pollLoop, Word.add, hadd] at hpoll

/-! ### A byte -/

theorem view_suspendActiveJob (t : Terminal) : Jobs.Move t.view t.suspendActiveJob.view := by
  unfold suspendActiveJob
  cases hactive : t.shell.active with
  | none => exact .stay
  | some job =>
    dsimp only
    rw [view_write rfl, view_setJobs, view_write rfl, view_setActive]
    exact .suspend true hactive

theorem view_printJobs (t : Terminal) : t.printJobs.view = t.view := by
  unfold printJobs
  split
  · exact view_write rfl
  · have hlisted : ∀ m ∈ t.shell.jobs.map Message.listed, m.reported = none := by
      simp [Message.reported]
    rw [view, reports_append hlisted]
    rfl

theorem view_foregroundJob {t : Terminal} (hactive : t.shell.active = none) (id : Option String) :
    Jobs.Move t.view (t.foregroundJob id).view := by
  unfold foregroundJob
  split
  · rw [view_write rfl]
    exact .stay
  split
  · rw [view_write rfl]
    exact .stay
  case h_2 index _ =>
    cases hget : t.shell.jobs[index]? with
    | none => exact .stay
    | some job =>
      obtain ⟨hlt, hjob⟩ := List.getElem?_eq_some_iff.1 hget
      have hsplit : t.view.jobs = t.shell.jobs.take index ++ job :: t.shell.jobs.drop (index + 1) := by
        rw [← hjob, ← List.drop_eq_getElem_cons hlt, List.take_append_drop]
        rfl
      dsimp only
      rw [view_setActive, view_write rfl, view_setJobs, List.eraseIdx_eq_take_drop_succ]
      exact .foreground false hactive hsplit

theorem view_runElf {t t' : Terminal} {program : Option String}
    (h : t.runElf program = some t') : t'.view = t.view := by
  unfold runElf at h
  split at h
  · cases h
    exact view_write rfl
  split at h
  case h_1 image _ =>
    obtain ⟨⟨result, sys⟩, -, h⟩ := Option.bind_eq_some_iff.1 h
    cases result with
    | ok i =>
      obtain ⟨p, -, h⟩ := Option.bind_eq_some_iff.1 h
      cases h
      exact view_write rfl
    | error e =>
      cases h
      exact view_write rfl
  · cases h
    exact view_write rfl

theorem view_startJob {t : Terminal} {job : Job} (hactive : t.shell.active = none)
    (hid : job.id = t.shell.nextJobId) (htotal : 1 ≤ job.total)
    (hremaining : job.remaining = job.total) :
    let t' := { t with shell := { t.shell with nextJobId := t.shell.nextJobId + 1 } }
    Jobs.Move t.view (t'.startJob job).view := by
  intro t'
  unfold startJob
  split
  · dsimp only
    rw [view_setJobs, view_write rfl]
    exact .start job hid htotal hremaining
  · rw [view_setActive, view_write rfl]
    exact .startActive job hactive hid htotal hremaining

theorem view_startLongJob {t t' : Terminal} {command : String} {words : List String}
    {background : Bool} (hactive : t.shell.active = none)
    (h : t.startLongJob command words background = some t') : Jobs.Move t.view t'.view := by
  unfold startLongJob at h
  split at h
  · cases h
    rw [view_write rfl]
    exact .stay
  obtain ⟨result, -, h⟩ := Option.bind_eq_some_iff.1 h
  cases result with
  | error e =>
    cases h
    rw [view_write rfl]
    exact .stay
  | ok _ =>
    obtain ⟨next, hadd, h⟩ := Option.bind_eq_some_iff.1 h
    cases h
    unfold Word.add at hadd
    split at hadd
    · cases hadd
      exact view_startJob hactive rfl (by simp [newJob]) rfl
    · cases hadd

theorem view_runShellCommand {t t' : Terminal} {line : List Char} {background handled : Bool}
    (hactive : t.shell.active = none)
    (h : t.runShellCommand line background = some (handled, t')) : Jobs.Move t.view t'.view := by
  unfold runShellCommand at h
  dsimp only at h
  split at h
  · cases h
    exact .stay
  · cases h
    rw [view_printJobs]
    exact .stay
  · cases h
    exact view_foregroundJob hactive _
  · obtain ⟨t₁, hrun, h⟩ := Option.map_eq_some_iff.1 h
    cases h
    rw [view_runElf hrun]
    exact .stay
  · obtain ⟨t₁, hrun, h⟩ := Option.map_eq_some_iff.1 h
    cases h
    rw [view_runElf hrun]
    exact .stay
  · obtain ⟨t₁, hrun, h⟩ := Option.map_eq_some_iff.1 h
    cases h
    exact view_startLongJob hactive hrun
  · obtain ⟨t₁, hrun, h⟩ := Option.map_eq_some_iff.1 h
    cases h
    exact view_startLongJob hactive hrun
  · cases h
    exact .stay

theorem runShellCommand_false {t t' : Terminal} {line : List Char} {background : Bool}
    (h : t.runShellCommand line background = some (false, t')) : t' = t := by
  unfold runShellCommand at h
  dsimp only at h
  split at h <;> simp_all

theorem view_runProgram {t t' : Terminal} {line : List Char} (h : t.runProgram line = some t') :
    t'.view = t.view := by
  unfold runProgram at h
  split at h
  · cases h
    exact view_write rfl
  · obtain ⟨⟨result, fs⟩, -, h⟩ := Option.map_eq_some_iff.1 h
    cases result with
    | ok output =>
      cases h
      rw [view_write rfl, view_write rfl]
      rfl
    | error err =>
      cases h
      exact view_write rfl

theorem view_runForeground {t t' : Terminal} {line : List Char} {background : Bool}
    (hactive : t.shell.active = none) (h : t.runForeground line background = some t') :
    Jobs.Move t.view t'.view := by
  obtain ⟨⟨handled, t₁⟩, hcommand, h⟩ := Option.bind_eq_some_iff.1 h
  cases handled with
  | true =>
    cases h
    exact view_runShellCommand hactive hcommand
  | false =>
    rw [runShellCommand_false hcommand] at h
    rw [view_runProgram h]
    exact .stay

theorem view_runLine {t t' : Terminal} (hactive : t.shell.active = none)
    (h : t.runLine = some t') : Jobs.Move t.view t'.view := by
  unfold runLine at h
  dsimp only at h
  split at h
  · cases h
    exact .stay
  split at h
  · split at h
    · cases h
      exact .stay
    · exact view_runForeground hactive h
  · exact view_runForeground hactive h

theorem view_handleByte {t t' : Terminal} {byte : UInt8} (h : t.handleByte byte = some t') :
    Jobs.Move t.view t'.view := by
  unfold handleByte at h
  split at h
  · split at h
    · cases h
      exact view_suspendActiveJob t
    · cases h
      exact .stay
  case isFalse hactive =>
    have hnone : t.shell.active = none := by simpa using hactive
    split at h
    · obtain ⟨t₁, hline, h⟩ := Option.bind_eq_some_iff.1 h
      cases h
      have hmove := view_runLine (t := t.write .newline) hnone hline
      rw [view_write rfl] at hmove
      rw [view_write rfl, view_setLine]
      exact hmove
    split at h
    · split at h
      · cases h
        exact .stay
      · cases h
        rw [view_write rfl]
        exact .stay
    split at h
    · cases h
      rw [view_write rfl]
      exact .stay
    · cases h
      exact .stay

/-! ### Runs of the shell -/

/-- The shell when its loop starts. -/
def boot (fs : Option RamFs) (sys : System) : Terminal := ⟨Shell.new, fs, sys, [.prompt]⟩

/-- A byte, the first `n` seconds of a `poll_jobs`, or what other tasks do to the files and to the
processes. -/
inductive Step : Nat → Terminal → Terminal → Prop
  | byte {t t' : Terminal} (byte : UInt8) : t.handleByte byte = some t' → Step 0 t t'
  | poll {t t' : Terminal} (n : Nat) : pollLoop n t = some t' → Step n t t'
  | others {t : Terminal} (fs : Option RamFs) (sys : System) :
      Step 0 t { t with fs := fs, sys := sys }

/-- A call of `poll_jobs` ticks once for each second that has passed. -/
theorem Step.pollJobs {t t' : Terminal} {timerTicks : Nat} (h : t.pollJobs timerTicks = some t') :
    Step (timerTicks / 100 - t.shell.lastSecond) t t' := .poll _ h

/-- A run with `n` calls of `tick_one_second`. -/
inductive Runs : Nat → Terminal → Terminal → Prop
  | refl (t : Terminal) : Runs 0 t t
  | step {m n : Nat} {t t' t'' : Terminal} : Runs m t t' → Step n t' t'' → Runs (m + n) t t''

theorem Step.moves {n : Nat} {t t' : Terminal} (hstep : Step n t t') (h : t.view.Ok) :
    Jobs.Moves n t.view t'.view := by
  cases hstep with
  | byte byte hbyte => exact .move (.refl _) (view_handleByte hbyte)
  | poll n hpoll =>
    rw [view_pollLoop h hpoll]
    exact Jobs.moves_iterate n _
  | others fs sys => exact .refl _

theorem Runs.moves {n : Nat} {t t' : Terminal} (hruns : Runs n t t') (h : t.view.Ok) :
    Jobs.Moves n t.view t'.view := by
  induction hruns with
  | refl => exact .refl _
  | step _ hstep ih => exact (ih h).trans (hstep.moves ((ih h).ok h))

theorem ok_boot (fs : Option RamFs) (sys : System) : (boot fs sys).view.Ok :=
  ⟨Nat.le_refl _, List.Perm.refl _, fun _ hjob => absurd hjob List.not_mem_nil⟩

theorem Step.active {n : Nat} {t t' : Terminal} (hstep : Step n t t') (h : t.view.Ok)
    {job job' : Job} (ht : t.shell.active = some job) (ht' : t'.shell.active = some job') :
    job'.id = job.id := by
  cases hstep with
  | byte byte hbyte => exact (view_handleByte hbyte).active ht ht'
  | poll n hpoll =>
    have hactive : (Jobs.tick^[n] t.view).active = some job' := by
      rw [← view_pollLoop h hpoll]
      exact ht'
    obtain ⟨old, hold, hid⟩ := Jobs.active_iterate hactive
    have : some old = some job := hold.symm.trans ht
    cases this
    exact hid
  | others fs sys =>
    cases ht.symm.trans ht'
    rfl

/-- The jobs in the slot, in the list, and the ones reported done are those that were started, each
once, and a job is reported after as many calls of `tick_one_second` as it has seconds. -/
theorem jobs_kept {fs : Option RamFs} {sys : System} {n : Nat} {t : Terminal}
    (hruns : Runs n (boot fs sys) t) :
    (∀ id, 1 ≤ id → id < t.shell.nextJobId →
      (t.shell.active.toList.map Job.id).count id + (t.shell.jobs.map Job.id).count id +
        t.reports.count id = 1) ∧
    ((t.shell.active.toList ++ t.shell.jobs).map Job.id).Nodup ∧
    (∀ job ∈ t.shell.active.toList ++ t.shell.jobs, 1 ≤ job.id ∧ job.id < t.shell.nextJobId ∧
      1 ≤ job.remaining ∧ job.remaining ≤ job.total) ∧
    (∀ k t', Step k t t' → ∀ job job', t.shell.active = some job → t'.shell.active = some job' →
      job'.id = job.id) ∧
    (∀ k, t.shell.lastSecond + k < Word.modulus → ∃ t', pollLoop k t = some t') ∧
    (∀ byte t', t.handleByte byte = some t' → t'.shell.nextJobId ≠ t.shell.nextJobId →
      ∃ job ∈ t'.shell.active.toList ++ t'.shell.jobs, job.id = t.shell.nextJobId ∧
        job.remaining = job.total ∧ t'.shell.nextJobId = t.shell.nextJobId + 1 ∧
        ∀ k u, Runs k t' u →
          (k < job.total → u.reports.count job.id = 0 ∧
            ∃ later ∈ u.shell.active.toList ++ u.shell.jobs, later.id = job.id ∧
              later.remaining = job.total - k ∧ later.total = job.total) ∧
          (job.total ≤ k → u.reports.count job.id = 1 ∧
            ∀ later ∈ u.shell.active.toList ++ u.shell.jobs, later.id ≠ job.id)) := by
  have hok : t.view.Ok := (hruns.moves (ok_boot fs sys)).ok (ok_boot fs sys)
  refine ⟨fun id hpos hid => hok.count hpos hid, hok.nodup, fun job hjob => ?_,
    fun k t' hstep job job' ht ht' => hstep.active hok ht ht', fun k hk => pollLoop_total k hok hk,
    fun byte t' hbyte hnext => ?_⟩
  · obtain ⟨hpos, hlt⟩ := hok.lt_next hjob
    exact ⟨hpos, hlt, hok.remaining job hjob⟩
  · have hmove := view_handleByte hbyte
    obtain ⟨hadd, job, hjob, hid, hremaining, hfollows⟩ := hmove.started hnext
    refine ⟨job, hjob, hid, hremaining, hadd, fun k u hu => ?_⟩
    have hmoves := hu.moves (hmove.ok hok)
    have hlater := hmoves.ok (hmove.ok hok)
    obtain ⟨hbefore, hafter⟩ := hmoves.follows hfollows
    rw [Nat.zero_add] at hbefore hafter
    refine ⟨fun hk => ?_, fun hk => hlater.count_one (hafter hk)⟩
    obtain ⟨later, hmem, hsame, hr, ht⟩ := hbefore hk
    rw [← hsame]
    exact ⟨hlater.count_zero hmem, later, hmem, rfl, hr, ht⟩

theorem Runs.bytes {bytes : List UInt8} {n : Nat} {t t' t'' : Terminal} (hruns : Runs n t t')
    (h : bytes.foldlM handleByte t' = some t'') : Runs n t t'' := by
  induction bytes generalizing t' with
  | nil =>
    cases h
    exact hruns
  | cons byte bytes ih =>
    obtain ⟨t₁, hbyte, h⟩ := Option.bind_eq_some_iff.1 h
    exact ih (hruns.step (.byte byte hbyte)) h

/-- `sleep 2` is stopped after a second, brought back, and done after another. -/
theorem jobs_kept_sleep : ∃ fs sys t t' u, Runs 0 (boot fs sys) t ∧ t.handleByte 13 = some t' ∧
    t'.shell.active.map Job.total = some 2 ∧ Runs 2 t' u ∧
    .stopped ⟨1, "sleep", .Sleep, 1, 2, true⟩ ∈ u.console ∧ u.reports.count 1 = 1 := by
  have hrun : (do
      let t ← (utf8 "sleep 2").foldlM handleByte (boot
        (some ((RamFs.new.mkdir "/bin").2.write "/bin/sleep" (Elf.buildProgramImage .Sleep)).2)
        { pm := { buddy := ⟨[], [], 0⟩, mem := { bytes := fun _ => 0, stores := [] } }
          kernelPml4 := 0, ring0StackTop := 0, procs := [], readyQueue := []
          nextPid := 1, current := none, chunks := [], cr3 := 0, rsp0 := 0 })
      let t' ← t.handleByte 13
      let a ← pollLoop 1 t'
      let b ← (26 :: utf8 "fg 1\r").foldlM handleByte a
      let u ← pollLoop 1 b
      return (t.shell.nextJobId, t'.shell.nextJobId, t'.shell.active, t'.shell.jobs,
        u.console.contains (.stopped ⟨1, "sleep", .Sleep, 1, 2, true⟩))) =
      some (1, 2, some ⟨1, "sleep", .Sleep, 2, 2, false⟩, [], true) := by decide +kernel
  obtain ⟨t, ht, hrun⟩ := Option.bind_eq_some_iff.1 hrun
  obtain ⟨t', ht', hrun⟩ := Option.bind_eq_some_iff.1 hrun
  obtain ⟨a, ha, hrun⟩ := Option.bind_eq_some_iff.1 hrun
  obtain ⟨b, hb, hrun⟩ := Option.bind_eq_some_iff.1 hrun
  obtain ⟨u, hu, hrun⟩ := Option.bind_eq_some_iff.1 hrun
  simp only [Option.pure_def, Option.some.injEq, Prod.mk.injEq] at hrun
  obtain ⟨hnext, hnext', hactive, hjobs, hstopped⟩ := hrun
  have hfirst : Runs 0 (boot _ _) t := (Runs.refl _).bytes ht
  have hlast : Runs 2 t' u := (((Runs.refl t').step (.poll 1 ha)).bytes hb).step (.poll 1 hu)
  refine ⟨_, _, t, t', u, hfirst, ht', by rw [hactive]; rfl, hlast, by simpa using hstopped, ?_⟩
  obtain ⟨job, hjob, hid, -, -, hlater⟩ :=
    (jobs_kept hfirst).2.2.2.2.2 13 t' ht' (by rw [hnext, hnext']; decide)
  rw [hactive, hjobs] at hjob
  obtain rfl := List.mem_singleton.1 hjob
  exact ((hlater 2 u hlast).2 (Nat.le_refl 2)).1

end Terminal

end Zeronix
