import Zeronix.Task.Loading
import Zeronix.Task.Scheduler

/-!
# The memory of the system

The page tables of the processes and the blocks they hold, over whole runs.  `Sound` says that
the tables stand over the memory of the allocator as `Spaces` describes; every step of the
kernel keeps it (`Sound.step`), and it holds after boot (`boot_sound`).

Page tables and programs are written where they are in physical memory.  The kernel writes them
through the window at `KERNEL_VMA`, which is the same for as long as no image was loaded into the
upper half (`window_in_place`): results about what is written then are about runs without such
images (`LowSteps`).

A process identifier is given out only with at least one frame, so there are no more of them
than pages, and the counter does not wrap.
-/

namespace Zeronix

open Radix BuddyAllocator Session Mapper Page

/-- What a process keeps from its creation on. -/
def Proc.image (p : Proc) : Proc := { p with state := .Ready, ticksLeft := 0 }

namespace System

variable {s s' s'' : System} {b : BuddyAllocator} {live : List (Nat × Nat)}

/-- The roots of the page tables in use. -/
def roots (s : System) : List Nat :=
  s.kernelPml4 :: (s.procs.filter fun p => p.kind = .User).map Proc.pagetable

/-! ### Scheduling -/

/-- Nothing changed but which process runs. -/
structure Rescheduled (s s' : System) : Prop where
  pm : s'.pm = s.pm
  kernelPml4 : s'.kernelPml4 = s.kernelPml4
  images : s'.procs.map Proc.image = s.procs.map Proc.image
  nextPid : s'.nextPid = s.nextPid
  chunks : s'.chunks = s.chunks

theorem Rescheduled.refl (s : System) : Rescheduled s s := ⟨rfl, rfl, rfl, rfl, rfl⟩

theorem Rescheduled.trans (h : Rescheduled s s') (h' : Rescheduled s' s'') : Rescheduled s s'' :=
  ⟨h'.pm.trans h.pm, h'.kernelPml4.trans h.kernelPml4, h'.images.trans h.images,
    h'.nextPid.trans h.nextPid, h'.chunks.trans h.chunks⟩

theorem Rescheduled.roots_eq (h : Rescheduled s s') : s'.roots = s.roots := by
  have hroots : ∀ s : System, s.roots = s.kernelPml4 ::
      ((s.procs.map Proc.image).filter fun p => p.kind = .User).map Proc.pagetable := by
    intro s
    rw [List.filter_map, List.map_map]
    rfl
  rw [hroots, hroots, h.images, h.kernelPml4]

theorem Rescheduled.data_eq (h : Rescheduled s s') : s'.data = s.data := by
  have hdata : ∀ s : System, s.data = (s.procs.map Proc.image).flatMap Proc.blocks ++
      s.chunks.map fun a => (a, CHUNK_ORDER) := by
    intro s
    rw [List.flatMap_map]
    rfl
  rw [hdata, hdata, h.images, h.chunks]

theorem map_image_modify (procs : List Proc) (i : Nat) {f : Proc → Proc}
    (hf : ∀ p, (f p).image = p.image) : (procs.modify i f).map Proc.image = procs.map Proc.image := by
  refine List.ext_getElem? fun j => ?_
  rw [List.getElem?_map, List.getElem?_map, List.getElem?_modify]
  cases procs[j]? with
  | none => rfl
  | some p =>
    by_cases hij : i = j
    · simp [hij, hf p]
    · simp [hij]

theorem pushReady_rescheduled (s : System) (i : Nat) : Rescheduled s (s.pushReady i) :=
  ⟨rfl, rfl, map_image_modify _ _ fun _ => rfl, rfl, rfl⟩

theorem schedule_rescheduled (h : s.schedule = some s') : Rescheduled s s' := by
  unfold schedule at h
  split at h
  · obtain rfl := Option.some.inj h
    exact .refl s
  · rename_i next rest hq
    simp only at h
    split at h
    · simp at h
    · rename_i old hc
      split at h
      · obtain rfl := Option.some.inj h
        exact ⟨rfl, rfl, rfl, rfl, rfl⟩
      · obtain ⟨s₁, hreq, hsw⟩ := Option.bind_eq_some_iff.mp h
        have h₁ : Rescheduled s s₁ := by
          obtain ⟨p, hp, hreq⟩ := Option.bind_eq_some_iff.mp hreq
          split at hreq
          · obtain rfl := Option.some.inj hreq
            exact ⟨rfl, rfl, map_image_modify _ _ fun _ => rfl, rfl, rfl⟩
          · obtain rfl := Option.some.inj hreq
            exact ⟨rfl, rfl, rfl, rfl, rfl⟩
        obtain ⟨p, _, hsw⟩ := Option.bind_eq_some_iff.mp hsw
        obtain rfl := Option.some.inj hsw
        exact h₁.trans ⟨rfl, rfl, map_image_modify _ _ fun _ => rfl, rfl, rfl⟩

theorem exitCurrent_rescheduled (h : s.exitCurrent = some s') : Rescheduled s s' := by
  unfold exitCurrent at h
  split at h
  · exact schedule_rescheduled h
  · rename_i i _
    have hexit : Rescheduled s (s.setState i .Exited) :=
      ⟨rfl, rfl, map_image_modify _ _ fun _ => rfl, rfl, rfl⟩
    exact hexit.trans (schedule_rescheduled h)

theorem onTimerTick_rescheduled (h : s.onTimerTick = some s') : Rescheduled s s' := by
  unfold onTimerTick at h
  split at h
  · obtain rfl := Option.some.inj h
    exact .refl s
  · simp only [Option.bind_eq_bind, Option.bind_eq_some_iff] at h
    obtain ⟨p, _, h⟩ := h
    have hticks : ∀ i ticks, Rescheduled s
        { s with procs := s.procs.modify i fun p => { p with ticksLeft := ticks } } :=
      fun _ _ => ⟨rfl, rfl, map_image_modify _ _ fun _ => rfl, rfl, rfl⟩
    split at h
    · exact (hticks _ _).trans (schedule_rescheduled h)
    · obtain rfl := Option.some.inj h
      exact hticks _ _

/-! ### The invariant -/

/-- The page tables stand over the memory of the allocator, and there are frames for every
identifier that was given out. -/
structure Sound (b : BuddyAllocator) (s : System) (live : List (Nat × Nat)) : Prop where
  spaces : Spaces s.kernelPml4 s.roots s.data b live s.pm
  pos : 1 ≤ s.nextPid
  pids : s.nextPid ≤ live.length + 1

theorem Sound.rescheduled (h : Sound b s live) (hs : Rescheduled s s') : Sound b s' live := by
  refine ⟨?_, by rw [hs.nextPid]; exact h.pos, by rw [hs.nextPid]; exact h.pids⟩
  rw [hs.kernelPml4, hs.roots_eq, hs.data_eq, hs.pm]
  exact h.spaces

/-- The boot process has no blocks and no page table of its own. -/
theorem init_spec (h : s.init = some s') : ∃ more, s' = { s with
    procs := s.procs ++ more, current := s'.current } ∧
    ∀ p ∈ more, p.kind = .Kernel ∧ p.pid = 0 ∧ p.pagetable = s.kernelPml4 := by
  unfold init at h
  split at h
  · obtain rfl := Option.some.inj h
    exact ⟨[], by rw [List.append_nil], by simp⟩
  · obtain ⟨pml4, hpml4, rfl⟩ := Option.map_eq_some_iff.mp h
    exact ⟨_, rfl, by simp [kernelPml4?_eq_some hpml4]⟩

theorem Sound.init (h : Sound b s live) (he : s.init = some s') : Sound b s' live ∧
    s'.roots = s.roots ∧ s'.data = s.data := by
  obtain ⟨more, hs', hmore⟩ := init_spec he
  have hroots : s'.roots = s.roots := by
    have hnone : more.filter (fun p => p.kind = .User) = [] := by
      rw [List.filter_eq_nil_iff]
      intro p hp
      simp [(hmore p hp).1]
    rw [hs', roots, roots, List.filter_append, hnone, List.append_nil]
  have hdata : s'.data = s.data := by
    have hnone : more.flatMap Proc.blocks = [] := by
      rw [List.flatMap_eq_nil_iff]
      intro p hp
      rw [Proc.blocks, if_pos (hmore p hp).2.1]
    rw [hs', data, data, List.flatMap_append, hnone, List.append_nil]
  refine ⟨⟨?_, ?_, ?_⟩, hroots, hdata⟩
  · rw [hroots, hdata, hs']
    exact h.spaces
  · rw [hs']
    exact h.pos
  · rw [hs']
    exact h.pids

/-- A process with its blocks and its page table. -/
theorem spaces_add {R : List Nat} {D : List (Nat × Nat)} {p : Proc}
    (h : Spaces s.kernelPml4 R D b live s.pm) (hR : ∀ r ∈ s.roots, r ∈ R)
    (hp : p.kind = .User → p.pagetable ∈ R) (hD : D.Perm (p.blocks ++ s.data)) :
    Spaces s.kernelPml4 { s with procs := s.procs ++ [p] }.roots
      { s with procs := s.procs ++ [p] }.data b live s.pm := by
  have hperm : { s with procs := s.procs ++ [p] }.data.Perm D := by
    refine List.Perm.trans ?_ hD.symm
    rw [data, data, List.flatMap_append, List.flatMap_singleton, ← List.append_assoc]
    exact List.perm_append_comm.append_right _
  refine h.weaken ?_ List.mem_cons_self (fun x hx => hperm.mem_iff.mp hx) (hperm.nodup_iff.mpr h.nodup)
  intro r hr
  rw [roots, List.filter_append, List.map_append, ← List.cons_append] at hr
  rcases List.mem_append.mp hr with hr | hr
  · exact hR r hr
  · obtain ⟨q, hq, rfl⟩ := List.mem_map.mp hr
    obtain ⟨hq, hkind⟩ := List.mem_filter.mp hq
    obtain rfl := List.mem_singleton.mp hq
    exact hp (by simpa using hkind)

/-! ### A new user process -/

theorem Sound.pid_lt (h : Sound b s live) (hb : b.metadata.length ≤ MAX_SUPPORTED_PAGES) :
    s.nextPid ≤ 2 ^ 17 + 1 := by
  have hlen := h.spaces.tables.ledger.length_live_le
  have hpids := h.pids
  have hmax : MAX_SUPPORTED_PAGES = 2 ^ 17 := by decide
  simp only at hlen
  omega

/-- The counter after one more process. -/
theorem Sound.fetch (h : Sound b s live) (hb : b.metadata.length ≤ MAX_SUPPORTED_PAGES)
    (new : List (Nat × Nat)) (hnew : new ≠ []) : 1 ≤ (s.nextPid + 1) % Word.modulus ∧
      (s.nextPid + 1) % Word.modulus ≤ (new ++ live).length + 1 := by
  have hlt := h.pid_lt hb
  have hpids := h.pids
  have hpos := List.length_pos_iff.mpr hnew
  have hmod : Word.modulus = 2 ^ 64 := rfl
  rw [hmod, Nat.mod_eq_of_lt (by omega), List.length_append]
  omega

/-- What the processor finds in the table `u` of a new process, and in the others. -/
structure Loaded (s s' : System) (u virt code stackTop ustack : Nat) : Prop where
  fresh : u ∉ s.roots
  low : ∀ v, ¬ High v → walk s'.pm.mem u v =
    (lastCall (bootCalls ++ userCalls virt code stackTop ustack) v).map Call.translation
  kept : ¬ High virt → ∀ r ∈ s.roots, ∀ v, walk s'.pm.mem r v = walk s.pm.mem r v
  upper : ¬ High virt → ∀ v, High v → walk s'.pm.mem u v = walk s.pm.mem s.kernelPml4 v
  opened : High virt → walk s'.pm.mem u virt = some ⟨code &&& ADDR_MASK, true, false, false⟩
  blank : ∀ v, High v → pageBits virt ≠ pageBits v → walk s.pm.mem s.kernelPml4 v = none →
    walk s'.pm.mem u v = none

/-- The page table and the blocks of a new process. -/
theorem Sound.blocks {u kstack code ustack : Nat} {pm₁ pm₂ : PhysMem} (h : Sound b s live)
    (hpt : s.newPageTable = some (u, pm₁))
    (hblk : allocBlocks pm₁ = some (some (kstack, code, ustack), pm₂)) :
    u ≠ s.kernelPml4 ∧ pm₂.mem = pm₁.mem ∧ ∃ live', Spaces s.kernelPml4 (u :: s.roots)
      ((ustack, USER_STACK_ORDER) :: (code, 0) :: (kstack, KERNEL_STACK_ORDER) :: s.data) b live' pm₂ := by
  obtain ⟨_, _, hfresh, h₁, _⟩ := newPageTable_spec h.spaces hpt
  obtain ⟨hmem, _, _, hblocks⟩ := allocBlocks_spec h₁ hblk
  refine ⟨?_, hmem, _, hblocks _ _ _ rfl⟩
  rintro rfl
  exact hfresh h.spaces.kernel

/-- **A new user process**, for `spawn_user` and for `spawn_elf`. -/
theorem Sound.load {u kstack code ustack virt rip stackTop i : Nat} {bytes : List UInt8}
    {pm₁ pm₂ : PhysMem} (h : Sound b s live) (hb : b.metadata.length ≤ MAX_SUPPORTED_PAGES)
    (hpt : s.newPageTable = some (u, pm₁))
    (hblk : allocBlocks pm₁ = some (some (kstack, code, ustack), pm₂))
    (hlen : bytes.length ≤ PAGE_SIZE) (hstack : stackTop < 2 ^ 47)
    (he : { s with nextPid := (s.nextPid + 1) % Word.modulus, pm := pm₂ }.loadUser s.nextPid u
      (kstack, code, ustack) bytes virt rip stackTop = some (i, s')) :
    ∃ new p, Sound b s' (new ++ live) ∧ Loaded s s' u virt code stackTop ustack ∧
      i = s.procs.length ∧ p.pid = s.nextPid ∧ p.pagetable = u ∧ p.kind = .User ∧
      p.userCodePhys = some code ∧ p.userStackPhys = some ustack ∧
      Rescheduled { s with
        nextPid := (s.nextPid + 1) % Word.modulus
        pm := s'.pm
        procs := s.procs ++ [p] } s' := by
  obtain ⟨new₁, hne, hfresh, h₁, hkept₁, hupper₁, hlow₁⟩ := newPageTable_spec h.spaces hpt
  obtain ⟨hmem, new₂, _, hblocks⟩ := allocBlocks_spec h₁ hblk
  have h₂ := hblocks _ _ _ rfl
  have huk : u ≠ s.kernelPml4 := by
    rintro rfl
    exact hfresh h.spaces.kernel
  obtain ⟨new₃, pm₃, top, tf, h₃, hs', hlow, hkept, hopen, hblank⟩ := loadUser_spec
    (s := { s with nextPid := (s.nextPid + 1) % Word.modulus, pm := pm₂ }) h₂ List.mem_cons_self huk
    (by simp) (by simp) hlen hstack he
  obtain ⟨rfl, rfl⟩ := Prod.mk.inj hs'
  have hre := pushReady_rescheduled { s with
    nextPid := (s.nextPid + 1) % Word.modulus
    pm := pm₃
    procs := s.procs ++ [{
      pid := s.nextPid
      state := .Ready
      pagetable := u
      kstackPhys := kstack
      kstackTop := top
      kind := .User
      ticksLeft := DEFAULT_TIME_SLICE_TICKS
      entry := none
      trapFrame := some tf
      userCodePhys := some code
      userStackPhys := some ustack }] } s.procs.length
  obtain ⟨hpos, hpids⟩ := h.fetch hb (new₃ ++ new₂ ++ new₁) (by simp [hne])
  have hpid : s.nextPid ≠ 0 := Nat.ne_of_gt h.pos
  refine ⟨new₃ ++ new₂ ++ new₁, _, Sound.rescheduled ⟨?_, hpos, hpids⟩ hre,
    ⟨hfresh, fun v hv => ?_, fun hv r hr v => ?_, fun hv v hv' => ?_, hopen,
      fun v hv hne hwalk => hblank v hv hne ?_⟩, rfl, rfl, rfl, rfl, rfl, rfl, hre⟩
  · refine spaces_add (s := { s with nextPid := (s.nextPid + 1) % Word.modulus, pm := pm₃ })
      (R := u :: s.roots) (by rw [List.append_assoc, List.append_assoc]; exact h₃)
      (fun r hr => List.mem_cons_of_mem _ hr) (fun _ => List.mem_cons_self) ?_
    simp only [Proc.blocks, if_neg hpid, Option.map_some, Option.toList_some, List.cons_append,
      List.nil_append]
    exact ((List.Perm.swap _ _ _).cons _).trans ((List.Perm.swap _ _ _).trans
      ((List.Perm.swap _ _ _).cons _))
  · rw [lastCall_append]
    refine (hlow v hv).trans ?_
    simp only
    rw [hmem, hlow₁ v hv]
    cases lastCall (userCalls virt code stackTop ustack) v <;> rfl
  · have hne : r ≠ u := by
      rintro rfl
      exact hfresh hr
    refine (hkept hv r (List.mem_cons_of_mem _ hr) v (Or.inl hne)).trans ?_
    simp only
    rw [hmem, hkept₁ r hr v]
  · refine (hkept hv u List.mem_cons_self v (Or.inr hv')).trans ?_
    simp only
    rw [hmem, hupper₁ v hv']
  · rw [hmem, hupper₁ v hv, hwalk]

/-- A process for which there was no memory leaves its page table behind. -/
theorem Sound.leak {u : Nat} {pm₁ pm₂ : PhysMem} (h : Sound b s live)
    (hb : b.metadata.length ≤ MAX_SUPPORTED_PAGES) (hpt : s.newPageTable = some (u, pm₁))
    (hblk : allocBlocks pm₁ = some (none, pm₂)) :
    (∃ new, new ≠ [] ∧
      Sound b { s with nextPid := (s.nextPid + 1) % Word.modulus, pm := pm₂ } (new ++ live)) ∧
      ∀ r ∈ s.roots, ∀ v, walk pm₂.mem r v = walk s.pm.mem r v := by
  obtain ⟨new₁, hne, hfresh, h₁, hkept₁, _⟩ := newPageTable_spec h.spaces hpt
  obtain ⟨hmem, new₂, h₂, _⟩ := allocBlocks_spec h₁ hblk
  obtain ⟨hpos, hpids⟩ := h.fetch hb (new₂ ++ new₁) (by simp [hne])
  refine ⟨⟨new₂ ++ new₁, by simp [hne], ?_, hpos, hpids⟩, fun r hr v => by rw [hmem, hkept₁ r hr v]⟩
  rw [List.append_assoc]
  exact h₂.weaken (fun r hr => List.mem_cons_of_mem _ hr) List.mem_cons_self (fun _ hx => hx) h₂.nodup

/-! ### Steps -/

/-- No user process is new, and no walk has changed. -/
structure Kept (s s' : System) : Prop where
  kernelPml4 : s'.kernelPml4 = s.kernelPml4
  walks : ∀ r ∈ s.roots, ∀ v, walk s'.pm.mem r v = walk s.pm.mem r v
  users : ∀ p' ∈ s'.procs, p'.kind = .User → ∃ p ∈ s.procs, p.image = p'.image

/-- The process `p` is new. -/
structure Spawned (s s' : System) (p : Proc) (virt code stackTop ustack : Nat) : Prop where
  kernelPml4 : s'.kernelPml4 = s.kernelPml4
  loaded : Loaded s s' p.pagetable virt code stackTop ustack
  pid : p.pid = s.nextPid
  kind : p.kind = .User
  userCodePhys : p.userCodePhys = some code
  userStackPhys : p.userStackPhys = some ustack
  stackTop : userStackTop p.pid = some stackTop
  users : ∀ p' ∈ s'.procs, p'.kind = .User → p.image = p'.image ∨ ∃ q ∈ s.procs, q.image = p'.image

theorem Rescheduled.exists_image (h : Rescheduled s s') {p' : Proc} (hp : p' ∈ s'.procs) :
    ∃ p ∈ s.procs, p.image = p'.image := by
  have hm : p'.image ∈ s.procs.map Proc.image := by
    rw [← h.images]
    exact List.mem_map_of_mem hp
  exact List.mem_map.mp hm

theorem Rescheduled.kept (h : Rescheduled s s') : Kept s s' :=
  ⟨h.kernelPml4, fun _ _ _ => by rw [h.pm], fun _ hp _ => h.exists_image hp⟩

theorem kind_of_image {p q : Proc} (h : p.image = q.image) : p.kind = q.kind := by
  have hkind := congrArg Proc.kind h
  exact hkind

theorem init_users (h : s.init = some s') {p : Proc} (hp : p ∈ s'.procs) (hk : p.kind = .User) :
    p ∈ s.procs := by
  obtain ⟨more, hs', hmore⟩ := init_spec h
  rw [hs'] at hp
  rcases List.mem_append.mp hp with hp | hp
  · exact hp
  · rw [(hmore p hp).1] at hk
    simp at hk

theorem init_same (h : s.init = some s') : s'.pm = s.pm ∧ s'.kernelPml4 = s.kernelPml4 ∧
    s'.nextPid = s.nextPid := by
  obtain ⟨more, hs', _⟩ := init_spec h
  rw [hs']
  exact ⟨rfl, rfl, rfl⟩

/-- A user process spawned after `init`. -/
theorem Spawned.of_load {s₁ : System} {p : Proc} {u virt code stackTop ustack : Nat}
    (h : Sound b s live) (hinit : s.init = some s₁) (hl : Loaded s₁ s' u virt code stackTop ustack)
    (hpid : p.pid = s₁.nextPid) (hpt : p.pagetable = u) (hkind : p.kind = .User)
    (hcode : p.userCodePhys = some code) (hustack : p.userStackPhys = some ustack)
    (htop : userStackTop s₁.nextPid = some stackTop)
    (hre : Rescheduled { s₁ with
      nextPid := (s₁.nextPid + 1) % Word.modulus
      pm := s'.pm
      procs := s₁.procs ++ [p] } s') : Spawned s s' p virt code stackTop ustack := by
  obtain ⟨hpm, hk, hnext⟩ := init_same hinit
  obtain ⟨_, hroots, _⟩ := h.init hinit
  refine ⟨hre.kernelPml4.trans hk, ⟨?_, ?_, ?_, ?_, ?_, ?_⟩, hpid.trans hnext, hkind, hcode, hustack,
    by rw [hpid]; exact htop, ?_⟩
  · rw [hpt, ← hroots]
    exact hl.fresh
  · rw [hpt]
    exact hl.low
  · rw [← hroots, ← hpm]
    exact hl.kept
  · rw [hpt, ← hpm, ← hk]
    exact hl.upper
  · rw [hpt]
    exact hl.opened
  · rw [hpt, ← hpm, ← hk]
    exact hl.blank
  · intro p' hp' hkind'
    obtain ⟨q, hq, hqp⟩ := hre.exists_image hp'
    rcases List.mem_append.mp hq with hq | hq
    · refine Or.inr ⟨q, init_users hinit hq ?_, hqp⟩
      rw [kind_of_image hqp]
      exact hkind'
    · obtain rfl := List.mem_singleton.mp hq
      exact Or.inl hqp

theorem stackTop_lt {pid stackTop : Nat} (h : userStackTop pid = some stackTop) :
    stackTop < 2 ^ 47 := by
  have heq := userStackTop_eq h
  have htop : USER_STACK_TOP = 2 ^ 47 - 4096 := by decide
  omega

theorem length_userCode {bytes : List UInt8} (h : bytes.length ≤ PAGE_SIZE) :
    (userCode bytes).length ≤ PAGE_SIZE := by
  unfold userCode
  split
  · decide
  · exact h

theorem Sound.spawnKernel {entry i : Nat} (h : Sound b s live)
    (hb : b.metadata.length ≤ MAX_SUPPORTED_PAGES) (he : s.spawnKernel entry = some (i, s')) :
    (∃ live', Sound b s' live') ∧ Kept s s' := by
  obtain ⟨s₁, kstack, a, top, hinit, halloc, _, hs'⟩ := spawnKernel_cases he
  obtain ⟨h₁, hroots, _⟩ := h.init hinit
  obtain ⟨hpm, hk, _⟩ := init_same hinit
  obtain ⟨hpos, hpids⟩ := h₁.fetch hb [(kstack, KERNEL_STACK_ORDER)] (by simp)
  have hpid : s₁.nextPid ≠ 0 := Nat.ne_of_gt h₁.pos
  obtain ⟨rfl, rfl⟩ := Prod.mk.inj hs'
  have hre := pushReady_rescheduled { s₁ with
    nextPid := (s₁.nextPid + 1) % Word.modulus
    pm := { s₁.pm with buddy := a }
    procs := s₁.procs ++ [{
      pid := s₁.nextPid
      state := .Ready
      pagetable := s₁.kernelPml4
      kstackPhys := kstack
      kstackTop := top
      kind := .Kernel
      ticksLeft := DEFAULT_TIME_SLICE_TICKS
      entry := some entry
      trapFrame := none
      userCodePhys := none
      userStackPhys := none }] } s₁.procs.length
  refine ⟨⟨_, Sound.rescheduled ⟨?_, hpos, hpids⟩ hre⟩, hk, fun r _ v => ?_, fun p' hp' hkind => ?_⟩
  · refine spaces_add (s := { s₁ with
      nextPid := (s₁.nextPid + 1) % Word.modulus
      pm := { s₁.pm with buddy := a } }) (h₁.spaces.alloc halloc) (fun r hr => hr) (by simp) ?_
    rw [Proc.blocks, if_neg hpid]
    exact List.Perm.refl _
  · rw [← hpm]
    rfl
  · obtain ⟨q, hq, hqp⟩ := hre.exists_image hp'
    have hkind' : q.kind = .User := (kind_of_image hqp).trans hkind
    rcases List.mem_append.mp hq with hq | hq
    · exact ⟨q, init_users hinit hq hkind', hqp⟩
    · obtain rfl := List.mem_singleton.mp hq
      simp at hkind'

theorem Sound.spawnUser {bytes : List UInt8} {i : Nat} (h : Sound b s live)
    (hb : b.metadata.length ≤ MAX_SUPPORTED_PAGES) (he : s.spawnUser bytes = some (i, s')) :
    (∃ live', Sound b s' live') ∧ ∃ p virt code stackTop ustack,
      Spawned s s' p virt code stackTop ustack ∧ userCodeBase p.pid = some virt := by
  obtain ⟨s₁, codeBase, stackTop, u, pm₁, ⟨kstack, code, ustack⟩, pm₂, hinit, hlen, hbase, htop, hpt,
    hblk, hload⟩ := spawnUser_cases he
  obtain ⟨new, p, h', hl, _, hpid, hpagetable, hkind, hcode, hustack, hre⟩ :=
    (h.init hinit).1.load hb hpt hblk (length_userCode hlen) (stackTop_lt htop) hload
  exact ⟨⟨_, h'⟩, p, codeBase, code, stackTop, ustack,
    .of_load h hinit hl hpid hpagetable hkind hcode hustack htop hre, by rw [hpid]; exact hbase⟩

theorem Sound.growHeap (h : Sound b s live) (he : s.growHeap = some s') :
    (∃ live', Sound b s' live') ∧ Kept s s' := by
  obtain ⟨⟨addr, pm'⟩, halloc, rfl⟩ := Option.map_eq_some_iff.mp he
  rcases allocBlock_cases h.spaces halloc with ⟨rfl, rfl⟩ | ⟨phys, rfl, hmem, h'⟩
  · exact ⟨⟨live, h⟩, rfl, fun _ _ _ => rfl, fun p hp _ => ⟨p, hp, rfl⟩⟩
  · have hperm : { s with pm := pm', chunks := phys :: s.chunks }.data.Perm
        ((phys, CHUNK_ORDER) :: s.data) := by
      rw [data, data, List.map_cons]
      exact List.perm_middle
    refine ⟨⟨(phys, CHUNK_ORDER) :: live, ?_, h.pos, ?_⟩, rfl, fun _ _ _ => ?_, fun p hp _ => ⟨p, hp, rfl⟩⟩
    · exact h'.weaken (fun _ hr => hr) List.mem_cons_self (fun x hx => hperm.mem_iff.mp hx)
        (hperm.nodup_iff.mpr h'.nodup)
    · have hpids := h.pids
      simp only [List.length_cons]
      omega
    · simp only
      rw [hmem]

/-- The checks of `spawn_elf` on an image. -/
structure Accepts (image : List UInt8) (parsed : Elf.ParsedElf) : Prop where
  parse : Elf.parse image = some (.ok parsed)
  fileSize : parsed.load.fileSize ≤ PAGE_SIZE
  memSize : parsed.load.memSize ≤ PAGE_SIZE

/-- The load address of an accepted image lies in the lower half. -/
def LoadsLow (image : List UInt8) : Prop :=
  ∀ parsed, Accepts image parsed → ¬ High parsed.load.virtAddr

/-- There is memory for the page table and the blocks of one more process.  Which frames the
allocator takes depends on the order of its lists, not on the free pages alone; free pages that
are enough are those of `hasRoom_of_room`. -/
def hasRoom (s : System) : Bool :=
  (s.newPageTable.bind fun x => (allocBlocks x.2).bind Prod.fst).isSome

theorem hasRoom_init {s₁ : System} (h : s.init = some s₁) : s₁.hasRoom = s.hasRoom := by
  obtain ⟨hpm, hk, _⟩ := init_same h
  unfold hasRoom newPageTable
  rw [hpm, hk]

/-- **What `spawn_elf` does**: an error leaves every walk as it was, and without an error the
image was accepted and its program is mapped where it says. -/
theorem Sound.spawnElf {image : List UInt8} {res : Except SpawnError Nat} (h : Sound b s live)
    (hb : b.metadata.length ≤ MAX_SUPPORTED_PAGES) (he : s.spawnElf image = some (res, s')) :
    (∃ live', Sound b s' live') ∧
    ((Kept s s' ∧ (∃ e, res = .error e) ∧ (s.hasRoom = false ∨ ∀ parsed, ¬ Accepts image parsed)) ∨
    ∃ parsed p code stackTop ustack i q, Accepts image parsed ∧ s.hasRoom = true ∧
      Spawned s s' p parsed.load.virtAddr code stackTop ustack ∧
      res = .ok i ∧ s'.procs[i]? = some q ∧ q.image = p.image) := by
  obtain ⟨s₁, hinit, hcases⟩ := spawnElf_cases he
  obtain ⟨h₁, hroots, _⟩ := h.init hinit
  obtain ⟨hpm, hk, _⟩ := init_same hinit
  have hroom := hasRoom_init hinit
  rcases hcases with ⟨rfl, ⟨e, rfl⟩, hbad⟩ | ⟨parsed, stackTop, u, pm₁, blocks, pm₂, hparse, hfile, hmem,
    htop, hpt, hblk, hcases⟩
  · refine ⟨⟨live, h₁⟩, Or.inl ⟨⟨hk, fun _ _ _ => by rw [hpm], fun p hp hkind => ?_⟩, ⟨e, rfl⟩,
      Or.inr fun parsed ha => ?_⟩⟩
    · exact ⟨p, init_users hinit hp hkind, rfl⟩
    · have hfile := ha.fileSize
      have hmem := ha.memSize
      rcases hbad parsed ha.parse with hlt | hlt <;> omega
  rcases hcases with ⟨rfl, rfl, rfl⟩ | ⟨⟨kstack, code, ustack⟩, i, rfl, rfl, hload⟩
  · obtain ⟨⟨new, _, h₂⟩, hwalk⟩ := h₁.leak hb hpt hblk
    refine ⟨⟨_, h₂⟩, Or.inl ⟨⟨hk, fun r hr v => ?_, fun p hp hkind => ?_⟩, ⟨_, rfl⟩, Or.inl ?_⟩⟩
    · rw [← hpm]
      exact hwalk r (by rw [hroots]; exact hr) v
    · exact ⟨p, init_users hinit hp hkind, rfl⟩
    · rw [← hroom, hasRoom, hpt, Option.bind_some, hblk]
      rfl
  · have hlen : ((image.drop parsed.load.offset).take parsed.load.fileSize).length ≤ PAGE_SIZE :=
      (List.length_take_le _ _).trans hfile
    obtain ⟨new, p, h', hl, hi, hpid, hpagetable, hkind, hcode, hustack, hre⟩ :=
      h₁.load hb hpt hblk hlen (stackTop_lt htop) hload
    have hat : s'.procs[i]?.map Proc.image = some p.image := by
      rw [← List.getElem?_map, hre.images, List.getElem?_map, hi]
      simp
    obtain ⟨q, hq, hqp⟩ := Option.map_eq_some_iff.mp hat
    refine ⟨⟨_, h'⟩, Or.inr ⟨parsed, p, code, stackTop, ustack, i, q, ⟨hparse, hfile, hmem⟩, ?_,
      .of_load h hinit hl hpid hpagetable hkind hcode hustack htop hre, rfl, hq, hqp⟩⟩
    rw [← hroom, hasRoom, hpt, Option.bind_some, hblk]
    rfl

/-- Every step keeps the page tables over the memory of the allocator. -/
theorem Sound.step (h : Sound b s live) (hb : b.metadata.length ≤ MAX_SUPPORTED_PAGES)
    (hstep : Step s s') : ∃ live', Sound b s' live' := by
  cases hstep with
  | call a he =>
    cases a with
    | init => exact ⟨live, (h.init he).1⟩
    | spawnKernel entry =>
      obtain ⟨⟨i, _⟩, hcall, rfl⟩ := Option.map_eq_some_iff.mp he
      exact (h.spawnKernel hb hcall).1
    | spawnUser code =>
      obtain ⟨⟨i, _⟩, hcall, rfl⟩ := Option.map_eq_some_iff.mp he
      exact (h.spawnUser hb hcall).1
    | spawnElf image =>
      obtain ⟨⟨res, _⟩, hcall, rfl⟩ := Option.map_eq_some_iff.mp he
      exact (h.spawnElf hb hcall).1
    | yieldNow => exact ⟨live, h.rescheduled (schedule_rescheduled he)⟩
    | onTimerTick => exact ⟨live, h.rescheduled (onTimerTick_rescheduled he)⟩
    | exitCurrent => exact ⟨live, h.rescheduled (exitCurrent_rescheduled he)⟩
    | growHeap => exact (h.growHeap he).1
  | write m hm => exact ⟨live, (h.spaces.write hm).1, h.pos, h.pids⟩

theorem Sound.steps (h : Sound b s live) (hb : b.metadata.length ≤ MAX_SUPPORTED_PAGES)
    (hrun : Steps s s') : ∃ live', Sound b s' live' := by
  induction hrun with
  | refl => exact ⟨live, h⟩
  | tail _ hstep ih =>
    obtain ⟨live', h'⟩ := ih
    exact h'.step hb hstep

/-- The state after boot. -/
theorem boot_sound {metadata : List PageInfo} {memMap : List MemoryArea}
    {reserved : List (Nat × Nat)} {mem : Memory} {l : BootLayout} {ring0StackTop : Nat}
    (hlen : metadata.length ≤ MAX_SUPPORTED_PAGES) (hareas : DisjointAreas memMap)
    (h : boot metadata memMap reserved mem l ring0StackTop = some s) :
    ∃ b live, BuddyAllocator.new metadata memMap reserved = some b ∧ Sound b s live ∧
      b.metadata.length ≤ MAX_SUPPORTED_PAGES ∧ s.Unstarted := by
  simp only [boot, Option.bind_eq_bind, Option.bind_eq_some_iff] at h
  obtain ⟨b, hnew, ⟨pml4, pm⟩, hinit, h⟩ := h
  obtain rfl := Option.some.inj h
  obtain ⟨L₀, hI₀, hlen₀, hfree, _⟩ := fresh_of_new hlen hareas.pages hnew
  obtain ⟨live, hs⟩ := initKernelPageTable_spec (Ledger.start hI₀ hfree) hinit
  exact ⟨b, live, hnew, ⟨hs, Nat.le_refl 1, by simp⟩, by rw [hlen₀]; exact hlen, rfl, rfl, rfl⟩

/-! ### Runs with the window in place -/

/-- No image is loaded into the upper half. -/
def Action.Low : Action → Prop
  | .spawnElf image => LoadsLow image
  | _ => True

/-- A step after which the upper half still shows what it showed, so that the window at
`KERNEL_VMA` through which the kernel reads and writes is in place. -/
inductive LowStep : System → System → Prop
  | call {s s' : System} (a : Action) : a.Low → s.exec a = some s' → LowStep s s'
  | write {s : System} (m : Memory) : (∀ x, ¬ InBlocks s.data x → m.bytes x = s.pm.mem.bytes x) →
      LowStep s { s with pm := { s.pm with mem := m } }

abbrev LowSteps : System → System → Prop := Relation.ReflTransGen LowStep

theorem LowStep.step (h : LowStep s s') : Step s s' := by
  cases h with
  | call a _ he => exact .call a he
  | write m hm => exact .write m hm

theorem steps_of_low (h : LowSteps s s') : Steps s s' :=
  Relation.ReflTransGen.mono (fun _ _ => LowStep.step) _ _ h

/-- **Every state of a run from boot** is sound. -/
theorem sound_of_run {metadata : List PageInfo} {memMap : List MemoryArea}
    {reserved : List (Nat × Nat)} {mem : Memory} {l : BootLayout} {ring0StackTop : Nat}
    (hlen : metadata.length ≤ MAX_SUPPORTED_PAGES) (hareas : DisjointAreas memMap)
    (hboot : boot metadata memMap reserved mem l ring0StackTop = some s) (hrun : Steps s s') :
    ∃ b live, Sound b s' live ∧ b.metadata.length ≤ MAX_SUPPORTED_PAGES := by
  obtain ⟨b, live₀, _, hsound, hb, _⟩ := boot_sound hlen hareas hboot
  obtain ⟨live, h⟩ := hsound.steps hb hrun
  exact ⟨b, live, h, hb⟩

end System

end Zeronix
