import Zeronix.Task.Machine

/-!
# Isolation

What the page tables of the processes show after `spawn_elf`, in any run from boot in which the
window at `KERNEL_VMA` stays in place (`window_in_place`): the kernel half
(`spawnElf_kernel_half`) and the boot stack (`spawnElf_bootdata`).

Two addresses in an image are not checked by `spawn_elf`.  A program whose load address lies in
the upper half is mapped into tables that every process shares, and one whose load address is a
page of the boot data replaces that page.  The two theorems say exactly when this happens.
-/

namespace Zeronix

open Radix BuddyAllocator Session Mapper Page

namespace System

variable {s₀ s s' : System} {b : BuddyAllocator} {live reserved : List (Nat × Nat)}
variable {metadata : List PageInfo} {memMap : List MemoryArea} {mem : Memory} {l : BootLayout}
variable {ring0StackTop : Nat}
variable {image : List UInt8} {parsed : Elf.ParsedElf} {res : Except SpawnError Nat} {i : Nat}

theorem pagetable_of_image {p q : Proc} (h : p.image = q.image) : p.pagetable = q.pagetable := by
  have hpt := congrArg Proc.pagetable h
  exact hpt

/-! ### The window -/

theorem pagetable_mem {p : Proc} (hp : p ∈ s.procs) (hk : p.kind = .User) : p.pagetable ∈ s.roots :=
  List.mem_cons_of_mem _ (List.mem_map_of_mem (List.mem_filter.mpr ⟨hp, by simpa using hk⟩))

theorem codeBase_low {pid base : Nat} (h : userCodeBase pid = some base) (hpid : pid ≤ 2 ^ 17 + 1) :
    base < 2 ^ 46 := by
  have heq := userCodeBase_eq h
  simp only [USER_CODE_BASE, USER_SLOT_SIZE] at heq
  omega

/-- What a call does to the page tables: nothing, or there is a new process whose program is where
the call puts it. -/
theorem Sound.exec_cases {a : Action} (h : Sound b s live)
    (hb : b.metadata.length ≤ MAX_SUPPORTED_PAGES) (he : s.exec a = some s') : Kept s s' ∨
    ∃ p virt code stackTop ustack, Spawned s s' p virt code stackTop ustack ∧
      ((∃ bytes, a = .spawnUser bytes ∧ userCodeBase p.pid = some virt) ∨
        ∃ image parsed, a = .spawnElf image ∧ Accepts image parsed ∧ virt = parsed.load.virtAddr) := by
  cases a with
  | init =>
    obtain ⟨hpm, hk, _⟩ := init_same he
    exact Or.inl ⟨hk, fun _ _ _ => by rw [hpm], fun p hp hkind => ⟨p, init_users he hp hkind, rfl⟩⟩
  | spawnKernel entry =>
    obtain ⟨⟨i, _⟩, hcall, rfl⟩ := Option.map_eq_some_iff.mp he
    exact Or.inl (h.spawnKernel hb hcall).2
  | spawnUser bytes =>
    obtain ⟨⟨i, _⟩, hcall, rfl⟩ := Option.map_eq_some_iff.mp he
    obtain ⟨_, p, base, code, stackTop, ustack, hsp, hbase⟩ := h.spawnUser hb hcall
    exact Or.inr ⟨p, base, code, stackTop, ustack, hsp, Or.inl ⟨bytes, rfl, hbase⟩⟩
  | spawnElf image =>
    obtain ⟨⟨res, _⟩, hcall, rfl⟩ := Option.map_eq_some_iff.mp he
    obtain ⟨_, hcases⟩ := h.spawnElf hb hcall
    rcases hcases with ⟨hkept, _⟩ | ⟨parsed, p, code, stackTop, ustack, i, q, hacc, _, hsp, _⟩
    · exact Or.inl hkept
    · exact Or.inr ⟨p, _, code, stackTop, ustack, hsp, Or.inr ⟨image, parsed, rfl, hacc, rfl⟩⟩
  | yieldNow => exact Or.inl (schedule_rescheduled he).kept
  | onTimerTick => exact Or.inl (onTimerTick_rescheduled he).kept
  | exitCurrent => exact Or.inl (exitCurrent_rescheduled he).kept
  | growHeap => exact Or.inl (h.growHeap he).2

theorem Sound.write_kept {m : Memory} (h : Sound b s live)
    (hm : ∀ x, ¬ InBlocks s.data x → m.bytes x = s.pm.mem.bytes x) :
    Kept s { s with pm := { s.pm with mem := m } } :=
  ⟨rfl, fun r hr v => (h.spaces.write hm).2 r hr v, fun p hp _ => ⟨p, hp, rfl⟩⟩

/-- Every page table in use has the upper half that the kernel's had in `s₀`. -/
structure UpperHalf (s₀ s : System) : Prop where
  upper : ∀ r ∈ s.roots, ∀ v, High v → walk s.pm.mem r v = walk s₀.pm.mem s₀.kernelPml4 v

theorem UpperHalf.of_users (h : UpperHalf s₀ s) (hk : s'.kernelPml4 = s.kernelPml4)
    (hkept : ∀ r ∈ s.roots, ∀ v, walk s'.pm.mem r v = walk s.pm.mem r v)
    (husers : ∀ p ∈ s'.procs, p.kind = .User → (∃ q ∈ s.procs, q.image = p.image) ∨
      ∀ v, High v → walk s'.pm.mem p.pagetable v = walk s.pm.mem s.kernelPml4 v) :
    UpperHalf s₀ s' := by
  constructor
  intro r hr v hv
  have hkernel := h.upper _ List.mem_cons_self v hv
  rcases List.mem_cons.mp hr with rfl | hr
  · rw [hk, hkept _ List.mem_cons_self, hkernel]
  · obtain ⟨p, hp, rfl⟩ := List.mem_map.mp hr
    obtain ⟨hp, hkind⟩ := List.mem_filter.mp hp
    rcases husers p hp (by simpa using hkind) with ⟨q, hq, hqp⟩ | hnew
    · have hroot := pagetable_mem hq ((kind_of_image hqp).trans (by simpa using hkind))
      rw [← pagetable_of_image hqp, hkept _ hroot, h.upper _ hroot v hv]
    · rw [hnew v hv, hkernel]

theorem UpperHalf.kept (h : UpperHalf s₀ s) (hk : Kept s s') : UpperHalf s₀ s' :=
  h.of_users hk.kernelPml4 hk.walks fun p hp hkind => Or.inl (hk.users p hp hkind)

theorem UpperHalf.spawned {p : Proc} {virt code stackTop ustack : Nat} (h : UpperHalf s₀ s)
    (hsp : Spawned s s' p virt code stackTop ustack) (hlow : ¬ High virt) : UpperHalf s₀ s' := by
  refine h.of_users hsp.kernelPml4 (hsp.loaded.kept hlow) fun p' hp' hkind => ?_
  rcases hsp.users p' hp' hkind with hpp' | hold
  · rw [← pagetable_of_image hpp']
    exact Or.inr (hsp.loaded.upper hlow)
  · exact Or.inl hold

/-- **One step keeps the upper half.** -/
theorem UpperHalf.step (h : UpperHalf s₀ s) (hs : Sound b s live)
    (hb : b.metadata.length ≤ MAX_SUPPORTED_PAGES) (hstep : LowStep s s') : UpperHalf s₀ s' := by
  cases hstep with
  | call a ha he =>
    rcases hs.exec_cases hb he with hkept |
      ⟨p, virt, code, stackTop, ustack, hsp, ⟨bytes, rfl, hbase⟩ | ⟨image, parsed, rfl, hacc, rfl⟩⟩
    · exact h.kept hkept
    · refine h.spawned hsp (not_high_of_lt ?_)
      have hlow := codeBase_low hbase (by rw [hsp.pid]; exact hs.pid_lt hb)
      omega
    · exact h.spawned hsp (ha parsed hacc)
  | write m hm => exact h.kept (hs.write_kept hm)

theorem UpperHalf.steps (h : UpperHalf s₀ s) (hs : Sound b s live)
    (hb : b.metadata.length ≤ MAX_SUPPORTED_PAGES) (hrun : LowSteps s s') : UpperHalf s₀ s' := by
  induction hrun with
  | refl => exact h
  | tail hsteps hstep ih =>
    obtain ⟨live', hs'⟩ := hs.steps hb (steps_of_low hsteps)
    exact ih.step hs' hb hstep

/-- **The window stays in place**: every page table in use shows every page that the allocator ever
hands out where the kernel looks for it, so that what is read and written there is the page
itself. -/
theorem window_in_place {b : BuddyAllocator} {x r : Nat}
    (hlen : metadata.length ≤ MAX_SUPPORTED_PAGES) (hareas : DisjointAreas memMap)
    (hlow : ∀ a ∈ memMap, a.usable = true → a.endAddress.toNat ≤ 2 ^ 47) (hl : l.Linked)
    (hboot : boot metadata memMap l.reserved mem l ring0StackTop = some s₀)
    (hnew : BuddyAllocator.new metadata memMap l.reserved = some b)
    (hx : (b.tag x).isSome = true) (hrun : LowSteps s₀ s) (hr : r ∈ s.roots) :
    Shown s.pm.mem r x := by
  obtain ⟨b', live, hnew', hsound, hb, hstart⟩ := boot_sound hlen hareas hboot
  have hfirst : UpperHalf s₀ s₀ := by
    constructor
    intro r hr v _
    rw [roots, hstart.1] at hr
    obtain rfl := List.mem_singleton.mp hr
    rfl
  have hupper := (hfirst.steps hsound hb hrun).upper r hr
  simp only [boot, Option.bind_eq_bind, hnew, Option.bind_some, Option.bind_eq_some_iff] at hboot
  obtain ⟨⟨pml4, pm⟩, hinit, hboot⟩ := hboot
  obtain ⟨hbound, hshown, _⟩ := shown_of_tag hlen hareas hlow hl hnew hinit hx
  obtain rfl := Option.some.inj hboot
  intro y hy
  have hlt : y < 2 ^ 47 := by
    have hdiv := Nat.div_add_mod y PAGE_SIZE
    have hmod := Nat.mod_lt y (show 0 < PAGE_SIZE by decide)
    rw [hy] at hdiv
    unfold PAGE_SIZE at *
    omega
  have hhigh : High (KERNEL_VMA + y) := by
    rw [High, index_eq]
    unfold KERNEL_VMA
    omega
  rw [hupper _ hhigh]
  exact hshown y hy

/-! ### The kernel half -/

/-- The upper half of every page table in use is as before, and that of a new process is the
kernel's. -/
structure KernelHalfKept (s s' : System) (res : Except SpawnError Nat) : Prop where
  kept : ∀ r ∈ s.roots, ∀ v, High v → walk s'.pm.mem r v = walk s.pm.mem r v
  agrees : ∀ i p, res = .ok i → s'.procs[i]? = some p →
    ∀ v, High v → walk s'.pm.mem p.pagetable v = walk s'.pm.mem s'.kernelPml4 v

/-- A program in the upper half is open to its process, which nothing of the kernel's table is. -/
theorem Sound.not_kept (h : Sound b s live) (hb : b.metadata.length ≤ MAX_SUPPORTED_PAGES)
    (he : s.spawnElf image = some (.ok i, s')) (hacc : Accepts image parsed)
    (hhigh : High parsed.load.virtAddr) : ¬ KernelHalfKept s s' (.ok i) := by
  obtain ⟨⟨live', h'⟩, hcases⟩ := h.spawnElf hb he
  rcases hcases with ⟨_, ⟨e, herr⟩, _⟩ |
    ⟨parsed', p, code, stackTop, ustack, j, q, hacc', _, hsp, hres, hq, hqp⟩
  · simp at herr
  obtain rfl := Except.ok.inj hres
  obtain rfl := hacc.unique hacc'
  intro hk
  have hagree := hk.agrees i q rfl hq _ hhigh
  rw [pagetable_of_image hqp, hsp.loaded.opened hhigh] at hagree
  have hclosed := h'.spaces.kernel_walk hagree.symm
  simp at hclosed

/-- **Loading a program keeps the kernel half** exactly when the load address lies in the lower
half, or there is no memory to load it. -/
theorem spawnElf_kernel_half (hlen : metadata.length ≤ MAX_SUPPORTED_PAGES)
    (hareas : DisjointAreas memMap)
    (hboot : boot metadata memMap reserved mem l ring0StackTop = some s₀) (hrun : LowSteps s₀ s)
    (he : s.spawnElf image = some (res, s')) :
    KernelHalfKept s s' res ↔ (s.hasRoom = false ∨ LoadsLow image) := by
  obtain ⟨b, live, h, hb⟩ := sound_of_run hlen hareas hboot (steps_of_low hrun)
  obtain ⟨⟨live', h'⟩, hcases⟩ := h.spawnElf hb he
  rcases hcases with ⟨hkept, ⟨e, rfl⟩, hreason⟩ |
    ⟨parsed, p, code, stackTop, ustack, i, q, hacc, hroom, hsp, rfl, hq, hqp⟩
  · refine iff_of_true ⟨fun r hr v _ => hkept.walks r hr v, fun i p hi => by simp at hi⟩ ?_
    exact hreason.imp_right fun hno parsed ha => absurd ha (hno parsed)
  have hpt := pagetable_of_image hqp
  constructor
  · exact fun hk => Or.inr fun parsed' ha hhigh => h.not_kept hb he ha hhigh hk
  · rintro (hno | hlow)
    · rw [hroom] at hno
      simp at hno
    · have hvirt := hlow parsed hacc
      refine ⟨fun r hr v _ => hsp.loaded.kept hvirt r hr v, fun j p' hj hp' v hv => ?_⟩
      obtain rfl := Except.ok.inj hj
      obtain rfl := Option.some.inj (hq.symm.trans hp')
      rw [hpt, hsp.loaded.upper hvirt v hv, hsp.kernelPml4,
        hsp.loaded.kept hvirt _ h.spaces.kernel]

/-- A built-in program with its load address moved to the kernel's window on page `1`. -/
def highImage : List UInt8 := Elf.writeU64 (Elf.buildProgramImage .Ls) 80 0xFFFF800000001000

/-- The window on page `1` shows the program instead. -/
theorem spawnElf_high_address : ∃ s₀ s s', machineBoot = some s₀ ∧ LowSteps s₀ s ∧
    s.chunks ≠ [] ∧ s.spawnElf highImage = some (.ok 1, s') ∧ ¬ KernelHalfKept s s' (.ok 1) := by
  have hacc : Accepts highImage {
      entry := 0x402000
      program := .Ls
      load := {
        offset := 120
        virtAddr := 0xFFFF800000001000
        fileSize := (Elf.userProgramCode .Ls).length
        memSize := (Elf.userProgramCode .Ls).length
        flags := 5 } } := ⟨by decide +kernel, by decide +kernel, by decide +kernel⟩
  obtain ⟨s₀, s, s', hboot, hrun, hheap, _, he⟩ := machine_spawnElf hacc
  obtain ⟨b, live, h, hb⟩ := sound_of_run machine_max machine_disjoint hboot (steps_of_low hrun)
  exact ⟨s₀, s, s', hboot, hrun, hheap, he, h.not_kept hb he hacc (by decide)⟩

/-- The built-in `echo` is loaded at `0x408000` and leaves the kernel half alone. -/
theorem spawnElf_kernel_half_echo : ∃ s₀ s s', machineBoot = some s₀ ∧ LowSteps s₀ s ∧
    s.chunks ≠ [] ∧ s.spawnElf (Elf.buildProgramImage .Echo) = some (.ok 1, s') ∧
    KernelHalfKept s s' (.ok 1) := by
  obtain ⟨s₀, s, s', hboot, hrun, hheap, _, he⟩ := machine_spawnElf (accepts_buildProgramImage .Echo)
  exact ⟨s₀, s, s', hboot, hrun, hheap, he,
    (spawnElf_kernel_half machine_max machine_disjoint hboot hrun he).mpr
      (Or.inr (loadsLow_buildProgramImage .Echo))⟩

/-! ### The boot stack -/

/-- Every byte of the boot data is mapped to itself, writable, for the kernel alone. -/
def BootdataKept (m : Memory) (pml4 : Nat) : Prop :=
  ∀ v, BOOTDATA_START ≤ v → v < BOOTDATA_END → ∃ t, walk m pml4 v = some t ∧
    t.frame = v / PAGE_SIZE * PAGE_SIZE ∧ t.writable = true ∧ t.user = false

/-- The page of an address is one of the boot data. -/
def OnBootdata (virt : Nat) : Prop :=
  ∃ v, BOOTDATA_START ≤ v ∧ v < BOOTDATA_END ∧ pageBits v = pageBits virt

theorem stack_far {pid stackTop ustack v : Nat}
    (hpid : pid ≤ 2 ^ 17 + 1) (htop : userStackTop pid = some stackTop) (hv : v < 2 ^ 46) :
    ∀ c ∈ stackCalls stackTop ustack, pageBits c.virt ≠ pageBits v := by
  intro c hc
  obtain ⟨i, hi, rfl⟩ := List.mem_map.mp hc
  have hi : i < 2 := List.mem_range.mp hi
  have heq := userStackTop_eq htop
  have hsize : USER_STACK_SIZE = 8192 := by decide
  simp only [USER_SLOT_SIZE, USER_STACK_TOP] at heq
  simp only [stackCall, hsize, PAGE_SIZE, pageBits]
  omega

theorem bootCalls_translation {v : Nat} (h₁ : BOOTDATA_START ≤ v) (h₂ : v < BOOTDATA_END) :
    (lastCall bootCalls v).map Call.translation = some {
      frame := v / PAGE_SIZE * PAGE_SIZE, user := false, writable := true, nx := true } := by
  have hend : BOOTDATA_END = 0x407026 := by decide
  have hstart : BOOTDATA_START = 0x400000 := rfl
  have hpages : ∀ q < 8, (lastCall bootCalls ((0x400 + q) * PAGE_SIZE)).map Call.translation = some {
      frame := (0x400 + q) * PAGE_SIZE, user := false, writable := true, nx := true } := by
    decide +kernel
  have hq := hpages (v / PAGE_SIZE - 0x400) (by unfold PAGE_SIZE; omega)
  have hpage : 0x400 + (v / PAGE_SIZE - 0x400) = v / PAGE_SIZE := by
    unfold PAGE_SIZE
    omega
  rw [hpage] at hq
  rw [← hq]
  have hbits : pageBits (v / PAGE_SIZE * PAGE_SIZE) = pageBits v := by
    unfold pageBits PAGE_SIZE
    omega
  rw [lastCall, lastCall, hbits]

theorem userCalls_user {virt code stackTop ustack : Nat} :
    ∀ c ∈ userCalls virt code stackTop ustack, c.translation.user = true := by
  intro c hc
  rcases List.mem_cons.mp hc with rfl | hc
  · rfl
  · obtain ⟨i, _, rfl⟩ := List.mem_map.mp hc
    rfl

/-- The lower half of a new process, up to its stack. -/
theorem Sound.walk_boot (h : Sound b s live) (hb : b.metadata.length ≤ MAX_SUPPORTED_PAGES)
    (he : s.spawnElf image = some (.ok i, s')) : ∃ parsed p code stackTop ustack,
      Accepts image parsed ∧ s'.procs[i]? = some p ∧
      (∀ v < 2 ^ 46, ∀ c ∈ stackCalls stackTop ustack, pageBits c.virt ≠ pageBits v) ∧
      ∀ v < 2 ^ 46, walk s'.pm.mem p.pagetable v =
        ((lastCall (userCalls parsed.load.virtAddr code stackTop ustack) v).or
          (lastCall bootCalls v)).map Call.translation := by
  obtain ⟨_, hcases⟩ := h.spawnElf hb he
  rcases hcases with ⟨_, ⟨e, herr⟩, _⟩ |
    ⟨parsed, p, code, stackTop, ustack, j, q, hacc, _, hsp, hres, hq, hqp⟩
  · simp at herr
  obtain rfl := Except.ok.inj hres
  have hpid : p.pid ≤ 2 ^ 17 + 1 := by
    rw [hsp.pid]
    exact h.pid_lt hb
  refine ⟨parsed, q, code, stackTop, ustack, hacc, hq, fun v => stack_far hpid hsp.stackTop,
    fun v hv => ?_⟩
  rw [pagetable_of_image hqp, hsp.loaded.low v (not_high_of_lt (by omega)), lastCall_append]

/-- A program on a page of the boot data replaces that page. -/
theorem Sound.bootdata_lost (h : Sound b s live) (hb : b.metadata.length ≤ MAX_SUPPORTED_PAGES)
    (he : s.spawnElf image = some (.ok i, s')) (hacc : Accepts image parsed)
    (hon : OnBootdata parsed.load.virtAddr) :
    ∃ p, s'.procs[i]? = some p ∧ ¬ BootdataKept s'.pm.mem p.pagetable := by
  obtain ⟨parsed', p, code, stackTop, ustack, hacc', hp, _, hwalk⟩ := h.walk_boot hb he
  obtain rfl := hacc.unique hacc'
  refine ⟨p, hp, fun hk => ?_⟩
  obtain ⟨v, h₁, h₂, hv⟩ := hon
  obtain ⟨t, ht, _, _, huser⟩ := hk v h₁ h₂
  have hend : BOOTDATA_END < 2 ^ 46 := by decide
  rw [hwalk v (by omega)] at ht
  cases hlast : lastCall (userCalls parsed.load.virtAddr code stackTop ustack) v with
  | none => exact absurd hv.symm (lastCall_eq_none.mp hlast _ List.mem_cons_self)
  | some c =>
    rw [hlast, Option.some_or, Option.map_some, Option.some.injEq] at ht
    rw [← ht, userCalls_user c (lastCall_eq_some hlast).1] at huser
    simp at huser

/-- **Loading a program keeps the boot stack** exactly when its load address is on no page of
the boot data. -/
theorem spawnElf_bootdata (hlen : metadata.length ≤ MAX_SUPPORTED_PAGES)
    (hareas : DisjointAreas memMap)
    (hboot : boot metadata memMap reserved mem l ring0StackTop = some s₀) (hrun : LowSteps s₀ s)
    (he : s.spawnElf image = some (.ok i, s')) : ∃ p, s'.procs[i]? = some p ∧
      (BootdataKept s'.pm.mem p.pagetable ↔
        ∀ parsed, Accepts image parsed → ¬ OnBootdata parsed.load.virtAddr) := by
  obtain ⟨b, live, h, hb⟩ := sound_of_run hlen hareas hboot (steps_of_low hrun)
  obtain ⟨parsed, p, code, stackTop, ustack, hacc, hp, hstack, hwalk⟩ := h.walk_boot hb he
  refine ⟨p, hp, fun hk parsed' ha hon => ?_, fun hoff v h₁ h₂ => ?_⟩
  · obtain ⟨p', hp', hlost⟩ := h.bootdata_lost hb he ha hon
    obtain rfl := Option.some.inj (hp.symm.trans hp')
    exact hlost hk
  · have hend : BOOTDATA_END < 2 ^ 46 := by decide
    have hnone : lastCall (userCalls parsed.load.virtAddr code stackTop ustack) v = none := by
      refine lastCall_eq_none.mpr fun c hc => ?_
      rcases List.mem_cons.mp hc with rfl | hc
      · exact fun heq => hoff parsed hacc ⟨v, h₁, h₂, heq.symm⟩
      · exact hstack v (by omega) c hc
    rw [hwalk v (by omega), hnone, Option.none_or, bootCalls_translation h₁ h₂]
    exact ⟨_, rfl, rfl, rfl, rfl⟩

/-- The built-in `ls` is loaded at `0x402000`, over the boot data. -/
theorem spawnElf_ls_bootdata : ∃ s₀ s s' p, machineBoot = some s₀ ∧ LowSteps s₀ s ∧
    s.chunks ≠ [] ∧ s.spawnElf (Elf.buildProgramImage .Ls) = some (.ok 1, s') ∧
    s'.procs[1]? = some p ∧ ¬ BootdataKept s'.pm.mem p.pagetable := by
  have hacc := accepts_buildProgramImage .Ls
  obtain ⟨s₀, s, s', hboot, hrun, hheap, _, he⟩ := machine_spawnElf hacc
  obtain ⟨b, live, h, hb⟩ := sound_of_run machine_max machine_disjoint hboot (steps_of_low hrun)
  obtain ⟨p, hp, hlost⟩ := h.bootdata_lost hb he hacc ⟨0x402000, by decide, by decide, rfl⟩
  exact ⟨s₀, s, s', p, hboot, hrun, hheap, he, hp, hlost⟩

/-- The built-in `echo` is loaded behind the boot data. -/
theorem spawnElf_bootdata_echo : ∃ s₀ s s' p, machineBoot = some s₀ ∧ LowSteps s₀ s ∧
    s.chunks ≠ [] ∧ s.spawnElf (Elf.buildProgramImage .Echo) = some (.ok 1, s') ∧
    s'.procs[1]? = some p ∧ BootdataKept s'.pm.mem p.pagetable := by
  have hacc := accepts_buildProgramImage .Echo
  obtain ⟨s₀, s, s', hboot, hrun, hheap, _, he⟩ := machine_spawnElf hacc
  obtain ⟨p, hp, hiff⟩ := spawnElf_bootdata machine_max machine_disjoint hboot hrun he
  refine ⟨s₀, s, s', p, hboot, hrun, hheap, he, hp, hiff.mpr ?_⟩
  rintro parsed ha ⟨v, h₁, h₂, hv⟩
  obtain rfl := hacc.unique ha
  have hend : BOOTDATA_END = 0x407026 := by decide
  have hstart : BOOTDATA_START = 0x400000 := rfl
  have hentry : Elf.ProgramId.Echo.entry = 0x408000 := rfl
  simp only [pageBits, hentry] at hv
  omega

end System

end Zeronix
