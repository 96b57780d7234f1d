import Zeronix.Mem.LastEntries
import Zeronix.Task.Isolation

/-!
# Writable or executable

No page is both, in the kernel's page table and in those of the processes, after any run from
boot that leaves the kernel's window in place (`write_xor_execute`).  The ranges of the kernel
overlap and its tables are shared, but the permissions of a page are those of one last entry, and
every call of `map` in the kernel passes `NX` with `WRITABLE`.

The memory map has to give out each page once.  Where two usable areas share a page, the allocator
hands it out twice, and one frame becomes two page tables (`shared_page_write_execute`).
-/

namespace Zeronix

open Radix BuddyAllocator Session Mapper Page

/-- An entry that does not let code write where it may execute. -/
def WriteXorExec (e : Nat) : Prop :=
  (PageTableEntry.flags e).writable = true → (PageTableEntry.flags e).nx = true

theorem writeXorExec_zero : WriteXorExec 0 := by
  intro h
  simp [PageTableEntry.flags, EntryFlags.fromBitsTruncate] at h

theorem writeXorExec_entry {c : Call} (h : c.flags.writable = true → c.flags.nx = true) :
    WriteXorExec c.entry := by
  intro hw
  rw [Call.entry, PageTableEntry.flags_setAddr] at hw ⊢
  rw [EntryFlags.or_writable] at hw
  rw [EntryFlags.or_nx, h (by simpa [EntryFlags.PRESENT] using hw), Bool.true_or]

namespace System

variable {s₀ s s' : System} {b : BuddyAllocator} {live : List (Nat × Nat)} {metadata : List PageInfo}
variable {memMap : List MemoryArea} {reserved : List (Nat × Nat)} {mem : Memory} {l : BootLayout}
variable {ring0StackTop : Nat}

/-! ### The invariant -/

/-- The last entries of all page tables, and that no process uses another page table. -/
structure Guarded (s : System) : Prop where
  lasts : Lasts (kernelSpace s.kernelPml4 s.roots) WriteXorExec s.pm.mem
  pagetables : ∀ p ∈ s.procs, p.pagetable ∈ s.roots

theorem Guarded.rescheduled (h : Guarded s) (hs : Rescheduled s s') : Guarded s' := by
  constructor
  · rw [hs.kernelPml4, hs.roots_eq, hs.pm]
    exact h.lasts
  · intro p' hp'
    obtain ⟨p, hp, heq⟩ := hs.exists_image hp'
    rw [hs.roots_eq, ← pagetable_of_image heq]
    exact h.pagetables p hp

theorem Guarded.init (h : Guarded s) (hs : Sound b s live) (he : s.init = some s') : Guarded s' := by
  obtain ⟨more, heq, hmore⟩ := init_spec he
  obtain ⟨_, hroots, _⟩ := hs.init he
  obtain ⟨hpm, hk, _⟩ := init_same he
  constructor
  · rw [hk, hroots, hpm]
    exact h.lasts
  · intro p hp
    rw [hroots]
    rw [heq] at hp
    rcases List.mem_append.mp hp with hp | hp
    · exact h.pagetables p hp
    · rw [(hmore p hp).2.2]
      exact List.mem_cons_self

/-- One more process. -/
theorem Guarded.add {p : Proc} (h : Guarded s)
    (hp : p.pagetable ∈ { s with procs := s.procs ++ [p] }.roots)
    (hL : Lasts (kernelSpace s.kernelPml4 (p.pagetable :: s.roots)) WriteXorExec s.pm.mem) :
    Guarded { s with procs := s.procs ++ [p] } := by
  have hroots : { s with procs := s.procs ++ [p] }.roots =
      s.roots ++ ([p].filter fun p => p.kind = .User).map Proc.pagetable := by
    rw [roots, List.filter_append, List.map_append]
    rfl
  constructor
  · refine hL.weaken fun r hr => ?_
    rw [hroots] at hr
    rcases List.mem_append.mp hr with hr | hr
    · exact List.mem_cons_of_mem _ hr
    · obtain ⟨q, hq, rfl⟩ := List.mem_map.mp hr
      obtain rfl := List.mem_singleton.mp (List.mem_filter.mp hq).1
      exact List.mem_cons_self
  · intro q hq
    rcases List.mem_append.mp hq with hq | hq
    · rw [hroots]
      exact List.mem_append_left _ (h.pagetables q hq)
    · obtain rfl := List.mem_singleton.mp hq
      exact hp

/-- Another memory, in which the last entries are as they should be. -/
theorem Guarded.remap {nextPid : Nat} {pm : PhysMem} {R : List Nat} (h : Guarded s)
    (hL : Lasts (kernelSpace s.kernelPml4 R) WriteXorExec pm.mem) (hR : ∀ r ∈ s.roots, r ∈ R) :
    Guarded { s with nextPid := nextPid, pm := pm } :=
  ⟨hL.weaken hR, h.pagetables⟩

/-! ### A new user process -/

theorem newPageTable_lasts {u : Nat} {pm' : PhysMem} (h : Guarded s) (hs : Sound b s live)
    (he : s.newPageTable = some (u, pm')) :
    Lasts (kernelSpace s.kernelPml4 (u :: s.roots)) WriteXorExec pm'.mem := by
  obtain ⟨pm₁, hcreate, hboot⟩ := newPageTable_cases he
  obtain ⟨_, h₁, _⟩ := hs.spaces.create hcreate
  have hL₁ := h.lasts.create hs.spaces.kernel (hs.spaces.created hcreate)
  have hcalls : ∀ c ∈ bootCalls, WriteXorExec c.entry := by
    intro c hc
    obtain ⟨_, _, rfl⟩ := List.mem_map.mp hc
    exact writeXorExec_entry fun _ => rfl
  obtain ⟨_, _, hL₂⟩ := Lasts.mapAll writeXorExec_zero List.mem_cons_self bootCalls hcalls hL₁
    h₁.tables hboot
  exact hL₂

theorem userCalls_writeXorExec {virt code stackTop ustack : Nat} :
    ∀ c ∈ userCalls virt code stackTop ustack, WriteXorExec c.entry := by
  intro c hc
  refine writeXorExec_entry ?_
  rcases List.mem_cons.mp hc with rfl | hc
  · exact fun hw => hw
  · obtain ⟨_, _, rfl⟩ := List.mem_map.mp hc
    exact fun _ => rfl

/-- The program, its pages and its trap frame. -/
theorem loadUser_lasts {u pid kstack code ustack virt rip stackTop i : Nat} {bytes : List UInt8}
    {R : List Nat} {data : List (Nat × Nat)} (h : Spaces s.kernelPml4 R data b live s.pm)
    (hL : Lasts (kernelSpace s.kernelPml4 R) WriteXorExec s.pm.mem) (hu : u ∈ R)
    (huk : u ≠ s.kernelPml4) (hk : (kstack, KERNEL_STACK_ORDER) ∈ data) (hc : (code, 0) ∈ data)
    (hlen : bytes.length ≤ PAGE_SIZE)
    (he : s.loadUser pid u (kstack, code, ustack) bytes virt rip stackTop = some (i, s')) :
    Lasts (kernelSpace s.kernelPml4 R) WriteXorExec s'.pm.mem := by
  obtain ⟨pm₁, pm₂, pm₃, top, tf, he₁, he₂, he₃, _, _, hs'⟩ := loadUser_cases he
  obtain ⟨h₁, hsame₁⟩ := Spaces.writeCode h hc hlen he₁
  have hrun := userCalls_run he₂ he₃
  obtain ⟨_, h₃, _⟩ := h₁.mapAll_low hu huk hrun
  obtain ⟨_, _, hL₃⟩ := Lasts.mapAll writeXorExec_zero hu _ userCalls_writeXorExec
    (hL.same hsame₁) h₁.tables hrun
  obtain ⟨rfl, rfl⟩ := Prod.mk.inj hs'
  exact hL₃.same (Spaces.trapFrame rip stackTop h₃ hk)

/-- **Loading a process** keeps the invariant, wherever the image wants to be. -/
theorem Guarded.load {u kstack code ustack virt rip stackTop i : Nat} {bytes : List UInt8}
    {pm₁ pm₂ : PhysMem} (h : Guarded s) (hs : Sound b s live)
    (hb : b.metadata.length ≤ MAX_SUPPORTED_PAGES) (hpt : s.newPageTable = some (u, pm₁))
    (hblk : allocBlocks pm₁ = some (some (kstack, code, ustack), pm₂))
    (hlen : bytes.length ≤ PAGE_SIZE) (hstack : stackTop < 2 ^ 47)
    (he : { s with nextPid := (s.nextPid + 1) % Word.modulus, pm := pm₂ }.loadUser s.nextPid u
      (kstack, code, ustack) bytes virt rip stackTop = some (i, s')) : Guarded s' := by
  obtain ⟨huk, hmem, _, hblocks⟩ := hs.blocks hpt hblk
  have hL₁ := newPageTable_lasts h hs hpt
  rw [← hmem] at hL₁
  have hL := loadUser_lasts (s := { s with nextPid := _, pm := pm₂ }) hblocks hL₁
    List.mem_cons_self huk (by simp) (by simp) hlen he
  obtain ⟨_, p, _, _, _, _, rfl, hkind, _, _, hre⟩ := hs.load hb hpt hblk hlen hstack he
  have hroots : ∀ r ∈ s.roots, r ∈ p.pagetable :: s.roots := fun r hr => List.mem_cons_of_mem _ hr
  refine Guarded.rescheduled (Guarded.add (h.remap hL hroots) ?_ hL) hre
  rw [roots, List.filter_append, List.map_append, List.filter_cons_of_pos (by simpa using hkind)]
  simp

/-- A process for which there was no memory. -/
theorem Guarded.leak {u : Nat} {pm₁ pm₂ : PhysMem} (h : Guarded s) (hs : Sound b s live)
    (hpt : s.newPageTable = some (u, pm₁)) (hblk : allocBlocks pm₁ = some (none, pm₂)) :
    Guarded { s with nextPid := (s.nextPid + 1) % Word.modulus, pm := pm₂ } := by
  obtain ⟨_, _, _, h₁, _⟩ := newPageTable_spec hs.spaces hpt
  obtain ⟨hmem, _⟩ := allocBlocks_spec h₁ hblk
  have hL := newPageTable_lasts h hs hpt
  rw [← hmem] at hL
  exact h.remap hL fun r hr => List.mem_cons_of_mem _ hr

/-! ### Steps -/

theorem Guarded.spawnKernel {entry i : Nat} (h : Guarded s) (hs : Sound b s live)
    (he : s.spawnKernel entry = some (i, s')) : Guarded s' := by
  obtain ⟨s₁, kstack, a, top, hinit, _, _, hs'⟩ := spawnKernel_cases he
  have h₁ := h.init hs hinit
  obtain ⟨rfl, rfl⟩ := Prod.mk.inj hs'
  have hL : Lasts (kernelSpace s₁.kernelPml4 (s₁.kernelPml4 :: s₁.roots)) WriteXorExec s₁.pm.mem := by
    refine h₁.lasts.weaken fun r hr => ?_
    rcases List.mem_cons.mp hr with rfl | hr
    · exact List.mem_cons_self
    · exact hr
  have h₂ : Guarded { s₁ with
      nextPid := (s₁.nextPid + 1) % Word.modulus, pm := { s₁.pm with buddy := a } } :=
    h₁.remap hL fun r hr => List.mem_cons_of_mem _ hr
  exact (h₂.add List.mem_cons_self hL).rescheduled (pushReady_rescheduled _ _)

theorem Guarded.spawnUser {bytes : List UInt8} {i : Nat} (h : Guarded s) (hs : Sound b s live)
    (hb : b.metadata.length ≤ MAX_SUPPORTED_PAGES) (he : s.spawnUser bytes = some (i, s')) :
    Guarded s' := by
  obtain ⟨s₁, codeBase, stackTop, u, pm₁, ⟨kstack, code, ustack⟩, pm₂, hinit, hlen, _, htop, hpt, hblk,
    hload⟩ := spawnUser_cases he
  exact (h.init hs hinit).load (hs.init hinit).1 hb hpt hblk (length_userCode hlen)
    (stackTop_lt htop) hload

theorem Guarded.spawnElf {image : List UInt8} {res : Except SpawnError Nat} (h : Guarded s)
    (hs : Sound b s live) (hb : b.metadata.length ≤ MAX_SUPPORTED_PAGES)
    (he : s.spawnElf image = some (res, s')) : Guarded s' := by
  obtain ⟨s₁, hinit, hcases⟩ := spawnElf_cases he
  have h₁ := h.init hs hinit
  have hs₁ := (hs.init hinit).1
  rcases hcases with ⟨rfl, _⟩ | ⟨parsed, stackTop, u, pm₁, blocks, pm₂, _, hfile, _, htop, hpt, hblk,
    hcases⟩
  · exact h₁
  rcases hcases with ⟨rfl, _, rfl⟩ | ⟨⟨kstack, code, ustack⟩, i, rfl, _, hload⟩
  · exact h₁.leak hs₁ hpt hblk
  · exact h₁.load hs₁ hb hpt hblk ((List.length_take_le _ _).trans hfile) (stackTop_lt htop) hload

theorem Guarded.growHeap (h : Guarded s) (hs : Sound b s live) (he : s.growHeap = some s') :
    Guarded s' := by
  obtain ⟨⟨addr, pm'⟩, halloc, rfl⟩ := Option.map_eq_some_iff.mp he
  rcases allocBlock_cases hs.spaces halloc with ⟨rfl, rfl⟩ | ⟨phys, rfl, hmem, _⟩
  · exact h
  · refine ⟨?_, h.pagetables⟩
    simp only
    rw [hmem]
    exact h.lasts

theorem Guarded.step (h : Guarded s) (hs : Sound b s live)
    (hb : b.metadata.length ≤ MAX_SUPPORTED_PAGES) (hstep : Step s s') : Guarded s' := by
  cases hstep with
  | call a he =>
    cases a with
    | init => exact h.init hs he
    | spawnKernel entry =>
      obtain ⟨⟨i, _⟩, hcall, rfl⟩ := Option.map_eq_some_iff.mp he
      exact h.spawnKernel hs hcall
    | spawnUser code =>
      obtain ⟨⟨i, _⟩, hcall, rfl⟩ := Option.map_eq_some_iff.mp he
      exact h.spawnUser hs hb hcall
    | spawnElf image =>
      obtain ⟨⟨res, _⟩, hcall, rfl⟩ := Option.map_eq_some_iff.mp he
      exact h.spawnElf hs hb hcall
    | yieldNow => exact h.rescheduled (schedule_rescheduled he)
    | onTimerTick => exact h.rescheduled (onTimerTick_rescheduled he)
    | exitCurrent => exact h.rescheduled (exitCurrent_rescheduled he)
    | growHeap => exact h.growHeap hs he
  | write m hm => exact ⟨h.lasts.same (hs.spaces.same hm), h.pagetables⟩

theorem Guarded.steps (h : Guarded s₀) (hs : Sound b s₀ live)
    (hb : b.metadata.length ≤ MAX_SUPPORTED_PAGES) (hrun : Steps s₀ s) :
    Guarded s ∧ ∃ live', Sound b s live' := by
  induction hrun with
  | refl => exact ⟨h, live, hs⟩
  | tail _ hstep ih =>
    obtain ⟨h', live', hs'⟩ := ih
    exact ⟨h'.step hs' hb hstep, hs'.step hb hstep⟩

/-- The kernel's page table, as boot leaves it. -/
theorem boot_guarded (hlen : metadata.length ≤ MAX_SUPPORTED_PAGES) (hareas : DisjointAreas memMap)
    (h : boot metadata memMap reserved mem l ring0StackTop = some s) : Guarded s := by
  simp only [boot, Option.bind_eq_bind, Option.bind_eq_some_iff] at h
  obtain ⟨b, hnew, ⟨pml4, pm⟩, hinit, h⟩ := h
  obtain rfl := Option.some.inj h
  obtain ⟨pm₀, hled₀, hzero, hmap⟩ :=
    initKernelPageTable_run (Reach.start.ledger_of_new hlen hareas hnew) hinit
  have hroot : ∀ {r}, (kernelSpace pml4 [pml4]).root r → r = pml4 := fun hr => List.mem_singleton.mp hr
  obtain ⟨htab, _⟩ := tables_of_zero hroot hled₀ List.mem_cons_self hzero
  obtain ⟨_, _, hL⟩ := Lasts.mapAll writeXorExec_zero (List.mem_singleton_self pml4)
    (kernelCalls memMap l) (fun c hc => writeXorExec_entry (kernelCalls_flags hc).2)
    (lasts_of_zero hroot hzero) htab hmap
  exact ⟨hL, by simp⟩

/-- **No page is writable and executable**, in the kernel's page table and in that of any process,
after any run from boot with any programs that are loaded into the lower half. -/
theorem write_xor_execute (hlen : metadata.length ≤ MAX_SUPPORTED_PAGES)
    (hareas : DisjointAreas memMap)
    (hboot : boot metadata memMap reserved mem l ring0StackTop = some s₀) (hrun : LowSteps s₀ s)
    {r v : Nat} {t : Translation} (hr : r = s.kernelPml4 ∨ ∃ p ∈ s.procs, p.pagetable = r)
    (ht : walk s.pm.mem r v = some t) : ¬ (t.writable = true ∧ t.nx = false) := by
  obtain ⟨b, live₀, _, hsound, hb, _⟩ := boot_sound hlen hareas hboot
  obtain ⟨h, live, hs⟩ := (boot_guarded hlen hareas hboot).steps hsound hb (steps_of_low hrun)
  have hroot : r ∈ s.roots := by
    rcases hr with rfl | ⟨p, hp, rfl⟩
    · exact List.mem_cons_self
    · exact h.pagetables p hp
  obtain ⟨e, he, hw, hnx⟩ := h.lasts.walk hs.spaces.tables hroot ht
  rintro ⟨hwritable, hexec⟩
  rw [hnx, he (hw ▸ hwritable)] at hexec
  simp at hexec

/-- The page of the built-in `echo`. -/
theorem write_xor_execute_echo : ∃ s₀ s p t, machineBoot = some s₀ ∧ LowSteps s₀ s ∧
    p ∈ s.procs ∧ walk s.pm.mem p.pagetable 0x408000 = some t ∧ t.user = true ∧
    ¬ (t.writable = true ∧ t.nx = false) := by
  have hacc := accepts_buildProgramImage .Echo
  obtain ⟨s₀, s, s', hboot, hrun, _, _, he⟩ := machine_spawnElf hacc
  obtain ⟨b, live, h, hb⟩ := sound_of_run machine_max machine_disjoint hboot (steps_of_low hrun)
  obtain ⟨parsed, p, code, stackTop, ustack, hacc', hp, _, hwalk⟩ := h.walk_boot hb he
  obtain rfl := hacc.unique hacc'
  have hp := List.mem_of_getElem? hp
  have hexec : s.exec (.spawnElf (Elf.buildProgramImage .Echo)) = some s' := by
    rw [exec, he]
    rfl
  have hrun' : LowSteps s₀ s' :=
    hrun.tail (.call (.spawnElf _) (loadsLow_buildProgramImage .Echo) hexec)
  have hat := hwalk 0x408000 (by decide)
  cases hlast : lastCall (userCalls Elf.ProgramId.Echo.entry code stackTop ustack) 0x408000 with
  | none => exact absurd rfl (lastCall_eq_none.mp hlast _ List.mem_cons_self)
  | some c =>
    simp only at hat
    rw [hlast, Option.some_or, Option.map_some] at hat
    exact ⟨s₀, s', p, _, hboot, hrun', hp, hat, userCalls_user c (lastCall_eq_some hlast).1,
      write_xor_execute machine_max machine_disjoint hboot hrun' (Or.inr ⟨p, hp, rfl⟩) hat⟩

/-! ### A page in two areas -/

/-- A kernel of four pages at 1 MiB. -/
def sharedLayout : BootLayout where
  kernelStart := 0x100000
  kernelEnd := 0x104000
  mbiStart := 0x105000
  mbiEnd := 0x105100
  textStart := 0xFFFF800000100000
  textEnd := 0xFFFF800000101000
  rodataStart := 0xFFFF800000101000
  rodataEnd := 0xFFFF800000102000
  dataStart := 0xFFFF800000102000
  dataEnd := 0xFFFF800000103000
  bssStart := 0xFFFF800000103000
  bssEnd := 0xFFFF800000104000

/-- Eleven pages of usable memory, with page `17` in an area of its own as well.  The heap is not
used before `init`, so boot comes this far without a chunk. -/
def sharedBoot : Option System :=
  boot (List.replicate 32 default) [⟨0x11000, 0x12000, 1⟩, ⟨0x10000, 0x1B000, 1⟩]
    sharedLayout.reserved { bytes := fun _ => 0, stores := [] } sharedLayout 0xFFFF800000104000

/-- `init_kernel_page_table` is given page `17` for two tables, so that an entry that points at a
table is also the last one for a page. -/
theorem shared_page_write_execute : ∃ s t, sharedBoot = some s ∧ LowSteps s s ∧
    walk s.pm.mem s.kernelPml4 0 = some t ∧ t.writable = true ∧ t.nx = false := by
  have hrun : (sharedBoot.bind fun s => (walk s.pm.mem s.kernelPml4 0).map fun t =>
      (t.writable, t.nx)) = some (true, false) := by decide +kernel
  obtain ⟨s, hboot, hrun⟩ := Option.bind_eq_some_iff.mp hrun
  obtain ⟨t, ht, hrun⟩ := Option.map_eq_some_iff.mp hrun
  obtain ⟨hw, hnx⟩ := Prod.mk.inj hrun
  exact ⟨s, t, hboot, .refl, ht, hw, hnx⟩

end System

end Zeronix
