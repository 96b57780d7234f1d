import Mathlib.Data.Finset.Image
import Zeronix.Task.Progress

/-!
# Machines that boot

When a machine comes as far as its first process (`boot_room`, `exists_ready`).  The heap asks for
a chunk of 4 MiB before that, so a machine needs one besides the frames for its tables.

`machineBoot` is a machine with 12 MiB.
-/

namespace Zeronix

open Radix BuddyAllocator Session Mapper Page

variable {b a : BuddyAllocator} {memMap : List MemoryArea} {l : BootLayout} {order n x : Nat}

/-! ### Usable pages -/

/-- A page that the allocator of a fresh machine can hand out. -/
structure Usable (memMap : List MemoryArea) (l : BootLayout) (x : Nat) : Prop where
  lt : x < kernelPages memMap
  area : ∃ a ∈ memMap, a.usable = true ∧ a.HasPage x
  clear : Clear l.reserved x

theorem limit_pages : EARLY_PAGE_TABLE_LIMIT = 0x800 * PAGE_SIZE := by decide

theorem separatedAreas_of_gaps (h : memMap.Pairwise fun a a' =>
    a.endAddress.toNat + PAGE_SIZE ≤ a'.startAddress.toNat) : SeparatedAreas memMap := by
  refine (h.filter _).imp ?_
  rintro a a' hgap x y ⟨_, hx⟩ ⟨hy, _⟩
  unfold PAGE_SIZE at *
  omega

theorem clear_of_apart (h : ∀ r ∈ l.reserved, r.2 ≤ x * PAGE_SIZE ∨ (x + 1) * PAGE_SIZE ≤ r.1) :
    Clear l.reserved x := by
  intro r hr y hy hy' ⟨h₁, h₂⟩
  rcases h r hr with h | h <;> omega

theorem not_usable_bootdata : ¬ Usable memMap l 0x400 := by
  rintro ⟨_, _, hclear⟩
  exact hclear (BOOTDATA_START, BOOTDATA_END) (List.mem_cons_of_mem _ List.mem_cons_self) 0x400000
    (by decide) (by decide) (by decide)

theorem reserved_nonempty (hl : l.Linked) (hmbi : l.mbiStart < l.mbiEnd) :
    ∀ r ∈ l.reserved, r.1 < r.2 := by
  intro r hr
  simp only [BootLayout.reserved, List.mem_cons, List.not_mem_nil, or_false] at hr
  rcases hr with rfl | rfl | rfl
  · exact hl.kernel
  · decide
  · exact hmbi

theorem reserved_round (hl : l.Linked) (hk : l.kernelEnd ≤ 2 ^ 46) :
    ∀ r ∈ l.reserved, r.2 + PAGE_SIZE < Word.modulus := by
  intro r hr
  have hmbi := hl.mbi
  have hsize := hl.mbiSize
  simp only [BootLayout.reserved, List.mem_cons, List.not_mem_nil, or_false] at hr
  rcases hr with rfl | rfl | rfl
  · unfold PAGE_SIZE Word.modulus
    simp only
    omega
  · decide
  · unfold PAGE_SIZE Word.modulus
    simp only
    omega

namespace System

variable {s s₀ s' : System} {i : Nat} {p : Proc} {live : List (Nat × Nat)} {metadata : List PageInfo}

/-! ### Boot -/

/-- A machine that booted, with frames left. -/
structure Booted (memMap : List MemoryArea) (l : BootLayout) (b : BuddyAllocator)
    (live : List (Nat × Nat)) (s : System) (order n : Nat) : Prop where
  sound : Sound b s live
  length : b.metadata.length ≤ MAX_SUPPORTED_PAGES
  unstarted : s.Unstarted
  nextPid : s.nextPid = 1
  kernelPml4 : s.kernelPml4 ≠ 0
  room : Room b s.pm.buddy order n
  zero : ¬ Usable memMap l 0
  usable : ∀ x, (s.pm.buddy.info x).isFree = true → Usable memMap l x
  above : ∀ x, EARLY_PAGE_TABLE_LIMIT ≤ x * PAGE_SIZE → Usable memMap l x →
    (s.pm.buddy.info x).isFree = true

/-- **A machine boots** when its frames below the limit are enough for the kernel's page table. -/
theorem boot_room (order n : Nat) (mem : Memory) (ring0StackTop : Nat)
    (hlen : metadata.length = kernelPages memMap) (hord : order < MAX_ORDER)
    (hareas : SeparatedAreas memMap) (hdisjoint : DisjointAreas memMap)
    (hstart : ∀ a ∈ memMap, a.usable = true → a.startAddress.toNat + PAGE_SIZE < Word.modulus)
    (hlow : ∀ a ∈ memMap, a.usable = true → a.endAddress.toNat ≤ 2 ^ 47) (hl : l.Linked)
    (hk : l.kernelEnd ≤ 2 ^ 46) (hmbi : l.mbiStart < l.mbiEnd) (hzero : ¬ Usable memMap l 0)
    {S : Finset Nat} (hcard : n + 3 * turns none (kernelCalls memMap l) + 3 + 1 ≤ S.card)
    (hS : ∀ q ∈ S, 2 ^ order ∣ q ∧ (q + 2 ^ order) * PAGE_SIZE ≤ EARLY_PAGE_TABLE_LIMIT ∧
      ∀ x, q ≤ x → x < q + 2 ^ order → Usable memMap l x) :
    ∃ b live s, boot metadata memMap l.reserved mem l ring0StackTop = some s ∧
      Booted memMap l b live s order (n + 3) := by
  have hmax : metadata.length ≤ MAX_SUPPORTED_PAGES := by
    rw [hlen]
    exact Nat.min_le_right _ _
  obtain ⟨b, _, hnew, _, hfree⟩ := new_free hareas.pages (reserved_nonempty hl hmbi) hstart
    (reserved_round hl hk) hlen
  have husable : ∀ x, (b.info x).isFree = true ↔ Usable memMap l x := fun x =>
    (hfree x).trans ⟨fun ⟨h₁, h₂, h₃⟩ => ⟨hlen ▸ h₁, h₂, h₃⟩, fun h => ⟨hlen ▸ h.lt, h.area, h.clear⟩⟩
  obtain ⟨L, hI, _, hall, hfrom⟩ := fresh_of_new hmax hareas.pages hnew
  have hled := Ledger.start hI hall
  have hroom : Room b b order (n + 3 * turns none (kernelCalls memMap l) + 3 + 1) := by
    refine ⟨⟨_, hled⟩, new_coalesced hareas (reserved_nonempty hl hmbi) hfrom, S, hcard,
      fun q hq => ?_⟩
    obtain ⟨hd, hlimit, hrun⟩ := hS q hq
    exact ⟨⟨hd, fun x hge hlt => (husable x).mpr (hrun x hge hlt)⟩, hlimit⟩
  obtain ⟨pml4, pm, k, hinit, htake, hroom'⟩ := initKernelPageTable_room hord hl hk hlow
    (show Room b (PhysMem.mk b mem).buddy order _ from hroom)
  have hboot : boot metadata memMap l.reserved mem l ring0StackTop = some {
      pm := pm
      kernelPml4 := pml4
      ring0StackTop := ring0StackTop
      procs := []
      readyQueue := []
      nextPid := 1
      current := none
      chunks := []
      cr3 := pml4 &&& ADDR_MASK
      rsp0 := ring0StackTop } := by
    simp only [boot, hnew, hinit, Option.bind_eq_bind, Option.bind_some]
    rfl
  obtain ⟨b', live, hnew', hsound, hlength, hunstarted⟩ := boot_sound hmax hdisjoint hboot
  obtain rfl := Option.some.inj (hnew.symm.trans hnew')
  -- what is free now was free at first
  have hsub : ∀ x, (b.tag x).isSome = true → Usable memMap l x := by
    intro x hx
    obtain ⟨⟨o, c⟩, ht⟩ := Option.isSome_iff_exists.mp hx
    obtain rfl := hall x o c ht
    exact (husable x).mp (isFree_of_tag ht)
  have hledger := hsound.spaces.tables.ledger
  refine ⟨b, live, _, hboot, hsound, hlength, hunstarted, rfl, ?_, hroom', hzero, fun x hx => ?_,
    fun x hx hu => ?_⟩
  · intro hpml4
    refine hzero (hsub 0 ?_)
    have hheld := hsound.spaces.tables.held (.of_root hsound.spaces.kernel)
    rw [hpml4] at hheld
    have ht : pm.buddy.tag 0 = some (0, false) :=
      (hledger.block_of_page (.live hheld) ⟨Nat.le_refl _, Nat.one_pos⟩).1
    have hsome : (pm.buddy.tag 0).isSome = (b.tag 0).isSome := hledger.pages 0
    rw [← hsome, ht]
    rfl
  · exact hsub x ((hledger.isFree_iff x).mp hx).1
  · exact (Ledger.takeFrames_above hled htake).2 x hx ((husable x).mpr hu)

/-! ### The heap and the first process -/

/-- The heap has a chunk, and the boot process runs. -/
structure Ready (b : BuddyAllocator) (live : List (Nat × Nat)) (s₀ s : System) (order n : Nat) :
    Prop where
  start : ∃ s₁, s₀.growHeap = some s₁ ∧ s₁.init = some s
  sound : Sound b s live
  length : b.metadata.length ≤ MAX_SUPPORTED_PAGES
  nextPid : s.nextPid = 1
  kernelPml4 : s.kernelPml4 ≠ 0
  heap : s.chunks ≠ []
  current : s.current = some 0
  queue : s.readyQueue = []
  procs : ∃ p, s.procs = [p] ∧ p.state = .Running ∧ p.ticksLeft = DEFAULT_TIME_SLICE_TICKS
  room : Room b s.pm.buddy order n
  free : ∃ q, FreeRun s₀.pm.buddy CHUNK_ORDER q ∧ ∀ x, (s.pm.buddy.info x).isFree = true →
    (s₀.pm.buddy.info x).isFree = true ∧ ¬ (q ≤ x ∧ x < q + 2 ^ CHUNK_ORDER)

theorem Ready.run (h : Ready b live s₀ s order n) : LowSteps s₀ s := by
  obtain ⟨s₁, hgrow, hinit⟩ := h.start
  exact .tail (.single (.call .growHeap trivial hgrow)) (.call .init trivial hinit)

theorem Ready.isSome (h : Ready b live s₀ s order n) : s.current.isSome = true := by
  rw [h.current]
  rfl

theorem Ready.length_procs (h : Ready b live s₀ s order n) : s.procs.length = 1 := by
  obtain ⟨p, hp, _⟩ := h.procs
  rw [hp]
  rfl

theorem init_first (hnone : s.current = none) (hempty : s.procs = []) (h : s.init = some s') :
    s'.current = some 0 ∧ s'.readyQueue = s.readyQueue ∧
      ∃ p, s'.procs = [p] ∧ p.state = .Running ∧ p.ticksLeft = DEFAULT_TIME_SLICE_TICKS := by
  rw [init, hnone, if_neg (by simp)] at h
  obtain ⟨pml4, _, rfl⟩ := Option.map_eq_some_iff.mp h
  refine ⟨?_, rfl, ?_⟩
  · rw [hempty]
    rfl
  · rw [hempty]
    exact ⟨_, rfl, rfl, rfl⟩

/-- A chunk lies above the frames for page tables, since neither page 0 nor the boot data is
usable. -/
theorem Booted.chunk_above {q : Nat} (h : Booted memMap l b live s₀ order n)
    (hq : FreeRun s₀.pm.buddy CHUNK_ORDER q) : 0x800 ≤ q := by
  obtain ⟨⟨c, rfl⟩, hrun⟩ := hq
  have hpages : 2 ^ CHUNK_ORDER = 0x400 := by decide
  rw [hpages] at hrun ⊢
  by_contra hlow
  rcases (show c = 0 ∨ c = 1 by omega) with rfl | rfl
  · exact h.zero (h.usable 0 (hrun 0 (by omega) (by omega)))
  · exact not_usable_bootdata (h.usable 0x400 (hrun 0x400 (by omega) (by omega)))

/-- **The first steps**: the heap grows by a chunk, and `init` makes the boot process. -/
theorem Booted.exists_ready (h : Booted memMap l b live s₀ order n)
    (hchunk : ∃ q, FreeRun s₀.pm.buddy CHUNK_ORDER q) : ∃ live' s, Ready b live' s₀ s order n := by
  have hled := h.sound.spaces.tables.ledger
  obtain ⟨L, hI⟩ : ∃ L, Inv s₀.pm.buddy L := hled.inv
  obtain ⟨answer, a, he, hiff, hrun⟩ := allocateWhere_exact hI h.room.coalesced
    (show CHUNK_ORDER < MAX_ORDER by decide) (fun _ => true) fun _ _ _ _ => rfl
  obtain ⟨q, hq⟩ := hchunk
  obtain ⟨phys, rfl⟩ := Option.isSome_iff_exists.mp (hiff.mpr ⟨q, hq, rfl⟩)
  obtain ⟨q, rfl, hq, _⟩ := hrun phys rfl
  have hgrow : s₀.growHeap = some { s₀ with
      pm := { s₀.pm with buddy := a }
      chunks := q * PAGE_SIZE :: s₀.chunks } := by
    rw [growHeap, allocBlock, allocate, he]
    rfl
  obtain ⟨s, hinit⟩ := init_room (s := { s₀ with
    pm := { s₀.pm with buddy := a }
    chunks := q * PAGE_SIZE :: s₀.chunks }) h.kernelPml4
  obtain ⟨⟨live₁, h₁⟩, _⟩ := h.sound.growHeap hgrow
  obtain ⟨h₂, _⟩ := h₁.init hinit
  obtain ⟨hpm, hk, hnext⟩ := init_same hinit
  obtain ⟨more, hs, _⟩ := init_spec hinit
  obtain ⟨hempty, hqueue, hnone⟩ := h.unstarted
  obtain ⟨hcurrent, hqueue', hprocs⟩ := init_first (s := { s₀ with
    pm := { s₀.pm with buddy := a }
    chunks := q * PAGE_SIZE :: s₀.chunks }) hnone hempty hinit
  have hled' : Ledger b { allocator := a, live := (q * PAGE_SIZE, CHUNK_ORDER) :: live } :=
    (h.sound.spaces.alloc he).tables.ledger
  have habove : EARLY_PAGE_TABLE_LIMIT ≤ q * PAGE_SIZE := by
    rw [limit_pages]
    exact Nat.mul_le_mul_right _ (h.chunk_above hq)
  refine ⟨live₁, s, ⟨_, hgrow, hinit⟩, h₂, h.length, hnext.trans h.nextPid, ?_, ?_, hcurrent,
    hqueue'.trans hqueue, hprocs, ?_, q, hq, fun x hx => ?_⟩
  · rw [hk]
    exact h.kernelPml4
  · rw [hs]
    exact List.cons_ne_nil _ _
  · rw [hpm]
    exact h.room.take_above hled hled' (coalesced_allocateWhere hled h.room.coalesced he) habove
  · rw [hpm] at hx
    exact (hled.taken_one hled' x).mp hx

/-! ### The place of a new process -/

theorem init_self (h : s.current.isSome = true) : s.init = some s := by
  rw [init, if_pos h]

theorem addProc_spec (h : (i, s') = s.addProc p) :
    s'.procs[i]? = some { p with state := .Ready } ∧ s'.pm = s.pm := by
  obtain ⟨rfl, rfl⟩ := Prod.mk.inj h
  refine ⟨?_, rfl⟩
  simp [pushReady, setState]

theorem loadUser_at {pid u virt rip stackTop : Nat} {blocks : Nat × Nat × Nat} {bytes : List UInt8}
    (he : s.loadUser pid u blocks bytes virt rip stackTop = some (i, s')) : i = s.procs.length ∧
      ∃ p, s'.procs[i]? = some p ∧ p.kind = .User ∧ p.pid = pid := by
  obtain ⟨kstack, code, ustack⟩ := blocks
  obtain ⟨pm₁, pm₂, pm₃, top, tf, _, _, _, _, _, hs'⟩ := loadUser_cases he
  exact ⟨(Prod.mk.inj hs').1, _, (addProc_spec hs').1, rfl, rfl⟩

theorem spawnUser_at {bytes : List UInt8} (hcurrent : s.current.isSome = true)
    (he : s.spawnUser bytes = some (i, s')) : i = s.procs.length ∧
      ∃ p, s'.procs[i]? = some p ∧ p.kind = .User ∧ p.pid = s.nextPid := by
  obtain ⟨s₁, _, _, _, _, _, _, hinit, _, _, _, _, _, hload⟩ := spawnUser_cases he
  obtain rfl := Option.some.inj ((init_self hcurrent).symm.trans hinit)
  have hat := loadUser_at hload
  exact hat

theorem spawnElf_at {image : List UInt8} (hcurrent : s.current.isSome = true)
    (he : s.spawnElf image = some (.ok i, s')) : i = s.procs.length := by
  obtain ⟨s₁, hinit, hcases⟩ := spawnElf_cases he
  obtain rfl := Option.some.inj ((init_self hcurrent).symm.trans hinit)
  rcases hcases with ⟨_, ⟨e, herr⟩, _⟩ |
    ⟨_, _, _, _, _, _, _, _, _, _, _, _, ⟨_, herr, _⟩ | ⟨_, _, _, hok, hload⟩⟩
  · simp at herr
  · simp at herr
  · obtain rfl := Except.ok.inj hok
    have hat := (loadUser_at hload).1
    exact hat

/-! ### A kernel task -/

/-- The boot process runs, and a task waits for it. -/
structure TaskWaits (s : System) (left : Nat) : Prop where
  current : s.current = some 0
  queue : s.readyQueue = [1]
  procs : ∃ p q, s.procs = [p, q] ∧ p.state = .Running ∧ p.ticksLeft = left

theorem Ready.spawnKernel (h : Ready b live s₀ s order (n + 1)) (hord : order < MAX_ORDER)
    (ho : KERNEL_STACK_ORDER ≤ order) (entry : Nat) :
    ∃ s', s.spawnKernel entry = some (1, s') ∧ TaskWaits s' DEFAULT_TIME_SLICE_TICKS := by
  obtain ⟨q, a, he, _⟩ := h.room.request (fun _ => true) hord ho (fun _ _ _ _ => rfl) fun _ _ => rfl
  have hled := (h.sound.spaces.alloc he).tables.ledger
  have hlt := live_lt hled List.mem_cons_self
  obtain ⟨kv, hkv⟩ := physToVirt_of_lt (show q * PAGE_SIZE < 2 ^ 47 by omega)
  have htop : kstackTop (q * PAGE_SIZE) = some (kv + KERNEL_STACK_SIZE) := by
    have hsize : KERNEL_STACK_SIZE = 16384 := by decide
    have hkveq := physToVirt_eq_some hkv
    rw [kstackTop, hkv, Option.bind_some, Word.add_eq_some, hsize]
    unfold KERNEL_VMA at hkveq
    unfold Word.modulus
    omega
  have hkernel : s.kernelPml4? = some s.kernelPml4 := by rw [kernelPml4?, if_neg h.kernelPml4]
  obtain ⟨task, hspawn⟩ : ∃ task, s.spawnKernel entry = some ({ s with
      nextPid := (s.nextPid + 1) % Word.modulus
      pm := { s.pm with buddy := a } }.addProc task) := by
    have halloc : s.pm.buddy.allocate KERNEL_STACK_ORDER = some (some (q * PAGE_SIZE), a) := he
    simp only [System.spawnKernel, init_self h.isSome, fetchPid, halloc, startKernel, htop,
      Option.bind_eq_bind, Option.bind_some]
    generalize (s.nextPid + 1) % Word.modulus = nextPid
    rw [show ({ s with
      nextPid := nextPid
      pm := { s.pm with buddy := a } } : System).kernelPml4? = some s.kernelPml4 from hkernel]
    exact ⟨_, rfl⟩
  rw [addProc, h.length_procs] at hspawn
  obtain ⟨p, hp, hrunning, hticks⟩ := h.procs
  refine ⟨_, hspawn, h.current, ?_, p, { task with state := .Ready }, ?_, hrunning, hticks⟩
  · simp [pushReady, setState, h.queue]
  · simp [pushReady, setState, hp]

/-! ### Images -/

theorem Accepts.unique {image : List UInt8} {parsed parsed' : Elf.ParsedElf}
    (h : Accepts image parsed) (h' : Accepts image parsed') : parsed = parsed' :=
  Except.ok.inj (Option.some.inj (h.parse.symm.trans h'.parse))

theorem length_userProgramCode (program : Elf.ProgramId) :
    (Elf.userProgramCode program).length < 128 := by
  cases program <;> decide +kernel

/-- The file that is installed for a built-in program. -/
theorem accepts_buildProgramImage (program : Elf.ProgramId) :
    Accepts (Elf.buildProgramImage program) {
      entry := program.entry
      program := program
      load := {
        offset := 120
        virtAddr := program.entry
        fileSize := (Elf.userProgramCode program).length
        memSize := (Elf.userProgramCode program).length
        flags := 5 } } := by
  have hlen : (Elf.userProgramCode program).length ≤ PAGE_SIZE :=
    (length_userProgramCode program).le.trans (by decide)
  refine ⟨?_, hlen, hlen⟩
  cases program <;> decide +kernel

theorem loadsLow_buildProgramImage (program : Elf.ProgramId) :
    LoadsLow (Elf.buildProgramImage program) := by
  intro parsed ha
  obtain rfl := (accepts_buildProgramImage program).unique ha
  cases program <;> decide

/-! ### A machine with 12 MiB -/

/-- A kernel of 2 MiB at 1 MiB, most of it the page metadata. -/
def kernelLayout : BootLayout where
  kernelStart := 0x100000
  kernelEnd := 0x300000
  mbiStart := 0x300000
  mbiEnd := 0x301000
  textStart := KERNEL_VMA + 0x100000
  textEnd := KERNEL_VMA + 0x140000
  rodataStart := KERNEL_VMA + 0x140000
  rodataEnd := KERNEL_VMA + 0x150000
  dataStart := KERNEL_VMA + 0x150000
  dataEnd := KERNEL_VMA + 0x160000
  bssStart := KERNEL_VMA + 0x160000
  bssEnd := KERNEL_VMA + 0x300000

theorem kernelLayout_linked : kernelLayout.Linked where
  kernel := by decide
  mbi := by decide
  mbiSize := by decide
  text := ⟨by decide, by decide, by decide⟩
  rodata := ⟨by decide, by decide, by decide⟩
  data := ⟨by decide, by decide, by decide⟩
  bss := ⟨by decide, by decide, by decide⟩

/-- The memory below 1 MiB and that from 1 MiB on. -/
def machineMap : List MemoryArea := [⟨0x1000, 0x9F000, 1⟩, ⟨0x100000, 0xC00000, 1⟩]

def machineBoot : Option System :=
  boot (List.replicate 3072 default) machineMap kernelLayout.reserved
    { bytes := fun _ => 0, stores := [] } kernelLayout 0xFFFF800000300000

theorem machine_areas : SeparatedAreas machineMap := separatedAreas_of_gaps (by decide)

theorem machine_disjoint : DisjointAreas machineMap := by
  have hgap : machineMap.Pairwise fun a a' =>
      a.endAddress.toNat ≤ a'.startAddress.toNat := by decide
  refine (hgap.filter _).imp fun {a a'} h x hx => ?_
  omega

theorem machine_length : (List.replicate 3072 (default : PageInfo)).length =
    kernelPages machineMap := by
  rw [List.length_replicate]
  decide

/-- The pages between the boot data and the end of the memory. -/
theorem machine_usable (hge : 0x500 ≤ x) (hlt : x < 0xC00) : Usable machineMap kernelLayout x := by
  refine ⟨by rw [← machine_length, List.length_replicate]; exact hlt,
    ⟨⟨0x100000, 0xC00000, 1⟩, by decide, rfl, ?_⟩, clear_of_apart fun r hr => Or.inl ?_⟩
  · have hstart : (0x100000 : UInt64).toNat = 0x100000 := rfl
    have hend : (0xC00000 : UInt64).toNat = 0xC00000 := rfl
    unfold MemoryArea.HasPage PAGE_SIZE
    simp only [hstart, hend]
    omega
  · have hend : ∀ r ∈ kernelLayout.reserved, r.2 ≤ 0x500000 := by decide
    have hle := hend r hr
    unfold PAGE_SIZE
    omega

theorem machine_zero : ¬ Usable machineMap kernelLayout 0 := by
  rintro ⟨_, ⟨a, ha, _, hpage⟩, _⟩
  have hstart : ∀ a ∈ machineMap, 0x1000 ≤ a.startAddress.toNat := by decide
  have hle := hstart a ha
  have hzero := hpage.1
  omega

theorem machine_turns : turns none (kernelCalls machineMap kernelLayout) ≤ 20 := by
  decide +kernel

/-- The runs of four pages from page `0x500` to the limit. -/
def machineRuns : Finset Nat := (Finset.range 192).image fun i => 0x500 + 4 * i

theorem card_machineRuns : machineRuns.card = 192 := by
  have hinj : Function.Injective fun i : Nat => 0x500 + 4 * i := fun i j h => by
    simp only at h
    omega
  rw [machineRuns, Finset.card_image_of_injective _ hinj, Finset.card_range]

theorem machineRuns_usable {q : Nat} (hq : q ∈ machineRuns) : 2 ^ 2 ∣ q ∧
    (q + 2 ^ 2) * PAGE_SIZE ≤ EARLY_PAGE_TABLE_LIMIT ∧
      ∀ x, q ≤ x → x < q + 2 ^ 2 → Usable machineMap kernelLayout x := by
  obtain ⟨i, hi, rfl⟩ := Finset.mem_image.mp hq
  have hi := Finset.mem_range.mp hi
  refine ⟨by omega, ?_, fun x hge hlt => machine_usable (by omega) (by omega)⟩
  unfold PAGE_SIZE EARLY_PAGE_TABLE_LIMIT
  omega

/-- **The machine boots**, its heap gets a chunk, and there is room for more than a process. -/
theorem machine_ready : ∃ s₀ s b live, machineBoot = some s₀ ∧ Ready b live s₀ s 2 100 := by
  have hcard : 97 + 3 * turns none (kernelCalls machineMap kernelLayout) + 3 + 1 ≤
      machineRuns.card := by
    have hturns := machine_turns
    rw [card_machineRuns]
    omega
  obtain ⟨b, live, s₀, hboot, h⟩ := boot_room 2 97 { bytes := fun _ => 0, stores := [] }
    0xFFFF800000300000 machine_length (by decide) machine_areas machine_disjoint (by decide)
    (by decide) kernelLayout_linked (by decide) (by decide) machine_zero hcard
    fun _ => machineRuns_usable
  have hpages : 2 ^ CHUNK_ORDER = 0x400 := by decide
  obtain ⟨live', s, hready⟩ := h.exists_ready ⟨0x800, by decide, fun x hge hlt =>
    h.above x (by rw [limit_pages]; exact Nat.mul_le_mul_right _ hge)
      (machine_usable (by omega) (by omega))⟩
  exact ⟨s₀, s, b, live', hboot, hready⟩

theorem machine_max : (List.replicate 3072 (default : PageInfo)).length ≤ MAX_SUPPORTED_PAGES := by
  rw [List.length_replicate]
  decide

/-- Its boot process starts a kernel task. -/
theorem machine_spawnKernel (entry : Nat) : ∃ s₀ s s', machineBoot = some s₀ ∧ s₀.Unstarted ∧
    LowSteps s₀ s ∧ s.chunks ≠ [] ∧ s.spawnKernel entry = some (1, s') ∧
    TaskWaits s' DEFAULT_TIME_SLICE_TICKS := by
  obtain ⟨s₀, s, b, live, hboot, h⟩ := machine_ready
  obtain ⟨_, _, _, _, _, hunstarted⟩ := boot_sound machine_max machine_disjoint hboot
  obtain ⟨s', he, hwaits⟩ := h.spawnKernel (by decide) (Nat.le_refl 2) entry
  exact ⟨s₀, s, s', hboot, hunstarted, h.run, h.heap, he, hwaits⟩

/-- It loads any image that is accepted. -/
theorem machine_spawnElf {image : List UInt8} {parsed : Elf.ParsedElf} (hacc : Accepts image parsed) :
    ∃ s₀ s s', machineBoot = some s₀ ∧ LowSteps s₀ s ∧ s.chunks ≠ [] ∧ s.nextPid = 1 ∧
      s.spawnElf image = some (.ok 1, s') := by
  obtain ⟨s₀, s, b, live, hboot, h⟩ := machine_ready
  obtain ⟨i, s', he⟩ := spawnElf_room h.sound h.length h.kernelPml4 (by decide) (Nat.le_refl 2)
    (h.room.mono (by decide)) hacc
  obtain rfl : i = 1 := (spawnElf_at h.isSome he).trans h.length_procs
  exact ⟨s₀, s, s', hboot, h.run, h.heap, h.nextPid, he⟩

/-- And any code of at most a page. -/
theorem machine_spawnUser {bytes : List UInt8} (hlen : bytes.length ≤ PAGE_SIZE) :
    ∃ s₀ s b live s', machineBoot = some s₀ ∧ Ready b live s₀ s 2 100 ∧
      s.spawnUser bytes = some (1, s') ∧
      ∃ p, s'.procs[1]? = some p ∧ p.kind = .User ∧ p.pid = 1 := by
  obtain ⟨s₀, s, b, live, hboot, h⟩ := machine_ready
  obtain ⟨i, s', he⟩ := spawnUser_room h.sound h.length h.kernelPml4 (by decide) (Nat.le_refl 2)
    (h.room.mono (by decide)) hlen
  obtain ⟨hi, p, hp, hkind, hpid⟩ := spawnUser_at h.isSome he
  obtain rfl : i = 1 := hi.trans h.length_procs
  exact ⟨s₀, s, b, live, s', hboot, h, he, p, hp, hkind, hpid.trans h.nextPid⟩

end System

end Zeronix
