import Zeronix.Mem.Progress
import Zeronix.Task.ProcInv

/-!
# Processes that can be loaded

With room for the tables and the blocks of one more process, `spawn_user` and `spawn_elf` return a
process (`spawnUser_room`, `spawnElf_room`).  Nineteen runs of four free pages are enough: one for
the PML4, three for the tables of the boot data and three for each of the three pages of the
process, three for its blocks, and three that are not used.  With frames but no run of four pages
left, `spawn_elf` answers that there is no memory (`spawnElf_noMemory`).
-/

namespace Zeronix

open Radix BuddyAllocator Session Mapper Page

variable {k u order n : Nat} {R : List Nat} {data live : List (Nat × Nat)}
variable {b : BuddyAllocator} {pm pm' : PhysMem}

namespace Mapper

theorem turns_le_length (calls : List Call) : ∀ last, turns last calls ≤ calls.length := by
  induction calls with
  | nil => exact fun _ => Nat.le_refl 0
  | cons c calls ih =>
    intro last
    have hrest := ih (some (c.virt / 2 ^ 21))
    rw [turns, List.length_cons]
    split <;> omega

/-- A block is where the window can show it. -/
theorem live_lt {a : BuddyAllocator} {addr o : Nat}
    (h : Ledger b { allocator := a, live := live }) (hm : (addr, o) ∈ live) : addr < 2 ^ 44 := by
  obtain ⟨q, rfl, _, hle⟩ := h.live_spec hm
  obtain ⟨L, hI⟩ : ∃ L, Inv a L := h.inv
  have hsmall := hI.links.small
  have hlen : a.metadata.length = b.metadata.length := h.length
  have hpos := Nat.two_pow_pos o
  unfold PAGE_SIZE
  omega

theorem mapIntoPageTable_run (hu : u < 2 ^ 47) (pm : PhysMem) (virt phys : Nat) (F : EntryFlags) :
    mapIntoPageTable pm u virt phys F = map pm u virt phys F := by
  obtain ⟨_, hvirt⟩ := physToVirt_of_lt hu
  rw [mapIntoPageTable, hvirt, Option.bind_some]

end Mapper

namespace System

variable {s s' : System} {image : List UInt8}

/-! ### The page table -/

theorem mapBootdataIdentity_run (hu : u < 2 ^ 47) (pm : PhysMem) :
    mapBootdataIdentity pm u = mapAll pm u bootCalls := by
  have hstop : alignUp BOOTDATA_END PAGE_SIZE = some 0x408000 := by decide
  have hstart : alignDown BOOTDATA_START PAGE_SIZE = 0x400000 := by decide
  rw [mapBootdataIdentity, hstop, hstart]
  exact foldlM_eq_mapAll (fun addr => { virt := addr, phys := addr, flags := _ }) _
    (fun pm addr _ => mapIntoPageTable_run hu pm addr addr _) pm

/-- The boot data has one last table. -/
theorem turns_bootCalls : turns none bootCalls = 1 := by decide +kernel

theorem newPageTable_room (h : Spaces s.kernelPml4 R data b live s.pm) (hk : s.kernelPml4 ≠ 0)
    (hord : order < MAX_ORDER) (hroom : Room b s.pm.buddy order (n + 7)) :
    ∃ u pm', s.newPageTable = some (u, pm') ∧ Room b pm'.buddy order (n + 3) := by
  obtain ⟨u, pm₁, _, halloc, hu, _, _, hroom₁, _⟩ := allocPml4_room (n := n + 6) hroom hord
  have hkl := live_lt h.tables.ledger (h.tables.held (.of_root h.kernel))
  obtain ⟨_, hkv⟩ := physToVirt_of_lt (show s.kernelPml4 < 2 ^ 47 by omega)
  obtain ⟨_, huv⟩ := physToVirt_of_lt hu
  have hcreate : createUserPageTable s.pm s.kernelPml4 = some (u, { pm₁ with
      mem := copyHalf (pm₁.mem.fill u PAGE_SIZE 0) s.kernelPml4 u 256 }) := by
    simp only [createUserPageTable, if_neg hk, halloc, hkv, clearPml4, huv, Option.map_some,
      Option.bind_eq_bind, Option.bind_some]
    rfl
  obtain ⟨_, h₁, _⟩ := h.create hcreate
  obtain ⟨pm₂, _, hboot, _, hroom₂⟩ := mapAll_room hord (List.mem_cons_self (a := u)) bootCalls
    none h₁.tables (n := n) (by rw [turns_bootCalls]; exact hroom₁) (by simp)
  refine ⟨u, pm₂, ?_, hroom₂⟩
  simp only [newPageTable, hcreate, Option.bind_eq_bind, Option.bind_some,
    mapBootdataIdentity_run hu, hboot]
  rfl

/-! ### The blocks -/

theorem allocBlock_room {o : Nat} (hroom : Room b pm.buddy order (n + 1)) (hord : order < MAX_ORDER)
    (ho : o ≤ order) : ∃ addr pm', allocBlock pm o = some (some addr, pm') ∧
      Room b pm'.buddy order n := by
  obtain ⟨q, a, he, _, hroom'⟩ := hroom.request (fun _ => true) hord ho (fun _ _ _ _ => rfl)
    fun _ _ => rfl
  exact ⟨q * PAGE_SIZE, { pm with buddy := a }, by rw [allocBlock, allocate, he]; rfl, hroom'⟩

theorem allocBlocks_room (hroom : Room b pm.buddy order (n + 3)) (hord : order < MAX_ORDER)
    (ho : KERNEL_STACK_ORDER ≤ order) : ∃ blocks pm', allocBlocks pm = some (some blocks, pm') ∧
      Room b pm'.buddy order n := by
  have hstack : USER_STACK_ORDER ≤ order := Nat.le_trans (by decide) ho
  obtain ⟨kstack, pm₁, e₁, h₁⟩ := allocBlock_room hroom hord ho
  obtain ⟨code, pm₂, e₂, h₂⟩ := allocBlock_room h₁ hord (Nat.zero_le order)
  obtain ⟨ustack, pm₃, e₃, h₃⟩ := allocBlock_room h₂ hord hstack
  refine ⟨(kstack, code, ustack), pm₃, ?_, h₃⟩
  simp only [allocBlocks, e₁, e₂, e₃, Option.bind_eq_bind, Option.bind_some]

/-! ### The program and its stack -/

theorem mapUserStack_run {stackTop : Nat} (hu : u < 2 ^ 47) (htop : USER_STACK_SIZE ≤ stackTop)
    (pm : PhysMem) (ustack : Nat) :
    mapUserStack pm u stackTop ustack = mapAll pm u (stackCalls stackTop ustack) := by
  have hpages : 1 <<< USER_STACK_ORDER = 2 := by decide
  rw [mapUserStack, Word.sub, if_pos htop, hpages]
  exact foldlM_eq_mapAll (stackCall stackTop ustack) _
    (fun pm _ _ => mapIntoPageTable_run hu pm _ _ _) pm

/-- **A process is loaded** when there is room for the tables of its pages. -/
theorem loadUser_room {pid kstack code ustack virt rip stackTop : Nat} {bytes : List UInt8}
    (h : Spaces s.kernelPml4 R data b live s.pm) (hu : u ∈ R)
    (hk : (kstack, KERNEL_STACK_ORDER) ∈ data) (hc : (code, 0) ∈ data)
    (hlen : bytes.length ≤ PAGE_SIZE) (htop : USER_STACK_SIZE ≤ stackTop)
    (hord : order < MAX_ORDER) (hroom : Room b s.pm.buddy order 12) :
    ∃ i s', s.loadUser pid u (kstack, code, ustack) bytes virt rip stackTop = some (i, s') := by
  have hul := live_lt h.tables.ledger (h.tables.held (.of_root hu))
  have hkl := live_lt h.tables.ledger (h.held _ hk)
  have hcl := live_lt h.tables.ledger (h.held _ hc)
  obtain ⟨_, hcv⟩ := physToVirt_of_lt (show code < 2 ^ 47 by omega)
  obtain ⟨kv, hkv⟩ := physToVirt_of_lt (show kstack < 2 ^ 47 by omega)
  have hwrite : writeCode s.pm code bytes =
      some { s.pm with mem := (s.pm.mem.fill code PAGE_SIZE 0).copy code bytes } := by
    rw [writeCode, hcv, Option.map_some]
  obtain ⟨h₁, _⟩ := Spaces.writeCode h hc hlen hwrite
  have hturns := turns_le_length (userCalls virt code stackTop ustack) none
  have hthree : (userCalls virt code stackTop ustack).length = 3 := rfl
  obtain ⟨pm₂, _, hmap, _⟩ := mapAll_room hord hu (userCalls virt code stackTop ustack) none
    h₁.tables (n := 0) (hroom.mono (by omega)) (by simp)
  obtain ⟨pm₁, hfirst, hstack⟩ := Option.bind_eq_some_iff.mp hmap
  have hpage : mapIntoPageTable _ u virt code _ = some pm₁ :=
    (mapIntoPageTable_run (show u < 2 ^ 47 by omega) _ virt code _).trans hfirst
  have hpages : mapUserStack pm₁ u stackTop ustack = some pm₂ :=
    (mapUserStack_run (show u < 2 ^ 47 by omega) htop pm₁ ustack).trans hstack
  -- the top of the kernel stack is an address, and the trap frame lies below it
  have hsize : KERNEL_STACK_SIZE = 16384 := by decide
  have hkveq := physToVirt_eq_some hkv
  have htop : kstackTop kstack = some (kv + KERNEL_STACK_SIZE) := by
    rw [kstackTop, hkv, Option.bind_some, Word.add_eq_some, hsize]
    unfold KERNEL_VMA at hkveq
    unfold Word.modulus
    omega
  have hframe : Word.sub (kv + KERNEL_STACK_SIZE) TrapFrame.SIZE =
      some (kv + KERNEL_STACK_SIZE - TrapFrame.SIZE) := by
    rw [Word.sub, if_pos]
    rw [hsize]
    unfold TrapFrame.SIZE
    omega
  simp only [loadUser, hwrite, hpage, hpages, startUser, htop, hframe, Option.bind_eq_bind,
    Option.bind_some]
  exact ⟨_, _, rfl⟩

/-! ### The whole calls -/

theorem slot_room {pid : Nat} (h : pid ≤ 2 ^ 17 + 1) :
    Word.mul pid USER_SLOT_SIZE = some (pid * 2097152) := by
  have hslot : USER_SLOT_SIZE = 2097152 := rfl
  have hword : Word.modulus = 18446744073709551616 := rfl
  rw [Word.mul, hslot, hword, if_pos (by omega)]

theorem userCodeBase_room {pid : Nat} (h : pid ≤ 2 ^ 17 + 1) :
    ∃ codeBase, userCodeBase pid = some codeBase := by
  have hbase : USER_CODE_BASE = 4194304 := rfl
  have hword : Word.modulus = 18446744073709551616 := rfl
  rw [userCodeBase, slot_room h, Option.bind_eq_bind, Option.bind_some, Word.add, hbase, hword,
    if_pos (by omega)]
  exact ⟨_, rfl⟩

theorem userStackTop_room {pid : Nat} (h : pid ≤ 2 ^ 17 + 1) :
    ∃ stackTop, userStackTop pid = some stackTop ∧ USER_STACK_SIZE ≤ stackTop := by
  have htop : USER_STACK_TOP = 140737488351232 := rfl
  rw [userStackTop, slot_room h, Option.bind_eq_bind, Option.bind_some, Word.sub, htop,
    if_pos (by omega)]
  have hsize : USER_STACK_SIZE = 8192 := by decide
  exact ⟨_, rfl, by omega⟩

/-- The page table and the blocks, and then everything else. -/
theorem Sound.load_room (h : Sound b s live) (hk : s.kernelPml4 ≠ 0) (hord : order < MAX_ORDER)
    (ho : KERNEL_STACK_ORDER ≤ order) (hroom : Room b s.pm.buddy order 19) :
    ∃ u pm₁ blocks pm₂, s.newPageTable = some (u, pm₁) ∧ allocBlocks pm₁ = some (some blocks, pm₂) ∧
      ∀ nextPid pid bytes virt rip stackTop, bytes.length ≤ PAGE_SIZE → USER_STACK_SIZE ≤ stackTop →
        ∃ i s', { s with nextPid := nextPid, pm := pm₂ }.loadUser pid u blocks bytes virt rip
          stackTop = some (i, s') := by
  obtain ⟨u, pm₁, hpt, hroom₁⟩ := newPageTable_room (n := 12) h.spaces hk hord hroom
  obtain ⟨⟨kstack, code, ustack⟩, pm₂, hblk, hroom₂⟩ := allocBlocks_room hroom₁ hord ho
  obtain ⟨_, _, live', h₂⟩ := h.blocks hpt hblk
  exact ⟨u, pm₁, _, pm₂, hpt, hblk, fun nextPid _ _ _ _ _ hlen htop =>
    loadUser_room (s := { s with nextPid := nextPid, pm := pm₂ }) h₂ List.mem_cons_self (by simp)
      (by simp) hlen htop hord hroom₂⟩

theorem hasRoom_of_room (h : Sound b s live) (hk : s.kernelPml4 ≠ 0) (hord : order < MAX_ORDER)
    (ho : KERNEL_STACK_ORDER ≤ order) (hroom : Room b s.pm.buddy order 19) : s.hasRoom = true := by
  obtain ⟨u, pm₁, blocks, pm₂, hpt, hblk, _⟩ := h.load_room hk hord ho hroom
  rw [hasRoom, hpt, Option.bind_some, hblk]
  rfl

theorem init_room (hk : s.kernelPml4 ≠ 0) : ∃ s₁, s.init = some s₁ := by
  unfold init kernelPml4?
  rw [if_neg hk]
  split <;> exact ⟨_, rfl⟩

theorem newPageTable_nextPid (s : System) (nextPid : Nat) :
    { s with nextPid := nextPid }.newPageTable = s.newPageTable := by
  unfold newPageTable
  rfl

/-- **`spawn_user` returns** when there is room for a process. -/
theorem spawnUser_room {bytes : List UInt8} (h : Sound b s live)
    (hb : b.metadata.length ≤ MAX_SUPPORTED_PAGES) (hk : s.kernelPml4 ≠ 0)
    (hord : order < MAX_ORDER) (ho : KERNEL_STACK_ORDER ≤ order)
    (hroom : Room b s.pm.buddy order 19) (hlen : bytes.length ≤ PAGE_SIZE) :
    ∃ i s', s.spawnUser bytes = some (i, s') := by
  obtain ⟨s₁, hinit⟩ := init_room hk
  obtain ⟨h₁, _, _⟩ := h.init hinit
  obtain ⟨hpm, hk₁, _⟩ := init_same hinit
  obtain ⟨u, pm₁, blocks, pm₂, hpt, hblk, hload⟩ :=
    h₁.load_room (by rw [hk₁]; exact hk) hord ho (by rw [hpm]; exact hroom)
  have hpid := h₁.pid_lt hb
  obtain ⟨stackTop, htop, hbound⟩ := userStackTop_room hpid
  obtain ⟨codeBase, hbase⟩ := userCodeBase_room hpid
  obtain ⟨i, s', he⟩ := hload ((s₁.nextPid + 1) % Word.modulus) s₁.nextPid (userCode bytes)
    codeBase codeBase stackTop (length_userCode hlen) hbound
  refine ⟨i, s', ?_⟩
  rw [spawnUser, hinit, Option.bind_eq_bind, Option.bind_some, if_neg (Nat.not_lt.mpr hlen)]
  simp only [fetchPid]
  -- the counter is not looked at again
  generalize (s₁.nextPid + 1) % Word.modulus = nextPid at he ⊢
  simp only [hbase, htop, newPageTable_nextPid, hpt, spawnUserWith, hblk, Option.bind_eq_bind,
    Option.bind_some]
  exact he

/-- The call up to its page table. -/
theorem spawnElf_run {s₁ : System} {parsed : Elf.ParsedElf} {stackTop : Nat} {pm₁ : PhysMem}
    (hacc : Accepts image parsed) (hinit : s.init = some s₁)
    (htop : userStackTop s₁.nextPid = some stackTop) (hpt : s₁.newPageTable = some (u, pm₁)) :
    s.spawnElf image = { s₁ with nextPid := (s₁.nextPid + 1) % Word.modulus, pm := pm₁ }.spawnElfWith
      s₁.nextPid stackTop u image parsed := by
  have hsize : ¬ (parsed.load.fileSize > PAGE_SIZE ∨ parsed.load.memSize > PAGE_SIZE) := by
    have hfile := hacc.fileSize
    have hmem := hacc.memSize
    omega
  rw [spawnElf, hinit, Option.bind_eq_bind, Option.bind_some, hacc.parse]
  simp only [spawnParsed, if_neg hsize, fetchPid, Option.bind_eq_bind, Option.bind_some]
  generalize (s₁.nextPid + 1) % Word.modulus = nextPid
  simp only [htop, newPageTable_nextPid, hpt, Option.bind_some]

/-- **`spawn_elf` loads an image** that it accepts when there is room for a process. -/
theorem spawnElf_room {parsed : Elf.ParsedElf} (h : Sound b s live)
    (hb : b.metadata.length ≤ MAX_SUPPORTED_PAGES) (hk : s.kernelPml4 ≠ 0)
    (hord : order < MAX_ORDER) (ho : KERNEL_STACK_ORDER ≤ order)
    (hroom : Room b s.pm.buddy order 19) (hacc : Accepts image parsed) :
    ∃ i s', s.spawnElf image = some (.ok i, s') := by
  obtain ⟨s₁, hinit⟩ := init_room hk
  obtain ⟨h₁, _, _⟩ := h.init hinit
  obtain ⟨hpm, hk₁, _⟩ := init_same hinit
  obtain ⟨u, pm₁, blocks, pm₂, hpt, hblk, hload⟩ :=
    h₁.load_room (by rw [hk₁]; exact hk) hord ho (by rw [hpm]; exact hroom)
  obtain ⟨stackTop, htop, hbound⟩ := userStackTop_room (h₁.pid_lt hb)
  obtain ⟨i, s', he⟩ := hload ((s₁.nextPid + 1) % Word.modulus) s₁.nextPid
    ((image.drop parsed.load.offset).take parsed.load.fileSize) parsed.load.virtAddr parsed.entry
    stackTop ((List.length_take_le _ _).trans hacc.fileSize) hbound
  refine ⟨i, s', ?_⟩
  rw [spawnElf_run hacc hinit htop hpt]
  simp only [spawnElfWith, hblk, Option.bind_eq_bind, Option.bind_some, he, Option.map_some]

/-- **`spawn_elf` answers `NoMemory`** when there are frames for the page table and no run of four
pages for the kernel stack. -/
theorem spawnElf_noMemory {parsed : Elf.ParsedElf} (h : Sound b s live)
    (hb : b.metadata.length ≤ MAX_SUPPORTED_PAGES) (hk : s.kernelPml4 ≠ 0)
    (hord : order < MAX_ORDER) (hroom : Room b s.pm.buddy order 7)
    (hnone : ∀ q, ¬ FreeRun s.pm.buddy KERNEL_STACK_ORDER q) (hacc : Accepts image parsed) :
    ∃ s', s.spawnElf image = some (.error .NoMemory, s') := by
  obtain ⟨s₁, hinit⟩ := init_room hk
  obtain ⟨h₁, _, _⟩ := h.init hinit
  obtain ⟨hpm, hk₁, _⟩ := init_same hinit
  obtain ⟨u, pm₁, hpt, hroom₁⟩ := newPageTable_room (n := 0) h₁.spaces (by rw [hk₁]; exact hk) hord
    (by rw [hpm]; exact hroom)
  obtain ⟨stackTop, htop, _⟩ := userStackTop_room (h₁.pid_lt hb)
  obtain ⟨new, _, _, h₂, _⟩ := newPageTable_spec h₁.spaces hpt
  obtain ⟨_, hfree⟩ := h₁.spaces.tables.ledger.taken h₂.tables.ledger
  obtain ⟨L, hI⟩ : ∃ L, Inv pm₁.buddy L := h₂.tables.ledger.inv
  obtain ⟨answer, a, he, hiff, _⟩ := allocateWhere_exact hI hroom₁.coalesced
    (show KERNEL_STACK_ORDER < MAX_ORDER by decide) (fun _ => true) fun _ _ _ _ => rfl
  cases answer with
  | some addr =>
    obtain ⟨q, ⟨hd, hrun⟩, _⟩ := hiff.mp rfl
    refine absurd ⟨hd, fun x hge hlt => ?_⟩ (hnone q)
    rw [← hpm]
    exact ((hfree x).mp (hrun x hge hlt)).1
  | none =>
    have hblk : allocBlocks pm₁ = some (none, { pm₁ with buddy := a }) := by
      simp only [allocBlocks, allocBlock, allocate, he, Option.map_some, Option.bind_eq_bind,
        Option.bind_some]
    rw [spawnElf_run hacc hinit htop hpt]
    simp only [spawnElfWith, hblk, Option.bind_eq_bind, Option.bind_some]
    exact ⟨_, rfl⟩

end System

end Zeronix
