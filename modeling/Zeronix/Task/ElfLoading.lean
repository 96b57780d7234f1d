import Zeronix.Mem.DataBytes
import Zeronix.Task.Context
import Zeronix.Task.UserMemory
import Zeronix.User.ElfProfiles

/-!
# The program in its process

What `spawn_elf` leaves for a program that was loaded: the bytes of its code page, the pages of
its table and the words of its trap frame (`Sound.spawnElf_ok`).

The file says where the segment goes, and the two sides of the loader do not agree on it.  The
bytes are copied to the start of a frame, and the frame is mapped at the page of the load
address; so the segment is where the file says if the address starts a page, and otherwise only
if it is all zero (`spawnElf_segment`).  And the program starts at the entry of the file, which
names the program, while the page is mapped at the load address (`spawnElf_entry`).
-/

namespace Zeronix

open Radix BuddyAllocator Session Mapper Page

/-! ### What the parser accepts -/

namespace Elf

theorem readProgramHeader_load {image : List UInt8} {offset : Nat} {load : LoadSegment}
    (hlen : offset + PROGRAM_HEADER_SIZE ≤ image.length)
    (h : readProgramHeader image offset = .ok (some load)) :
    load.offset + load.fileSize ≤ image.length ∧ load.fileSize ≤ load.memSize := by
  rw [readProgramHeader_eq hlen] at h
  split at h
  · simp at h
  · split at h
    · simp at h
    · rename_i stop hstop
      obtain ⟨_, rfl⟩ := Word.add_eq_some.mp hstop
      split_ifs at h with h₁ h₂
      obtain rfl := Option.some.inj (Except.ok.inj h)
      omega

theorem findLoad_load {image : List UInt8} {phoff phentsize : Nat} {load : LoadSegment} (n : Nat) :
    ∀ {index}, findLoad image phoff phentsize index n = some (.ok (some load)) →
      load.offset + load.fileSize ≤ image.length ∧ load.fileSize ≤ load.memSize := by
  induction n with
  | zero =>
    intro index h
    simp [findLoad] at h
  | succ n ih =>
    intro index h
    simp only [findLoad, Option.bind_eq_bind, Option.bind_eq_some_iff] at h
    obtain ⟨offset, _, stop, hstop, h⟩ := h
    obtain ⟨_, rfl⟩ := Word.add_eq_some.mp hstop
    split at h
    · simp at h
    · split at h
      · simp at h
      · exact ih h
      · rename_i hread
        obtain rfl := Option.some.inj (Except.ok.inj (Option.some.inj h))
        exact readProgramHeader_load (by omega) hread

theorem parse_spec {image : List UInt8} {parsed : ParsedElf} (h : parse image = some (.ok parsed)) :
    parsed.load.offset + parsed.load.fileSize ≤ image.length ∧
      parsed.load.fileSize ≤ parsed.load.memSize ∧
      ∃ id, 1 ≤ id ∧ id ≤ 10 ∧ parsed.entry = 0x400000 + id * 0x1000 := by
  unfold parse at h
  split at h
  · simp at h
  · rename_i header hheader
    obtain ⟨hok, hentry, _⟩ := parseHeader_eq_ok.mp hheader
    obtain ⟨found, hfind, h⟩ := Option.map_eq_some_iff.mp h
    split at h
    · simp at h
    · simp at h
    · obtain rfl := Except.ok.inj h
      obtain ⟨hfile, hmem⟩ := findLoad_load _ hfind
      exact ⟨hfile, hmem, _, hok.id_pos, hok.id_le, hentry.trans hok.entry⟩

end Elf

/-- The byte `i` of the segment: from the file, and zero behind what the file has. -/
def Elf.LoadSegment.byteAt (load : Elf.LoadSegment) (image : List UInt8) (i : Nat) : UInt8 :=
  if i < load.fileSize then image.getD (load.offset + i) 0 else 0

theorem Elf.LoadSegment.byteAt_eq (load : Elf.LoadSegment) (image : List UInt8) (i : Nat) :
    ((image.drop load.offset).take load.fileSize).getD i 0 = load.byteAt image i := by
  rw [byteAt, List.getD_eq_getElem?_getD, List.getElem?_take]
  split
  · rw [List.getElem?_drop, List.getD_eq_getElem?_getD]
  · rfl

/-! ### The trap frame -/

namespace TrapFrame

/-- The `rip` of the trap frame at a virtual address of the window at `KERNEL_VMA`. -/
def rip (m : Memory) (trapFrame : Nat) : Nat := m.load (trapFrame - KERNEL_VMA + 8 * 15)

theorem rip_eq {m : Memory} {trapFrame : Nat} {f : Frame}
    (h : Spells m (trapFrame - KERNEL_VMA) f.trapWords) : rip m trapFrame = f.rip.toNat :=
  (Spells.append.mp h).2.1

theorem write_toNat (ws : List UInt64) : ∀ (m : Memory) (a : Nat),
    write m a (ws.map UInt64.toNat) = storeWords m a ws := by
  induction ws with
  | nil => exact fun _ _ => rfl
  | cons w ws ih => exact fun _ _ => ih _ _

end TrapFrame

namespace System

variable {s₀ s s' : System} {p : Proc} {b : BuddyAllocator} {live : List (Nat × Nat)}
variable {image : List UInt8} {i : Nat} {metadata : List PageInfo} {memMap : List MemoryArea}
variable {reserved : List (Nat × Nat)} {mem : Memory} {l : BootLayout} {ring0StackTop : Nat}

/-! ### The code page -/

theorem writeCode_self {pm pm' : PhysMem} {code j : Nat} {bytes : List UInt8} (hj : j < PAGE_SIZE)
    (h : writeCode pm code bytes = some pm') : pm'.mem.bytes (code + j) = bytes.getD j 0 := by
  obtain ⟨_, _, rfl⟩ := Option.map_eq_some_iff.mp h
  simp only [Memory.copy, Memory.fill]
  by_cases hlt : j < bytes.length
  · rw [if_pos ⟨by omega, by omega⟩, Nat.add_sub_cancel_left]
  · rw [if_neg (by omega), if_pos ⟨by omega, by omega⟩, List.getD_eq_default _ _ (by omega)]

theorem trapFrame_at {kstack top tf : Nat} (htop : kstackTop kstack = some top)
    (htf : Word.sub top TrapFrame.SIZE = some tf) :
    tf - KERNEL_VMA = kstack + KERNEL_STACK_SIZE - TrapFrame.SIZE := by
  obtain ⟨virt, hvirt, htop⟩ := Option.bind_eq_some_iff.mp htop
  have hvirt := physToVirt_eq_some hvirt
  have htop := (Word.add_eq_some.mp htop).2
  have htf := (Word.sub_eq_some.mp htf).2
  have hsize : TrapFrame.SIZE ≤ KERNEL_STACK_SIZE := by decide
  omega

theorem code_off_kstack {k code kstack x : Nat} {R : List Nat} {data : List (Nat × Nat)}
    {pm : PhysMem} (h : Spaces k R data b live pm) (hk : (kstack, KERNEL_STACK_ORDER) ∈ data)
    (hc : (code, 0) ∈ data) (hx : InBlock code 0 (x / PAGE_SIZE)) :
    x < kstack ∨ kstack + KERNEL_STACK_SIZE ≤ x := by
  obtain ⟨q, rfl, _⟩ := h.tables.ledger.live_spec (h.held _ hk)
  by_contra hn
  have hsize : KERNEL_STACK_SIZE = 16384 := by decide
  have hin : InBlock (q * PAGE_SIZE) KERNEL_STACK_ORDER (x / PAGE_SIZE) := by
    unfold InBlock PAGE_SIZE KERNEL_STACK_ORDER at *
    omega
  obtain ⟨_, horder⟩ := h.tables.ledger.live_unique (h.held _ hc) (h.held _ hk) hx hin
  exact absurd horder (by decide)

/-- **What is in memory when a process was loaded**: its program in its code page, and its trap
frame. -/
theorem loadUser_bytes {R : List Nat} {data : List (Nat × Nat)}
    {u pid kstack code ustack virt rip stackTop : Nat} {bytes : List UInt8}
    (h : Spaces s.kernelPml4 R data b live s.pm) (hu : u ∈ R) (huk : u ≠ s.kernelPml4)
    (hk : (kstack, KERNEL_STACK_ORDER) ∈ data) (hc : (code, 0) ∈ data)
    (hlen : bytes.length ≤ PAGE_SIZE) (hrip : rip < 2 ^ 64) (htop : stackTop < 2 ^ 64)
    (he : s.loadUser pid u (kstack, code, ustack) bytes virt rip stackTop = some (i, s')) :
    ∃ p tf, s'.procs[i]? = some p ∧ p.pid = pid ∧ p.pagetable = u ∧ p.userCodePhys = some code ∧
      p.trapFrame = some tf ∧ Spells s'.pm.mem (tf - KERNEL_VMA)
        (TrapFrame.newUserFrame (.ofNat rip) (.ofNat stackTop)).trapWords ∧
      ∀ j < PAGE_SIZE, s'.pm.mem.bytes (code + j) = bytes.getD j 0 := by
  obtain ⟨pm₁, pm₂, pm₃, top, tf, he₁, he₂, he₃, hkstack, htf, hs'⟩ := loadUser_cases he
  obtain ⟨hp, hpm⟩ := addProc_spec hs'
  have hmem : s'.pm.mem = TrapFrame.write pm₃.mem (kstack + KERNEL_STACK_SIZE - TrapFrame.SIZE)
      (TrapFrame.newUser rip stackTop) := by rw [hpm]
  refine ⟨_, tf, hp, rfl, rfl, rfl, rfl, ?_, fun j hj => ?_⟩
  · have hwords := TrapFrame.newUser_eq (.ofNat rip) (.ofNat stackTop)
    rw [UInt64.toNat_ofNat_of_lt' hrip, UInt64.toNat_ofNat_of_lt' htop] at hwords
    rw [trapFrame_at hkstack htf, hmem, hwords, TrapFrame.write_toNat]
    exact spells_storeWords _ _ _
  · obtain ⟨q, rfl, _⟩ := h.tables.ledger.live_spec (h.held _ hc)
    have hin : InBlock (q * PAGE_SIZE) 0 ((q * PAGE_SIZE + j) / PAGE_SIZE) := by
      unfold InBlock PAGE_SIZE at *
      omega
    have hoff := code_off_kstack h hk hc hin
    have hsize : KERNEL_STACK_SIZE = 16384 := by decide
    have hwords : (TrapFrame.newUser rip stackTop).length = 20 := rfl
    rw [hmem, trapFrame_bytes _ (by rw [hwords, TrapFrame.SIZE]; omega),
      (Spaces.writeCode h hc hlen he₁).1.mapAll_bytes hu huk ⟨_, hc, hin⟩ _ (userCalls_run he₂ he₃),
      writeCode_self hj he₁]

/-- What `spawn_elf` leaves of a program that it loaded. -/
structure ElfLoaded (s₀ s : System) (p : Proc) (image : List UInt8) (parsed : Elf.ParsedElf)
    (code stackTop ustack : Nat) : Prop where
  accepts : Accepts image parsed
  pidLe : p.pid ≤ 2 ^ 17 + 1
  top : userStackTop p.pid = some stackTop
  userCodePhys : p.userCodePhys = some code
  frame : code &&& ADDR_MASK = code
  low : ∀ v, ¬ High v → walk s.pm.mem p.pagetable v = (lastCall (bootCalls ++
    userCalls parsed.load.virtAddr code stackTop ustack) v).map Call.translation
  opened : High parsed.load.virtAddr →
    walk s.pm.mem p.pagetable parsed.load.virtAddr = some ⟨code, true, false, false⟩
  blank : ∀ v, High v → pageBits parsed.load.virtAddr ≠ pageBits v →
    walk s₀.pm.mem s₀.kernelPml4 v = none → walk s.pm.mem p.pagetable v = none
  bytes : ∀ j < PAGE_SIZE, s.pm.mem.bytes (code + j) = parsed.load.byteAt image j
  frameWords : ∃ tf, p.trapFrame = some tf ∧ Spells s.pm.mem (tf - KERNEL_VMA)
    (TrapFrame.newUserFrame (.ofNat parsed.entry) (.ofNat stackTop)).trapWords

theorem ElfLoaded.rip {parsed : Elf.ParsedElf} {code stackTop ustack : Nat}
    (h : ElfLoaded s₀ s p image parsed code stackTop ustack) :
    ∃ tf, p.trapFrame = some tf ∧ TrapFrame.rip s.pm.mem tf = parsed.entry := by
  obtain ⟨tf, htf, hwords⟩ := h.frameWords
  obtain ⟨_, _, id, _, hid, hentry⟩ := Elf.parse_spec h.accepts.parse
  have hsize : parsed.entry < 2 ^ 64 := by omega
  exact ⟨tf, htf, (TrapFrame.rip_eq hwords).trans (UInt64.toNat_ofNat_of_lt' hsize)⟩

/-- **A program that was loaded.** -/
theorem Sound.spawnElf_ok (h : Sound b s live) (hb : b.metadata.length ≤ MAX_SUPPORTED_PAGES)
    (he : s.spawnElf image = some (.ok i, s')) : ∃ parsed p code stackTop ustack,
      s'.procs[i]? = some p ∧ p.pid = s.nextPid ∧
      ElfLoaded s s' p image parsed code stackTop ustack := by
  obtain ⟨s₁, hinit, hcases⟩ := spawnElf_cases he
  have h₀ := (h.init hinit).1
  obtain ⟨hpm, hk, hnext⟩ := init_same hinit
  rcases hcases with ⟨_, ⟨e, herr⟩, _⟩ | ⟨parsed, stackTop, u, pm₁, blocks, pm₂, hparse, hfile, hmem,
    htop, hpt, hblk, hcases⟩
  · simp at herr
  rcases hcases with ⟨_, herr, _⟩ | ⟨⟨kstack, code, ustack⟩, i', rfl, hok, hload⟩
  · simp at herr
  obtain rfl := Except.ok.inj hok
  have hlen : ((image.drop parsed.load.offset).take parsed.load.fileSize).length ≤ PAGE_SIZE :=
    (List.length_take_le _ _).trans hfile
  obtain ⟨new, _, h', hl, _⟩ := h₀.load hb hpt hblk hlen (stackTop_lt htop) hload
  -- the same blocks again, for the bytes in them
  obtain ⟨huk, _, live', h₂⟩ := h₀.blocks hpt hblk
  obtain ⟨_, _, id, hid, hid', hentry⟩ := Elf.parse_spec hparse
  obtain ⟨p, tf, hp, hpid, rfl, hcode, htf, hwords, hbytes⟩ := loadUser_bytes
    (s := { s₁ with nextPid := (s₁.nextPid + 1) % Word.modulus, pm := pm₂ }) h₂ List.mem_cons_self huk
    (by simp) (by simp) hlen (by omega) ((stackTop_lt htop).trans (by decide)) hload
  have hframe : code &&& ADDR_MASK = code := by
    obtain ⟨q, rfl, _, hle⟩ := h₂.tables.ledger.live_spec (h₂.held (code, 0) (by simp))
    have hmax : MAX_SUPPORTED_PAGES = 2 ^ 17 := by decide
    rw [PageTableEntry.and_mask_eq (by unfold PAGE_SIZE; omega), PAGE_SIZE, Nat.mul_div_cancel _ (by decide)]
  refine ⟨parsed, p, code, stackTop, ustack, hp, hpid.trans hnext, ⟨hparse, hfile, hmem⟩, ?_, ?_, hcode,
    hframe, hl.low, fun hv => ?_, fun v hv hne hwalk => ?_, fun j hj => ?_, tf, htf, hwords⟩
  · rw [hpid]
    exact h₀.pid_lt hb
  · rw [hpid]
    exact htop
  · rw [hl.opened hv, hframe]
  · exact hl.blank v hv hne (by rw [hpm, hk, hwalk])
  · rw [hbytes j hj, Elf.LoadSegment.byteAt_eq]

/-! ### What the program finds -/

/-- The address lies on the stack of the process. -/
def OnStack (pid v : Nat) : Prop :=
  ∃ top, userStackTop pid = some top ∧ top - USER_STACK_SIZE ≤ v ∧ v < top

theorem not_onStack_of_lt {pid v : Nat} (hpid : pid ≤ 2 ^ 17 + 1) (hv : v < 2 ^ 46) :
    ¬ OnStack pid v := by
  rintro ⟨top, htop, hle, _⟩
  have heq := userStackTop_eq htop
  have hsize : USER_STACK_SIZE = 8192 := by decide
  simp only [USER_SLOT_SIZE, USER_STACK_TOP] at heq
  omega

theorem onStack_of_pageBits {pid stackTop v n : Nat} (hpid : pid ≤ 2 ^ 17 + 1)
    (htop : userStackTop pid = some stackTop) (hv : v < 2 ^ 47) (hn : n = 1 ∨ n = 2)
    (h : pageBits (stackTop - n * PAGE_SIZE) = pageBits v) : OnStack pid v := by
  have heq := userStackTop_eq htop
  have hsize : USER_STACK_SIZE = 8192 := by decide
  refine ⟨stackTop, htop, ?_⟩
  simp only [USER_SLOT_SIZE, USER_STACK_TOP] at heq
  unfold pageBits PAGE_SIZE at h
  omega

/-- **What is open to a program off its stack** is the page of its load address. -/
theorem ElfLoaded.open_iff {parsed : Elf.ParsedElf} {code stackTop ustack v : Nat} {t : Translation}
    (h : ElfLoaded s₀ s p image parsed code stackTop ustack) (hv : v < 2 ^ 47)
    (hoff : ¬ OnStack p.pid v) :
    Open s p v t ↔ pageBits parsed.load.virtAddr = pageBits v ∧ t = ⟨code, true, false, false⟩ := by
  have hroom : 2 * PAGE_SIZE ≤ stackTop := by
    have hle := h.pidLe
    have heq := userStackTop_eq h.top
    simp only [USER_SLOT_SIZE, USER_STACK_TOP] at heq
    unfold PAGE_SIZE
    omega
  have hfirst : pageBits (stackTop - PAGE_SIZE) ≠ pageBits v := fun heq =>
    hoff (onStack_of_pageBits h.pidLe h.top hv (Or.inl rfl) (by rw [Nat.one_mul]; exact heq))
  have hsecond : pageBits (stackTop - 2 * PAGE_SIZE) ≠ pageBits v := fun heq =>
    hoff (onStack_of_pageBits h.pidLe h.top hv (Or.inr rfl) heq)
  rw [Open, h.low v (not_high_of_lt hv), lastCall_append, Option.map_or, lastCall_userCalls v hroom,
    if_neg hfirst, if_neg hsecond, h.frame]
  by_cases hpage : pageBits parsed.load.virtAddr = pageBits v
  · rw [if_pos hpage, Option.some_or, Option.some.injEq]
    simp only [hpage, true_and, eq_comm (a := t)]
    exact and_iff_left_of_imp fun ht => by rw [← ht]
  · rw [if_neg hpage, Option.none_or]
    simp only [hpage, false_and, iff_false, not_and]
    intro ht
    obtain ⟨c, hc, rfl⟩ := Option.map_eq_some_iff.mp ht
    rw [lastCall_bootCalls_user hc]
    simp

/-- The address is canonical, off the stack of the process, and in the upper half one at which the
kernel's page table shows nothing. -/
def ClearAt (s : System) (pid v : Nat) : Prop :=
  (v < 2 ^ 47 ∧ ¬ OnStack pid v) ∨
    (2 ^ 64 - 2 ^ 47 ≤ v ∧ v < 2 ^ 64 ∧ walk s.pm.mem s.kernelPml4 v = none)

/-- The segment lies at such addresses. -/
def Clear (s : System) (pid : Nat) (load : Elf.LoadSegment) : Prop :=
  ∀ i < load.memSize, ClearAt s pid (load.virtAddr + i)

/-- The load address starts a page, or the segment is all zero and ends in its first page. -/
def InPlace (image : List UInt8) (load : Elf.LoadSegment) : Prop :=
  load.virtAddr % PAGE_SIZE = 0 ∨ (load.virtAddr % PAGE_SIZE + load.memSize ≤ PAGE_SIZE ∧
    ∀ i < load.fileSize, image.getD (load.offset + i) 0 = 0)

/-- The `rip` of the trap frame lies in the segment, on the code page, open and executable. -/
def StartsInside (s : System) (p : Proc) (load : Elf.LoadSegment) : Prop :=
  ∃ tf t, p.trapFrame = some tf ∧ Open s p (TrapFrame.rip s.pm.mem tf) t ∧ t.nx = false ∧
    p.userCodePhys = some t.frame ∧ load.virtAddr ≤ TrapFrame.rip s.pm.mem tf ∧
    TrapFrame.rip s.pm.mem tf < load.virtAddr + load.memSize

/-- **Where the program starts.**  It starts in its segment exactly when the load address is the
entry, and the segment is not empty. -/
theorem spawnElf_entry (hlen : metadata.length ≤ MAX_SUPPORTED_PAGES) (hareas : DisjointAreas memMap)
    (hboot : boot metadata memMap reserved mem l ring0StackTop = some s₀) (hrun : LowSteps s₀ s)
    (he : s.spawnElf image = some (.ok i, s')) : ∃ parsed p, Accepts image parsed ∧
      s'.procs[i]? = some p ∧ (StartsInside s' p parsed.load ↔
        parsed.load.virtAddr = parsed.entry ∧ 0 < parsed.load.memSize) := by
  obtain ⟨b, live, h, hb⟩ := sound_of_run hlen hareas hboot (steps_of_low hrun)
  obtain ⟨parsed, p, code, stackTop, ustack, hp, _, hl⟩ := h.spawnElf_ok hb he
  obtain ⟨_, _, id, _, hid, hentry⟩ := Elf.parse_spec hl.accepts.parse
  have hsize := hl.accepts.memSize
  have hopen : ∀ {t}, Open s' p parsed.entry t ↔
      pageBits parsed.load.virtAddr = pageBits parsed.entry ∧ t = ⟨code, true, false, false⟩ :=
    hl.open_iff (by omega) (not_onStack_of_lt hl.pidLe (by omega))
  obtain ⟨tf, htf, hrip⟩ := hl.rip
  refine ⟨parsed, p, hl.accepts, hp, ?_, ?_⟩
  · rintro ⟨tf', t, htf', ht, _, _, hle, hlt⟩
    obtain rfl := Option.some.inj (htf.symm.trans htf')
    rw [hrip] at ht hle hlt
    have hpage := (hopen.mp ht).1
    unfold pageBits PAGE_SIZE at *
    omega
  · rintro ⟨hvirt, hpos⟩
    refine ⟨tf, ⟨code, true, false, false⟩, htf, ?_, rfl, hl.userCodePhys, ?_, ?_⟩
    · rw [hrip]
      exact hopen.mpr ⟨by rw [hvirt], rfl⟩
    · rw [hrip]
      omega
    · rw [hrip]
      omega

/-- The built-in `echo` starts in its segment. -/
theorem spawnElf_entry_echo : ∃ s₀ s s' p load, machineBoot = some s₀ ∧ LowSteps s₀ s ∧
    s.chunks ≠ [] ∧ s.spawnElf (Elf.buildProgramImage .Echo) = some (.ok 1, s') ∧
    s'.procs[1]? = some p ∧
    load = { offset := 120, virtAddr := 0x408000, fileSize := 54, memSize := 54, flags := 5 } ∧
    StartsInside s' p load := by
  have hacc := accepts_buildProgramImage .Echo
  obtain ⟨s₀, s, s', hboot, hrun, hheap, _, he⟩ := machine_spawnElf hacc
  obtain ⟨parsed, p, ha, hp, hiff⟩ := spawnElf_entry machine_max machine_disjoint hboot hrun he
  obtain rfl := hacc.unique ha
  exact ⟨s₀, s, s', p, _, hboot, hrun, hheap, he, hp, rfl, hiff.mpr ⟨rfl, by decide⟩⟩

/-- The built-in `echo` with the load address of `sleep`. -/
def movedImage : List UInt8 := Elf.writeU64 (Elf.buildProgramImage .Echo) 80 0x409000

/-- It starts on the page before its segment. -/
theorem spawnElf_entry_moved : ∃ s₀ s s' p parsed, machineBoot = some s₀ ∧ LowSteps s₀ s ∧
    s.chunks ≠ [] ∧ s.spawnElf movedImage = some (.ok 1, s') ∧ s'.procs[1]? = some p ∧
    Accepts movedImage parsed ∧ ¬ StartsInside s' p parsed.load := by
  have hacc : Accepts movedImage { entry := 0x408000, program := .Echo, load := {
      offset := 120, virtAddr := 0x409000, fileSize := 54, memSize := 54, flags := 5 } } :=
    ⟨by decide +kernel, by decide, by decide⟩
  obtain ⟨s₀, s, s', hboot, hrun, hheap, _, he⟩ := machine_spawnElf hacc
  obtain ⟨b, live, h, hb⟩ := sound_of_run machine_max machine_disjoint hboot (steps_of_low hrun)
  obtain ⟨parsed, p, code, stackTop, ustack, hp, _, hl⟩ := h.spawnElf_ok hb he
  obtain rfl := hacc.unique hl.accepts
  refine ⟨s₀, s, s', p, _, hboot, hrun, hheap, he, hp, hacc, ?_⟩
  rintro ⟨tf, t, htf, _, _, _, hle, _⟩
  obtain ⟨tf', htf', hrip⟩ := hl.rip
  obtain rfl := Option.some.inj (htf'.symm.trans htf)
  rw [hrip] at hle
  exact absurd hle (by decide)

end System

end Zeronix
