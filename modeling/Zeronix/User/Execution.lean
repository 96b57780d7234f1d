import Zeronix.Task.ElfLoading
import Zeronix.User.MachineCode

/-!
# Programs that were spawned

The loader and the machine code together: the CPU with the registers of the trap frame of a new
process, and with the memory that its page table shows to Ring 3, does what the program is there
for.  `spawn_elf` is given the file that is installed for a built-in program, `spawn_user`
the smoke program of `kernel_main`.
-/

namespace Zeronix

open Radix BuddyAllocator Session Mapper Page SyscallEntry

namespace System

variable {metadata : List PageInfo} {memMap : List MemoryArea} {reserved : List (Nat × Nat)}
  {mem : Memory} {l : BootLayout} {ring0StackTop : Nat} {s₀ s s' : System} {b : BuddyAllocator}
  {live : List (Nat × Nat)} {i : Nat} {p : Proc}

/-- The CPU is about to run the process for the first time, with the registers that `__enter_user`
takes from its trap frame. -/
structure Starts (s : System) (p : Proc) (c : Core) : Prop where
  memory : ∀ v t, Open s p v t → c.mem.bytes v = s.pm.mem.bytes (t.frame + v % PAGE_SIZE)
  frame : ∃ tf, p.trapFrame = some tf ∧ Spells s.pm.mem (tf - KERNEL_VMA) c.frame.trapWords

theorem Starts.frame_eq {c : Core} {f : Frame} (h : Starts s p c)
    (hf : ∃ tf, p.trapFrame = some tf ∧ Spells s.pm.mem (tf - KERNEL_VMA) f.trapWords) :
    c.frame = f := by
  obtain ⟨tf, htf, hwords⟩ := hf
  obtain ⟨tf', htf', hwords'⟩ := h.frame
  obtain rfl := Option.some.inj (htf.symm.trans htf')
  exact Frame.trapWords_inj (hwords'.unique hwords rfl)

/-- The trap frame of a new user process puts the CPU into user mode. -/
theorem inUserMode_newUser {c : Core} {rip rsp : UInt64}
    (h : c.frame = TrapFrame.newUserFrame rip rsp) : InUserMode c := by
  have hflags : c.rflags = 0x202 := congrArg Frame.rflags h
  refine ⟨congrArg Frame.cs h, congrArg Frame.ss h, ?_, ?_, ?_⟩ <;> rw [hflags] <;> decide

theorem Starts.codeAt {c : Core} {base code : Nat} {bytes : List UInt8} (h : Starts s p c)
    (hbase : c.rip.toNat = base)
    (hpage : base % PAGE_SIZE = 0) (hlen : bytes.length ≤ PAGE_SIZE) (hlow : base < 2 ^ 46)
    (hopen : ∀ v < 2 ^ 46, pageBits base = pageBits v → Open s p v ⟨code, true, false, false⟩)
    (hbytes : ∀ j < bytes.length, s.pm.mem.bytes (code + j) = bytes.getD j 0) :
    CodeAt c.mem c.rip bytes := by
  unfold PAGE_SIZE at hlen
  refine ⟨by omega, fun k hk => ?_⟩
  have hsame : pageBits base = pageBits (base + k) := by
    unfold pageBits PAGE_SIZE at *
    omega
  have hoff : (base + k) % PAGE_SIZE = k := by
    unfold PAGE_SIZE at *
    omega
  have hv : base + k < 2 ^ 46 := by
    unfold PAGE_SIZE at *
    omega
  rw [hbase, h.memory _ _ (hopen _ hv hsame)]
  simp only
  rw [hoff, hbytes k hk]

/-! ### Files -/

theorem drop_buildProgramImage (program : Elf.ProgramId) :
    (Elf.buildProgramImage program).drop 120 = Elf.userProgramCode program := by
  cases program <;> decide +kernel

theorem spawned_program_code (hlen : metadata.length ≤ MAX_SUPPORTED_PAGES)
    (hareas : DisjointAreas memMap)
    (hboot : boot metadata memMap reserved mem l ring0StackTop = some s₀) (hrun : LowSteps s₀ s)
    {program : Elf.ProgramId}
    (he : s.spawnElf (Elf.buildProgramImage program) = some (.ok i, s')) :
    ∃ p, ∃ f : Frame, s'.procs[i]? = some p ∧
      (∃ tf, p.trapFrame = some tf ∧ Spells s'.pm.mem (tf - KERNEL_VMA) f.trapWords) ∧
      ∀ c, Starts s' p c → c.rip = .ofNat program.entry ∧ InUserMode c ∧
        CodeAt c.mem c.rip (Elf.userProgramCode program) := by
  obtain ⟨b, live, h, hb⟩ := sound_of_run hlen hareas hboot (steps_of_low hrun)
  obtain ⟨parsed, p, code, stackTop, ustack, hp, _, hl⟩ := h.spawnElf_ok hb he
  obtain rfl := (accepts_buildProgramImage program).unique hl.accepts
  refine ⟨p, _, hp, hl.frameWords, fun c hstart => ?_⟩
  have hframe := hstart.frame_eq hl.frameWords
  have hrip : c.rip = .ofNat program.entry := congrArg Frame.rip hframe
  have hshort := length_userProgramCode program
  have hentry : program.entry % PAGE_SIZE = 0 ∧ program.entry < 2 ^ 46 := by
    cases program <;> decide
  have hopen : ∀ v < 2 ^ 46, pageBits program.entry = pageBits v →
      Open s' p v ⟨code, true, false, false⟩ := fun v hv hpage =>
    (hl.open_iff (by omega) (not_onStack_of_lt hl.pidLe hv)).mpr ⟨hpage, rfl⟩
  have hbytes : ∀ j < (Elf.userProgramCode program).length,
      s'.pm.mem.bytes (code + j) = (Elf.userProgramCode program).getD j 0 := by
    intro j hj
    rw [hl.bytes j (by unfold PAGE_SIZE; omega), Elf.LoadSegment.byteAt, if_pos hj,
      ← drop_buildProgramImage, List.getD_eq_getElem?_getD, List.getD_eq_getElem?_getD,
      List.getElem?_drop]
  have hsize : program.entry < 2 ^ 64 := by omega
  have hbase : c.rip.toNat = program.entry := by rw [hrip, UInt64.toNat_ofNat_of_lt' hsize]
  exact ⟨hrip, inUserMode_newUser hframe,
    hstart.codeAt hbase hentry.1 (by unfold PAGE_SIZE; omega) hentry.2 hopen hbytes⟩

/-- **A built-in program that was spawned** makes its two requests, whatever it is answered, and
no others. -/
theorem spawned_program_requests (hlen : metadata.length ≤ MAX_SUPPORTED_PAGES)
    (hareas : DisjointAreas memMap)
    (hboot : boot metadata memMap reserved mem l ring0StackTop = some s₀) (hrun : LowSteps s₀ s)
    {program : Elf.ProgramId}
    (he : s.spawnElf (Elf.buildProgramImage program) = some (.ok i, s')) :
    ∃ p, s'.procs[i]? = some p ∧ ∀ (sym : SyscallSymbols) (m : Msrs) (dispatch : Core → Core → Prop)
      (c : Core), Starts s' p c → Serves sym dispatch c.rip (Elf.userProgramCode program).length →
      ∀ n rs c', UserRun (kernelCall sym m dispatch) c n rs c' →
        User.ProgramDid program (.ofNat program.entry) n rs c' := by
  obtain ⟨p, f, hp, _, hcode⟩ := spawned_program_code hlen hareas hboot hrun he
  refine ⟨p, hp, fun sym m dispatch c hstart hserves n rs c' hrun => ?_⟩
  obtain ⟨hrip, huser, hload⟩ := hcode c hstart
  rw [← hrip]
  exact User.programDid_of_load hserves hload huser hrun

/-! ### A program on a machine -/

/-- A CPU that is about to run the process, with the registers `f`. -/
def startCore (s : System) (p : Proc) (f : Frame) : Core where
  gpr := f.gpr
  rsp := f.rsp
  rip := f.rip
  cs := f.cs
  rflags := f.rflags
  ss := f.ss
  rsp0 := 0
  mem := {
    bytes := fun v => (walk s.pm.mem p.pagetable v).elim 0 fun t =>
      s.pm.mem.bytes (t.frame + v % PAGE_SIZE)
    stores := [] }

theorem starts_startCore {f : Frame}
    (hf : ∃ tf, p.trapFrame = some tf ∧ Spells s.pm.mem (tf - KERNEL_VMA) f.trapWords) :
    Starts s p (startCore s p f) where
  memory v t ht := by
    simp only [startCore]
    rw [ht.1]
    rfl
  frame := hf

/-- A kernel that answers every call with `0`. -/
def okDispatch (s s' : Core) : Prop := s' = answer 0 s

theorem okDispatch_serves {a : UInt64} {n : Nat} (h : a.toNat + n ≤ 2 ^ 47) :
    Serves sampleSymbols okDispatch a n where
  abi := answer_abi fun _ _ h => ⟨0, h⟩
  stack := by decide
  userRsp := by decide
  lower := h
  code s s' hs k _ := by
    cases hs
    rfl

theorem spawned_program_requests_echo : ∃ s₀ s s' p f rs c', machineBoot = some s₀ ∧
    LowSteps s₀ s ∧ s.chunks ≠ [] ∧
    s.spawnElf (Elf.buildProgramImage .Echo) = some (.ok 1, s') ∧ s'.procs[1]? = some p ∧
    UserRun (kernelCall sampleSymbols (fun _ => 0) okDispatch) (startCore s' p f) 8 rs c' ∧
    User.ProgramDid .Echo 0x408000 8 rs c' := by
  obtain ⟨s₀, s, s', hboot, hsteps, hheap, _, he⟩ := machine_spawnElf (accepts_buildProgramImage .Echo)
  obtain ⟨p, f, hp, hf, hcode⟩ := spawned_program_code machine_max machine_disjoint hboot hsteps he
  obtain ⟨p', hp', hdid⟩ := spawned_program_requests machine_max machine_disjoint hboot hsteps he
  obtain rfl := Option.some.inj (hp.symm.trans hp')
  have hstart := starts_startCore hf
  obtain ⟨hrip, huser, hload⟩ := hcode _ hstart
  have hserves : Serves sampleSymbols okDispatch (startCore s' p f).rip
      (Elf.userProgramCode .Echo).length := by
    rw [hrip]
    exact okDispatch_serves (by decide)
  have hserves' := hserves
  rw [User.userProgramCode_eq] at hload hserves'
  obtain ⟨rs, c', hrun⟩ := exists_run_program (m := fun _ => 0) (User.straight_program .Echo)
    (by decide) hserves' hload huser (fun s => ⟨_, rfl⟩) 8
  exact ⟨s₀, s, s', p, f, rs, c', hboot, hsteps, hheap, he, hp, hrun,
    hdid _ _ _ _ hstart hserves 8 rs c' hrun⟩

/-! ### Code -/

theorem Sound.spawnUser_ok {bytes : List UInt8} (h : Sound b s live)
    (hb : b.metadata.length ≤ MAX_SUPPORTED_PAGES) (he : s.spawnUser bytes = some (i, s')) :
    ∃ p base stackTop code, s'.procs[i]? = some p ∧ userCodeBase s.nextPid = some base ∧
      s.nextPid ≤ 2 ^ 17 + 1 ∧
      (∃ tf, p.trapFrame = some tf ∧ Spells s'.pm.mem (tf - KERNEL_VMA)
        (TrapFrame.newUserFrame (.ofNat base) (.ofNat stackTop)).trapWords) ∧
      (∀ v < 2 ^ 46, pageBits base = pageBits v → Open s' p v ⟨code, true, false, false⟩) ∧
      ∀ j < (userCode bytes).length, s'.pm.mem.bytes (code + j) = (userCode bytes).getD j 0 := by
  obtain ⟨s₁, base, stackTop, u, pm₁, ⟨kstack, code, ustack⟩, pm₂, hinit, hlen, hbase, htop, hpt,
    hblk, hload⟩ := spawnUser_cases he
  have h₀ := (h.init hinit).1
  have hnext := (init_same hinit).2.2
  have hpid := h₀.pid_lt hb
  have hlen' := length_userCode hlen
  obtain ⟨new, _, h', hl, _⟩ := h₀.load hb hpt hblk hlen' (stackTop_lt htop) hload
  -- the same blocks again, for the bytes in them
  obtain ⟨huk, _, live', h₂⟩ := h₀.blocks hpt hblk
  have hlow := codeBase_low hbase hpid
  obtain ⟨p, tf, hp, _, rfl, _, htf, hwords, hbytes⟩ := loadUser_bytes
    (s := { s₁ with nextPid := (s₁.nextPid + 1) % Word.modulus, pm := pm₂ }) h₂ List.mem_cons_self huk
    (by simp) (by simp) hlen' (by omega) ((stackTop_lt htop).trans (by decide)) hload
  have hframe : code &&& ADDR_MASK = code := by
    obtain ⟨q, rfl, _, hle⟩ := h₂.tables.ledger.live_spec (h₂.held (code, 0) (by simp))
    have hmax : MAX_SUPPORTED_PAGES = 2 ^ 17 := by decide
    rw [PageTableEntry.and_mask_eq (by unfold PAGE_SIZE; omega), PAGE_SIZE, Nat.mul_div_cancel _ (by decide)]
  rw [hnext] at hbase hpid
  refine ⟨p, base, stackTop, code, hp, hbase, hpid, ⟨tf, htf, hwords⟩, fun v hv hpage => ?_,
    fun j hj => ?_⟩
  · have htop' := userStackTop_eq htop
    rw [hnext] at htop'
    simp only [USER_SLOT_SIZE, USER_STACK_TOP] at htop'
    have hroom : 2 * PAGE_SIZE ≤ stackTop := by
      unfold PAGE_SIZE
      omega
    -- the stack is in the upper half of user space
    have hoff : pageBits (stackTop - PAGE_SIZE) ≠ pageBits v ∧
        pageBits (stackTop - 2 * PAGE_SIZE) ≠ pageBits v := by
      unfold pageBits PAGE_SIZE
      omega
    rw [Open, hl.low v (not_high_of_lt (by omega)), lastCall_append, Option.map_or,
      lastCall_userCalls v hroom, if_neg hoff.1, if_neg hoff.2, if_pos hpage, hframe]
    exact ⟨rfl, rfl⟩
  · exact hbytes j (by omega)

theorem spawned_smoke_code (hlen : metadata.length ≤ MAX_SUPPORTED_PAGES)
    (hareas : DisjointAreas memMap)
    (hboot : boot metadata memMap reserved mem l ring0StackTop = some s₀) (hrun : LowSteps s₀ s)
    (he : s.spawnUser User.syscallWriteSmokeProgram = some (i, s')) :
    ∃ p, ∃ f : Frame, ∃ base, s'.procs[i]? = some p ∧
      (∃ tf, p.trapFrame = some tf ∧ Spells s'.pm.mem (tf - KERNEL_VMA) f.trapWords) ∧
      userCodeBase s.nextPid = some base ∧ ∀ c, Starts s' p c →
        c.rip = .ofNat base ∧ InUserMode c ∧
          CodeAt c.mem c.rip User.syscallWriteSmokeProgram := by
  obtain ⟨b, live, h, hb⟩ := sound_of_run hlen hareas hboot (steps_of_low hrun)
  obtain ⟨p, base, stackTop, code, hp, hbase, hpid, hwords, hopen, hbytes⟩ := h.spawnUser_ok hb he
  refine ⟨p, _, base, hp, hwords, hbase, fun c hstart => ?_⟩
  have hframe := hstart.frame_eq hwords
  have hrip : c.rip = .ofNat base := congrArg Frame.rip hframe
  have hcode : userCode User.syscallWriteSmokeProgram = User.syscallWriteSmokeProgram := by decide
  rw [hcode] at hbytes
  have hpage : base % PAGE_SIZE = 0 := by
    have heq := userCodeBase_eq hbase
    simp only [USER_CODE_BASE, USER_SLOT_SIZE] at heq
    unfold PAGE_SIZE
    omega
  have hlow := codeBase_low hbase hpid
  have hsize : base < 2 ^ 64 := by omega
  have hat : c.rip.toNat = base := by rw [hrip, UInt64.toNat_ofNat_of_lt' hsize]
  exact ⟨hrip, inUserMode_newUser hframe, hstart.codeAt hat hpage (by decide) hlow hopen hbytes⟩

/-- **The smoke program that was spawned** makes its request, whatever it is answered, and no
other one. -/
theorem spawned_smoke_requests (hlen : metadata.length ≤ MAX_SUPPORTED_PAGES)
    (hareas : DisjointAreas memMap)
    (hboot : boot metadata memMap reserved mem l ring0StackTop = some s₀) (hrun : LowSteps s₀ s)
    (he : s.spawnUser User.syscallWriteSmokeProgram = some (i, s')) :
    ∃ p base, s'.procs[i]? = some p ∧ userCodeBase s.nextPid = some base ∧
      ∀ (sym : SyscallSymbols) (m : Msrs) (dispatch : Core → Core → Prop) (c : Core),
        Starts s' p c → Serves sym dispatch c.rip User.syscallWriteSmokeProgram.length →
        ∀ n rs c', UserRun (kernelCall sym m dispatch) c n rs c' →
          User.SmokeDid (.ofNat base) n rs c' := by
  obtain ⟨p, f, base, hp, _, hbase, hcode⟩ := spawned_smoke_code hlen hareas hboot hrun he
  refine ⟨p, base, hp, hbase, fun sym m dispatch c hstart hserves n rs c' hrun => ?_⟩
  obtain ⟨hrip, huser, hload⟩ := hcode c hstart
  rw [← hrip]
  exact User.smokeDid_of_load hserves hload huser hrun

theorem spawned_smoke_requests_first : ∃ s₀ s s' p f rs c', machineBoot = some s₀ ∧
    LowSteps s₀ s ∧ s.chunks ≠ [] ∧
    s.spawnUser User.syscallWriteSmokeProgram = some (1, s') ∧ s'.procs[1]? = some p ∧
    UserRun (kernelCall sampleSymbols (fun _ => 0) okDispatch) (startCore s' p f) 5 rs c' ∧
    User.SmokeDid 0x600000 5 rs c' := by
  have hsmall : User.syscallWriteSmokeProgram.length ≤ PAGE_SIZE := by decide
  obtain ⟨s₀, s, b, live, s', hboot, h, he, _⟩ := machine_spawnUser hsmall
  obtain ⟨p, f, base, hp, hf, hbase, hcode⟩ :=
    spawned_smoke_code machine_max machine_disjoint hboot h.run he
  obtain ⟨p', base', hp', hbase', hdid⟩ :=
    spawned_smoke_requests machine_max machine_disjoint hboot h.run he
  obtain rfl := Option.some.inj (hp.symm.trans hp')
  rw [h.nextPid] at hbase hbase'
  obtain rfl : 0x600000 = base := Option.some.inj hbase
  obtain rfl : 0x600000 = base' := Option.some.inj hbase'
  have hstart := starts_startCore hf
  obtain ⟨hrip, huser, hload⟩ := hcode _ hstart
  have hserves : Serves sampleSymbols okDispatch (startCore s' p f).rip
      User.syscallWriteSmokeProgram.length := by
    rw [hrip]
    exact okDispatch_serves (by decide)
  have hserves' := hserves
  rw [User.syscallWriteSmokeProgram_eq] at hload hserves'
  obtain ⟨rs, c', hrun⟩ := exists_run_program (m := fun _ => 0)
    (User.straight_write 9 User.MESSAGE) (by decide) hserves' hload huser
    (fun s => ⟨_, rfl⟩) 5
  exact ⟨s₀, s, s', p, f, rs, c', hboot, h.run, h.heap, he, hp, hrun,
    hdid _ _ _ _ hstart hserves 5 rs c' hrun⟩

end System

end Zeronix
