import Zeronix.Lib.MachineCode
import Zeronix.Syscall.Entry
import Zeronix.User.Elf
import Mathlib.Tactic.IntervalCases

/-!
# What the built-in programs do

The machine code of `src/user.rs` and `src/user/elf.rs`, run on a CPU whose `syscall` goes through
`__syscall_entry`.  Wherever a program is loaded and whatever the kernel answers, it writes its
message to its standard output and, if it comes from a file, exits; then it loops.
-/

namespace Zeronix

open Gpr SyscallEntry

/-! ### The code -/

namespace User

/-- `MESSAGE` of `syscall_write_smoke_program`. -/
def MESSAGE : List UInt8 := Elf.asciiBytes "\r\nuser syscall write ok\r\nzeronix:/home$ "

/-- `mov eax, SYS_WRITE; mov edi, STDOUT; lea rsi, [rip + message]; mov edx, MESSAGE.len();
syscall; jmp $`, and the message. -/
def syscallWriteSmokeProgram : List UInt8 :=
  let code := 0xb8 :: Elf.toLeBytes Elf.SYS_WRITE 4 ++ 0xbf :: Elf.toLeBytes Elf.STDOUT 4
  let leaStart := code.length
  let code := code ++ [0x48, 0x8d, 0x35, 0, 0, 0, 0]
  let leaNext := code.length
  let code := code ++ 0xba :: Elf.toLeBytes MESSAGE.length 4 ++ [0x0f, 0x05] ++ [0xeb, 0xfe]
  Elf.copyFromSlice code (leaStart + 3) (Elf.toLeBytes (code.length - leaNext) 4) ++ MESSAGE

/-- The instructions up to `write`, with the distance from the `lea` to the message. -/
def writeInstrs (disp : UInt32) (message : List UInt8) : List UserInstr := [
  .movImm rax 6,
  .movImm rdi 1,
  .leaRip rsi disp,
  .movImm rdx (.ofNat message.length),
  .syscall]

/-- The instructions for `exit(0)`. -/
def exitInstrs : List UserInstr := [.movImm rax 3, .zero rdi, .syscall]

theorem syscallWriteSmokeProgram_eq :
    syscallWriteSmokeProgram = machineCode (straightCode (writeInstrs 9 MESSAGE)) ++ MESSAGE := by
  decide

/-- `message` of `user_program_code`. -/
def programMessage (program : Elf.ProgramId) : List UInt8 :=
  Elf.asciiBytes "exec /bin/" ++ Elf.asciiBytes program.name ++ Elf.asciiBytes " ok\r\n"

def programInstrs (program : Elf.ProgramId) : List UserInstr :=
  writeInstrs 18 (programMessage program) ++ exitInstrs

theorem userProgramCode_eq (program : Elf.ProgramId) : Elf.userProgramCode program =
    machineCode (straightCode (programInstrs program)) ++ programMessage program := by
  cases program <;> decide

end User

/-! ### The kernel below a program -/

/-- A `syscall` with the kernel: through the entry, the dispatcher, and back. -/
def kernelCall (sym : SyscallSymbols) (m : Msrs) (dispatch : Core → Core → Prop) (c c' : Core) :
    Prop :=
  ∃ s s', enter sym (init sym m) c = some s ∧ dispatch s s' ∧ leave sym (init sym m) s' = some c'

/-- The segments and flags of a program. -/
structure InUserMode (c : Core) : Prop where
  cs : c.cs = UInt64.ofNat TrapFrame.USER_CODE_SELECTOR
  ss : c.ss = UInt64.ofNat TrapFrame.USER_DATA_SELECTOR
  flags : c.rflags &&& 0x3C7FD7 ||| 2 = c.rflags
  upwards : c.rflags &&& 0x400 = 0
  untraced : c.rflags &&& 0x100 = 0

/-- The kernel keeps its own memory in the upper half, and leaves the `n` bytes from `a` on
alone. -/
structure Serves (sym : SyscallSymbols) (dispatch : Core → Core → Prop) (a : UInt64) (n : Nat) :
    Prop where
  abi : DispatchAbi sym dispatch
  stack : 2 ^ 47 ≤ sym.syscallStack.toNat
  userRsp : 2 ^ 47 ≤ sym.syscallUserRsp.toNat
  lower : a.toNat + n ≤ 2 ^ 47
  code : ∀ s s', dispatch s s' → ∀ k < n, s'.mem.bytes (a.toNat + k) = s.mem.bytes (a.toNat + k)

theorem or_and_distrib (a b c : UInt64) : (a ||| b) &&& c = a &&& c ||| b &&& c := by
  apply UInt64.toBitVec_inj.mp
  ext i hi
  simp [Bool.and_or_distrib_right]

theorem zero_flags {f : UInt64} (h : f &&& 0x3C7FD7 ||| 2 = f) :
    (f &&& ~~~0x8D5 ||| 0x44) &&& 0x3C7FD7 ||| 2 = f &&& ~~~0x8D5 ||| 0x44 := by
  have hleft : (f &&& ~~~0x8D5 ||| 0x44) &&& 0x3C7FD7 = f &&& 0x3C7FD7 &&& ~~~0x8D5 ||| 0x44 := by
    rw [or_and_distrib, UInt64.and_assoc, UInt64.and_comm (~~~0x8D5), ← UInt64.and_assoc]
    rfl
  have hright : f &&& ~~~0x8D5 = f &&& 0x3C7FD7 &&& ~~~0x8D5 ||| 2 := by
    conv_lhs => rw [← h, or_and_distrib]
    rfl
  rw [hleft, hright, UInt64.or_assoc, UInt64.or_assoc, UInt64.or_comm 2]

theorem InUserMode.execUser {c : Core} (h : InUserMode c) (next : UInt64) (i : UserInstr) :
    InUserMode (c.execUser next i) := by
  cases i with
  | zero r =>
    refine ⟨h.cs, h.ss, zero_flags h.flags, ?_, ?_⟩
    · show (c.rflags &&& ~~~0x8D5 ||| 0x44) &&& 0x400 = 0
      rw [or_and_distrib, UInt64.and_assoc, show (~~~0x8D5 : UInt64) &&& 0x400 = 0x400 from rfl,
        h.upwards]
      rfl
    · show (c.rflags &&& ~~~0x8D5 ||| 0x44) &&& 0x100 = 0
      rw [or_and_distrib, UInt64.and_assoc, show (~~~0x8D5 : UInt64) &&& 0x100 = 0x100 from rfl,
        h.untraced]
      rfl
  | _ => exact ⟨h.cs, h.ss, h.flags, h.upwards, h.untraced⟩

variable {sym : SyscallSymbols} {m : Msrs} {dispatch : Core → Core → Prop} {a : UInt64} {n : Nat}
  {c c' : Core}

theorem Serves.kernelCall (h : Serves sym dispatch a n) (hc : InUserMode c)
    (hrip : c.rip.toNat + 2 < 2 ^ 47) (hcall : kernelCall sym m dispatch c c') :
    c'.rip = c.rip + 2 ∧ (∀ r, r ∉ clobbered → c'.gpr r = c.gpr r) ∧
    (∀ k < n, c'.mem.bytes (a.toNat + k) = c.mem.bytes (a.toNat + k)) ∧ InUserMode c' := by
  obtain ⟨s, s', henter, hdispatch, hleave⟩ := hcall
  have hcanonical : Core.Canonical (c.rip + 2) := by
    refine Or.inl (UInt64.lt_iff_toNat_lt.mpr ?_)
    rw [toNat_add_ofNat (n := 2) rfl (by omega)]
    exact hrip
  obtain ⟨c₁, hleave₁, hframe, hmem, _⟩ := leave_of_dispatch sym m h.abi
    ⟨hc.cs, hc.ss, hcanonical, hc.flags, hc.upwards, hc.untraced⟩ henter hdispatch
  obtain rfl : c' = c₁ := Option.some.inj (hleave.symm.trans hleave₁)
  obtain ⟨s₁, henter₁, _, _, _, _, _, _, _, _, _, hbytes⟩ := enter_spec sym m c
  obtain rfl : s = s₁ := Option.some.inj (henter.symm.trans henter₁)
  have hgpr : c'.gpr = fun r => if r ∈ pops then atEntry c r else s'.gpr r :=
    congrArg Frame.gpr hframe
  have hcs : c'.cs = c.cs := congrArg Frame.cs hframe
  have hss : c'.ss = c.ss := congrArg Frame.ss hframe
  have hflags : c'.rflags = c.rflags := congrArg Frame.rflags hframe
  refine ⟨congrArg Frame.rip hframe, fun r hr => ?_, fun k hk => ?_, hcs.trans hc.cs,
    hss.trans hc.ss, ?_, ?_, ?_⟩
  · rw [hgpr]
    cases r <;> first | rfl | exact absurd (by decide) hr
  · -- what the entry writes is not in the lower half
    have hout : ¬ Written sym (a.toNat + k) := by
      have hsize : SYSCALL_STACK_SIZE = 16384 := rfl
      have htop := top_toNat sym
      have hstack := h.stack
      have huser := h.userRsp
      have hlower := h.lower
      unfold Written
      omega
    rw [hmem, h.code s s' hdispatch k hk, hbytes _ hout]
  · rw [hflags]
    exact hc.flags
  · rw [hflags]
    exact hc.upwards
  · rw [hflags]
    exact hc.untraced

/-! ### Running a program -/

/-- A program in user mode with its message behind its code. -/
structure WithMessage (b : UInt64) (message : List UInt8) (c : Core) : Prop where
  user : InUserMode c
  message : CodeAt c.mem b message

theorem CodeAt.append {m : Memory} {bytes bytes' : List UInt8} (h : CodeAt m a (bytes ++ bytes')) :
    CodeAt m a bytes ∧ CodeAt m (a + .ofNat bytes.length) bytes' := by
  have hlt := h.lt
  rw [List.length_append] at hlt
  have hnat : (a + .ofNat bytes.length).toNat = a.toNat + bytes.length := toNat_add_nat (by omega)
  refine ⟨⟨by omega, fun k hk => ?_⟩, ⟨by omega, fun k hk => ?_⟩⟩
  · rw [h.bytes k (by rw [List.length_append]; omega), List.getD_append _ _ _ _ hk]
  · rw [hnat, Nat.add_assoc, h.bytes _ (by rw [List.length_append]; omega),
      List.getD_append_right _ _ _ _ (by omega), Nat.add_sub_cancel_left]

theorem Serves.kernelAbi {code message : List UInt8}
    (h : Serves sym dispatch a (code ++ message).length) (hpos : 0 < message.length) :
    KernelAbi (Zeronix.kernelCall sym m dispatch) (WithMessage (a + .ofNat code.length) message)
      clobbered a code.length := by
  have hlower := h.lower
  rw [List.length_append] at hlower
  have hspec : ∀ c c', WithMessage (a + .ofNat code.length) message c →
      c.rip.toNat + 2 ≤ a.toNat + code.length → Zeronix.kernelCall sym m dispatch c c' →
      c'.rip = c.rip + 2 ∧ (∀ r, r ∉ clobbered → c'.gpr r = c.gpr r) ∧
      (∀ k < (code ++ message).length, c'.mem.bytes (a.toNat + k) = c.mem.bytes (a.toNat + k)) ∧
      InUserMode c' := fun c c' hc hrip => h.kernelCall hc.user (by omega)
  refine ⟨fun c c' hc _ hrip hcall => (hspec c c' hc hrip hcall).1,
    fun c c' hc _ hrip hcall => (hspec c c' hc hrip hcall).2.1,
    fun c c' hc _ hrip hcall k hk => (hspec c c' hc hrip hcall).2.2.1 k ?_,
    fun c c' hc _ hrip hcall => ?_⟩
  · rw [List.length_append]
    omega
  · obtain ⟨_, _, hbytes, huser⟩ := hspec c c' hc hrip hcall
    refine ⟨huser, hc.message.lt, fun k hk => ?_⟩
    rw [← hc.message.bytes k hk, toNat_add_nat (by omega), Nat.add_assoc]
    refine hbytes _ ?_
    rw [List.length_append]
    omega

/-- **A run of a program with its message.** -/
theorem run_program {body : List UserInstr} {message : List UInt8} {rs : List Request}
    (hbody : Straight body) (hpos : 0 < message.length)
    (hserves : Serves sym dispatch c.rip (machineCode (straightCode body) ++ message).length)
    (hload : CodeAt c.mem c.rip (machineCode (straightCode body) ++ message)) (hc : InUserMode c)
    (hrun : UserRun (kernelCall sym m dispatch) c n rs c') :
    Tracked.Matches ((Tracked.start c.rip).run clobbered (body.take n)) c' rs ∧
    (∃ i len, UserInstr.decode c'.fetch = some (i, len)) ∧
    CodeAt c'.mem (c.rip + .ofNat (machineCode (straightCode body)).length) message := by
  obtain ⟨hcode, hmessage⟩ := hload.append
  obtain ⟨hmatches, hcode', hc'⟩ := hbody.run (K := kernelCall sym m dispatch) hcode rfl
    (show WithMessage _ message c from ⟨hc, hmessage⟩)
    (fun c next i h => ⟨h.user.execUser next i, by cases i <;> exact h.message⟩)
    (hserves.kernelAbi hpos) hrun
  obtain ⟨hdecode, _⟩ := hbody.next_spec n hcode' hmatches.rip
  exact ⟨hmatches, ⟨_, _, hdecode⟩, hc'.message⟩

theorem exists_run_program {body : List UserInstr} {message : List UInt8}
    (hbody : Straight body) (hpos : 0 < message.length)
    (hserves : Serves sym dispatch c.rip (machineCode (straightCode body) ++ message).length)
    (hload : CodeAt c.mem c.rip (machineCode (straightCode body) ++ message)) (hc : InUserMode c)
    (hreturns : ∀ s, ∃ s', dispatch s s') (n : Nat) :
    ∃ rs c', UserRun (kernelCall sym m dispatch) c n rs c' := by
  obtain ⟨hcode, hmessage⟩ := hload.append
  have hlower := hserves.lower
  rw [List.length_append] at hlower
  refine hbody.exists_run (U := WithMessage _ message) hcode rfl ⟨hc, hmessage⟩
    (fun c next i h => ⟨h.user.execUser next i, by cases i <;> exact h.message⟩)
    (hserves.kernelAbi hpos) (fun c₁ hc₁ hroom => ?_) n
  obtain ⟨s, henter, _⟩ := enter_spec sym m c₁
  obtain ⟨s', hdispatch⟩ := hreturns s
  have hcanonical : Core.Canonical (c₁.rip + 2) := by
    refine Or.inl (UInt64.lt_iff_toNat_lt.mpr ?_)
    rw [toNat_add_ofNat (n := 2) rfl (by omega)]
    show c₁.rip.toNat + 2 < 2 ^ 47
    omega
  obtain ⟨c', hleave, _⟩ := leave_of_dispatch sym m hserves.abi
    ⟨hc₁.user.cs, hc₁.user.ss, hcanonical, hc₁.user.flags, hc₁.user.upwards, hc₁.user.untraced⟩
    henter hdispatch
  exact ⟨c', s, s', henter, hdispatch, hleave⟩

/-- `write(1, message, message.len())` for a message at `b`. -/
structure Writes (b : UInt64) (message : List UInt8) (r : Request) : Prop where
  number : r.number = 6
  fd : r.arg0 = 1
  buf : r.arg1 = b
  len : r.arg2.toNat = message.length

/-- `exit(0)`. -/
structure Exits (r : Request) : Prop where
  number : r.number = 3
  status : r.arg0 = 0

namespace User

theorem straight_write (disp : UInt32) (message : List UInt8) :
    Straight (writeInstrs disp message) := by
  intro i hi
  simp only [writeInstrs, List.mem_cons, List.not_mem_nil, or_false] at hi
  rcases hi with rfl | rfl | rfl | rfl | rfl <;> refine ⟨?_, fun disp h => by cases h⟩ <;>
    simp only [UserInstr.Short] <;> decide

theorem straight_program (program : Elf.ProgramId) : Straight (programInstrs program) := by
  intro i hi
  rcases List.mem_append.mp hi with hi | hi
  · exact straight_write _ _ i hi
  · simp only [exitInstrs, List.mem_cons, List.not_mem_nil, or_false] at hi
    rcases hi with rfl | rfl | rfl <;> refine ⟨?_, fun disp h => by cases h⟩ <;>
      simp only [UserInstr.Short] <;> decide

/-- The request that the first instructions make. -/
def writeRequest (a : UInt64) (disp : UInt32) (message : List UInt8) : Expected where
  number := some 6
  arg0 := some 1
  arg1 := some (a + 5 + 5 + 7 + signed32 disp)
  arg2 := some (UInt32.ofNat message.length).toUInt64

theorem writeRequest_met {disp : UInt32} {message : List UInt8} {r : Request} {k : UInt64}
    (hlen : message.length < 2 ^ 32) (hk : 17 + signed32 disp = k)
    (h : (writeRequest a disp message).Met r) : Writes (a + k) message r := by
  refine ⟨h.number 6 rfl, h.arg0 1 rfl, ?_, ?_⟩
  · rw [h.arg1 _ rfl, ← hk, UInt64.add_assoc a 5 5, UInt64.add_assoc a _ 7, UInt64.add_assoc a]
    rfl
  · rw [h.arg2 _ rfl, UInt32.toNat_toUInt64, UInt32.toNat_ofNat_of_lt' hlen]

theorem requests_write (disp : UInt32) (message : List UInt8) (n : Nat) :
    ((Tracked.start a).run clobbered ((writeInstrs disp message).take n)).requests =
      [writeRequest a disp message].take (if n < 5 then 0 else 1) := by
  by_cases hn : n < 5
  · rw [if_pos hn]
    interval_cases n <;> rfl
  · rw [if_neg hn, List.take_of_length_le (by simp [writeInstrs]; omega)]
    rfl

theorem requests_program (disp : UInt32) (message : List UInt8) (n : Nat) :
    ∃ arg1 arg2, ((Tracked.start a).run clobbered
      ((writeInstrs disp message ++ exitInstrs).take n)).requests =
        [writeRequest a disp message, ⟨some 3, some 0, arg1, arg2⟩].take
          (if n < 5 then 0 else if n < 8 then 1 else 2) := by
  refine ⟨none, none, ?_⟩
  by_cases hn : n < 8
  · interval_cases n <;> rfl
  · rw [if_neg (by omega), if_neg hn,
      List.take_of_length_le (by simp [writeInstrs, exitInstrs]; omega)]
    rfl

/-- What the smoke program at `a` has done after `n` instructions: its `write`, where it is, and
that it is at an instruction. -/
structure SmokeDid (a : UInt64) (n : Nat) (rs : List Request) (c : Core) : Prop where
  length : rs.length = if n < 5 then 0 else 1
  write : ∀ w, rs[0]? = some w → Writes (a + 26) MESSAGE w
  message : CodeAt c.mem (a + 26) MESSAGE
  loops : 5 ≤ n → c.rip = a + 24
  decodes : ∃ i len, UserInstr.decode c.fetch = some (i, len)

theorem smokeDid_of_load {rs : List Request}
    (hserves : Serves sym dispatch c.rip syscallWriteSmokeProgram.length)
    (hload : CodeAt c.mem c.rip syscallWriteSmokeProgram) (hc : InUserMode c)
    (hrun : UserRun (kernelCall sym m dispatch) c n rs c') : SmokeDid c.rip n rs c' := by
  rw [syscallWriteSmokeProgram_eq] at hserves hload
  obtain ⟨hmatches, hdecode, hmessage⟩ :=
    run_program (straight_write 9 MESSAGE) (by decide) hserves hload hc hrun
  have hrequests := hmatches.requests
  rw [requests_write] at hrequests
  refine ⟨?_, fun w hw => ?_, hmessage, fun hn => ?_, hdecode⟩
  · rw [← hrequests.length_eq, List.length_take]
    split <;> rfl
  · obtain ⟨e, he, hmet⟩ := Expected.of_take hrequests hw
    obtain rfl := Option.some.inj he
    exact writeRequest_met (by decide) (by decide) hmet
  · rw [hmatches.rip, List.take_of_length_le (by simpa [writeInstrs] using hn),
      (straight_write 9 MESSAGE).rip]
    rfl

theorem programMessage_length (program : Elf.ProgramId) :
    0 < (programMessage program).length ∧ (programMessage program).length < 32 := by
  cases program <;> decide

theorem length_programInstrs (program : Elf.ProgramId) :
    (machineCode (straightCode (programInstrs program))).length = 35 := by
  cases program <;> decide

/-- What a built-in program at `a` has done after `n` instructions: its requests, where it is,
and that it is at an instruction. -/
structure ProgramDid (program : Elf.ProgramId) (a : UInt64) (n : Nat) (rs : List Request)
    (c : Core) : Prop where
  length : rs.length = if n < 5 then 0 else if n < 8 then 1 else 2
  write : ∀ w, rs[0]? = some w → Writes (a + 35) (programMessage program) w
  exit : ∀ x, rs[1]? = some x → Exits x
  message : CodeAt c.mem (a + 35) (programMessage program)
  loops : 8 ≤ n → c.rip = a + 33
  decodes : ∃ i len, UserInstr.decode c.fetch = some (i, len)

theorem programDid_of_load {program : Elf.ProgramId} {rs : List Request}
    (hserves : Serves sym dispatch c.rip (Elf.userProgramCode program).length)
    (hload : CodeAt c.mem c.rip (Elf.userProgramCode program)) (hc : InUserMode c)
    (hrun : UserRun (kernelCall sym m dispatch) c n rs c') :
    ProgramDid program c.rip n rs c' := by
  have hlen := length_programInstrs program
  obtain ⟨hpos, hshort⟩ := programMessage_length program
  rw [userProgramCode_eq] at hserves hload
  obtain ⟨hmatches, hdecode, hmessage⟩ :=
    run_program (straight_program program) hpos hserves hload hc hrun
  have hrequests := hmatches.requests
  obtain ⟨arg1, arg2, htake⟩ := requests_program (a := c.rip) 18 (programMessage program) n
  rw [programInstrs, htake] at hrequests
  rw [hlen] at hmessage
  refine ⟨?_, fun w hw => ?_, fun x hx => ?_, hmessage, fun hn => ?_, hdecode⟩
  · rw [← hrequests.length_eq, List.length_take]
    split
    · rfl
    · split <;> rfl
  · obtain ⟨e, he, hmet⟩ := Expected.of_take hrequests hw
    obtain rfl := Option.some.inj he
    exact writeRequest_met (by omega) (by decide) hmet
  · obtain ⟨e, he, hmet⟩ := Expected.of_take hrequests hx
    obtain rfl := Option.some.inj he
    exact ⟨hmet.number 3 rfl, hmet.arg0 0 rfl⟩
  · have hbody : (machineCode (programInstrs program)).length = 33 := by
      cases program <;> decide
    rw [hmatches.rip, List.take_of_length_le (by simpa [programInstrs, writeInstrs, exitInstrs]
      using hn), (straight_program program).rip, hbody]
    rfl

end User

end Zeronix
