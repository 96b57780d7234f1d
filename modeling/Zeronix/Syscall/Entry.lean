import Zeronix.Lib.SystemCall
import Zeronix.Syscall.CallRuns
import Zeronix.Task.Preemption

/-!
# The entry of system calls

The assembly of `__syscall_entry` in `src/syscall.rs` as it is written there, with the registers
that `init` sets up for `syscall` and `sysretq`.

`__syscall_dispatch` is a parameter: any code that keeps to the calling convention and leaves the
saved registers alone (`DispatchAbi`).  It is called with the number and the arguments of the
call and on an aligned stack, and the user gets back all registers but those that a system call
may change (`syscall_round_trip`).

`syscall_refines` connects the assembly with the model of the calls: what is pushed here is what
`pushFrame` has pushed there, so if `__syscall_dispatch` does what `syscallDispatch` does, then
the whole does what `syscallEntry` does.
-/

namespace Zeronix

open Gpr

/-! ### The set-up -/

def SYSCALL_STACK_SIZE : Nat := 16 * 1024

/-- Addresses in the image of the kernel. -/
structure SyscallSymbols where
  syscallEntry : UInt64
  syscallStack : UInt64
  syscallUserRsp : UInt64
  syscallDispatch : UInt64
  /-- After the call of `__syscall_dispatch`. -/
  syscallReturn : UInt64
  stack_align : syscallStack.toNat % 16 = 0
  stack_lt : syscallStack.toNat + SYSCALL_STACK_SIZE < 2 ^ 64
  apart : syscallUserRsp.toNat + 8 ≤ syscallStack.toNat ∨
    syscallStack.toNat + SYSCALL_STACK_SIZE ≤ syscallUserRsp.toNat

namespace SyscallEntry

def EFER_SCE : UInt64 := 1
def RFLAGS_IF : UInt64 := (1 : UInt64) <<< 9

def rdmsr (m : Msrs) (msr : UInt32) : UInt64 :=
  let (high, low) := m.read msr
  high.toUInt64 <<< 32 ||| low.toUInt64

def wrmsr (m : Msrs) (msr : UInt32) (value : UInt64) : Msrs :=
  m.write msr (value >>> 32).toUInt32 value.toUInt32

/-- `init`. -/
def init (sym : SyscallSymbols) (m : Msrs) : Msrs :=
  let efer := rdmsr m IA32_EFER ||| EFER_SCE
  let m := wrmsr m IA32_EFER efer
  let userStar := UInt64.ofNat TrapFrame.USER_DATA_SELECTOR - 8
  let star := userStar <<< 48 ||| KERNEL_CODE_SELECTOR <<< 32
  let m := wrmsr m IA32_STAR star
  let m := wrmsr m IA32_LSTAR sym.syscallEntry
  wrmsr m IA32_FMASK RFLAGS_IF

theorem rdmsr_eq (m : Msrs) (msr : UInt32) : rdmsr m msr = m msr := halves_eq (m msr)

theorem wrmsr_eq (m : Msrs) (msr : UInt32) (value : UInt64) :
    wrmsr m msr value = Function.update m msr value := by
  rw [wrmsr, Msrs.write, halves_eq]

theorem init_efer (sym : SyscallSymbols) (m : Msrs) : (init sym m).Sce := by
  have hone : ∀ v : UInt64, (v ||| 1) &&& 1 = 1 := by
    intro v
    apply UInt64.toNat_inj.mp
    rw [UInt64.toNat_and, UInt64.toNat_or]
    apply Nat.eq_of_testBit_eq
    intro i
    rw [Nat.testBit_and, Nat.testBit_or]
    cases h : (UInt64.toNat 1).testBit i <;> simp
  simp only [Msrs.Sce, init, wrmsr_eq, rdmsr_eq]
  rw [Function.update_of_ne (by decide), Function.update_of_ne (by decide),
    Function.update_of_ne (by decide), Function.update_self]
  exact hone _

theorem init_star (sym : SyscallSymbols) (m : Msrs) :
    init sym m IA32_STAR = 0x0013000800000000 := by
  simp only [init, wrmsr_eq, rdmsr_eq]
  rw [Function.update_of_ne (by decide), Function.update_of_ne (by decide), Function.update_self]
  decide

theorem init_lstar (sym : SyscallSymbols) (m : Msrs) :
    init sym m IA32_LSTAR = sym.syscallEntry := by
  simp only [init, wrmsr_eq, rdmsr_eq]
  rw [Function.update_of_ne (by decide), Function.update_self]

theorem init_fmask (sym : SyscallSymbols) (m : Msrs) : init sym m IA32_FMASK = 0x200 := by
  simp only [init, wrmsr_eq, rdmsr_eq]
  rw [Function.update_self]
  decide

/-! ### The assembly -/

def pushes : List Gpr := [r11, rcx, rbx, rbp, r12, r13, r14, r15]

def pops : List Gpr := [r15, r14, r13, r12, rbp, rbx, rcx, r11]

/-- `__SYSCALL_STACK + 16384` -/
def top (sym : SyscallSymbols) : UInt64 := sym.syscallStack + 16384

/-- The arguments move to where a function has them. -/
def shuffle : List EntryInstr := [
  .mov rbx rdi,
  .mov rdi rax,
  .mov rax rsi,
  .mov rsi rbx,
  .mov rbx rdx,
  .mov rdx rax,
  .mov rcx rbx,
  .mov r9 r8,
  .mov r8 r10]

/-- `__syscall_entry`, up to the handler. -/
def entry (sym : SyscallSymbols) : List EntryInstr :=
  [.storeRspAt sym.syscallUserRsp, .leaRsp (top sym)] ++ (pushes.map Instr.push).map .plain ++
    shuffle ++ [.plain (.call sym.syscallDispatch sym.syscallReturn)]

/-- `__syscall_entry`, after the handler and up to `sysretq`. -/
def exit (sym : SyscallSymbols) : List EntryInstr :=
  (pops.map Instr.pop).map .plain ++ [.loadRspAt sym.syscallUserRsp]

/-- From a `syscall` to the entry of `__syscall_dispatch`. -/
def enter (sym : SyscallSymbols) (m : Msrs) (c : Core) : Option Core :=
  (c.syscall m).map fun c => c.runEntry (entry sym)

/-- From the return of `__syscall_dispatch` on. -/
def leave (sym : SyscallSymbols) (m : Msrs) (c : Core) : Option Core :=
  (c.runEntry (exit sym)).sysretq m

/-! ### What it relies on -/

/-- A program in user mode at a `syscall` that is not the last instruction below the canonical
hole.  It has the flags that a program can have, with DF and TF clear: `FMASK` masks IF only, so
that the handler would run with the program's DF, and TF would trap at each of its instructions. -/
structure AtSyscall (c : Core) : Prop where
  cs : c.cs = UInt64.ofNat TrapFrame.USER_CODE_SELECTOR
  ss : c.ss = UInt64.ofNat TrapFrame.USER_DATA_SELECTOR
  rip : Core.Canonical (c.rip + 2)
  flags : c.rflags &&& 0x3C7FD7 ||| 2 = c.rflags
  upwards : c.rflags &&& 0x400 = 0
  untraced : c.rflags &&& 0x100 = 0

/-- What a function may rely on when it is called. -/
structure Callable (s : Core) : Prop where
  aligned : (s.rsp.toNat + 8) % 16 = 0
  upwards : s.rflags &&& 0x400 = 0
  untraced : s.rflags &&& 0x100 = 0

/-- `__syscall_dispatch` keeps to the calling convention, in ring 0, and leaves the stack of its
caller and the saved stack pointer alone. -/
structure DispatchAbi (sym : SyscallSymbols) (dispatch : Core → Core → Prop) : Prop where
  returned : ∀ s s', Callable s → dispatch s s' → s.Returned s' ∧ s'.cs = s.cs
  stack : ∀ s s', Callable s → dispatch s s' → ∀ x, s.rsp.toNat + 8 ≤ x → x < (top sym).toNat →
    s'.mem.bytes x = s.mem.bytes x
  userRsp : ∀ s s', Callable s → dispatch s s' →
    s'.mem.load sym.syscallUserRsp.toNat = s.mem.load sym.syscallUserRsp.toNat

/-- The registers that a system call may change. -/
def clobbered : List Gpr := [rax, rcx, rdx, rsi, rdi, r8, r9, r10, r11]

/-- The bytes that the entry writes. -/
def Written (sym : SyscallSymbols) (x : Nat) : Prop :=
  ((top sym).toNat - 72 ≤ x ∧ x < (top sym).toNat) ∨
    (sym.syscallUserRsp.toNat ≤ x ∧ x < sym.syscallUserRsp.toNat + 8)

/-! ### What it does -/

variable (sym : SyscallSymbols)

theorem top_toNat : (top sym).toNat = sym.syscallStack.toNat + SYSCALL_STACK_SIZE :=
  toNat_add_ofNat rfl sym.stack_lt

theorem syscall_init (m : Msrs) (c : Core) : c.syscall (init sym m) = some { c with
    gpr := Function.update (Function.update c.gpr rcx (c.rip + 2)) r11 c.rflags
    rip := sym.syscallEntry
    rflags := c.rflags &&& ~~~0x200
    cs := 0x08
    ss := 0x10 } := by
  rw [Core.syscall, if_pos (init_efer sym m), init_star, init_lstar, init_fmask]
  rfl

theorem sysretq_init (m : Msrs) {c : Core} (hcs : c.cs = 0x08)
    (hrip : Core.Canonical (c.gpr rcx)) : c.sysretq (init sym m) = some { c with
    rip := c.gpr rcx
    rflags := c.gpr r11 &&& 0x3C7FD7 ||| 2
    cs := UInt64.ofNat TrapFrame.USER_CODE_SELECTOR
    ss := UInt64.ofNat TrapFrame.USER_DATA_SELECTOR } := by
  have hring : c.cs &&& 3 = 0 := by
    rw [hcs]
    decide
  rw [Core.sysretq, if_pos ⟨init_efer sym m, hring, hrip⟩, init_star]
  rfl

/-- The registers after the shuffle. -/
def shuffled (g : Gpr → UInt64) : Gpr → UInt64
  | rax => g rsi
  | rdi => g rax
  | rsi => g rdi
  | rbx => g rdx
  | rdx => g rsi
  | rcx => g rdx
  | r9 => g r8
  | r8 => g r10
  | r => g r

theorem run_shuffle (c : Core) : c.runEntry shuffle = { c with gpr := shuffled c.gpr } := by
  simp only [Core.runEntry, shuffle, List.foldl, Core.execEntry, Core.setGpr, Core.mk.injEq,
    and_true]
  funext r
  cases r <;> rfl

/-- The registers that `syscall` leaves. -/
def atEntry (c : Core) : Gpr → UInt64 :=
  Function.update (Function.update c.gpr rcx (c.rip + 2)) r11 c.rflags

/-- **The entry** saves what the convention does not, and calls the handler with the number and
the arguments. -/
theorem enter_spec (m : Msrs) (c : Core) : ∃ s, enter sym (init sym m) c = some s ∧
    [s.gpr rdi, s.gpr rsi, s.gpr rdx, s.gpr rcx, s.gpr r8, s.gpr r9] =
      [c.gpr rax, c.gpr rdi, c.gpr rsi, c.gpr rdx, c.gpr r10, c.gpr r8] ∧
    (∀ r ∈ [rbp, r12, r13, r14, r15], s.gpr r = c.gpr r) ∧
    s.rip = sym.syscallDispatch ∧ s.rflags = c.rflags &&& ~~~0x200 ∧ s.cs = 0x08 ∧
    s.rsp0 = c.rsp0 ∧ s.rsp.toNat = (top sym).toNat - 72 ∧
    Spells s.mem ((top sym).toNat - 64) (pops.map (atEntry c)) ∧
    s.mem.load sym.syscallUserRsp.toNat = c.rsp.toNat ∧
    ∀ x, ¬ Written sym x → s.mem.bytes x = c.mem.bytes x := by
  have hsize : SYSCALL_STACK_SIZE = 16384 := rfl
  have htop := top_toNat sym
  have happart := sym.apart
  have hlen : pushes.length = 8 := rfl
  rw [enter, syscall_init, Option.map_some, entry, Core.runEntry_append, Core.runEntry_append]
  generalize hc₁ : ({ c with
    gpr := Function.update (Function.update c.gpr rcx (c.rip + 2)) r11 c.rflags
    rip := sym.syscallEntry
    rflags := c.rflags &&& ~~~0x200
    cs := 0x08
    ss := 0x10 } : Core) = c₁
  generalize hc₂ : c₁.runEntry ([.storeRspAt sym.syscallUserRsp, .leaRsp (top sym)] ++
    (pushes.map Instr.push).map .plain) = c₂
  obtain ⟨hrsp, hspells, hcell, hbytes, hrest⟩ :=
    run_saveOn (by omega) (by omega) hc₂.symm
  rw [hlen] at hrsp hbytes
  have hgpr₁ : c₁.gpr = atEntry c := by rw [← hc₁, atEntry]
  have hmem₁ : c₁.mem = c.mem := by rw [← hc₁]
  have hrsp₁ : c₁.rsp = c.rsp := by rw [← hc₁]
  rw [hgpr₁] at hspells hrest
  rw [hrsp₁] at hcell
  rw [hmem₁] at hbytes
  rw [run_shuffle]
  generalize hc₃ : ({ c₂ with gpr := shuffled c₂.gpr } : Core) = c₃
  have hrsp₃ : c₃.rsp = c₂.rsp := by rw [← hc₃]
  have hmem₃ : c₃.mem = c₂.mem := by rw [← hc₃]
  have hgpr₃ : c₃.gpr = shuffled (atEntry c) := by rw [← hc₃, hrest]
  -- the call pushes one word more
  have hroom : 8 ≤ c₃.rsp.toNat := by
    rw [hrsp₃]
    omega
  have hcall : ∀ x, x < c₂.rsp.toNat - 8 ∨ c₂.rsp.toNat ≤ x →
      (c₃.pushWord sym.syscallReturn).mem.bytes x = c₂.mem.bytes x := by
    intro x hx
    rw [pushWord_bytes _ hroom (by rw [hrsp₃]; exact hx), hmem₃]
  refine ⟨{ c₃.pushWord sym.syscallReturn with rip := sym.syscallDispatch }, rfl, ?_, ?_, rfl,
    ?_, ?_, ?_, ?_, ?_, ?_, fun x hx => ?_⟩
  · show [c₃.gpr rdi, c₃.gpr rsi, c₃.gpr rdx, c₃.gpr rcx, c₃.gpr r8, c₃.gpr r9] = _
    rw [hgpr₃]
    rfl
  · intro r hr
    show c₃.gpr r = c.gpr r
    rw [hgpr₃]
    simp only [List.mem_cons, List.not_mem_nil, or_false] at hr
    rcases hr with rfl | rfl | rfl | rfl | rfl <;> rfl
  · show c₃.rflags = _
    rw [← hc₃, hrest, ← hc₁]
  · show c₃.cs = _
    rw [← hc₃, hrest, ← hc₁]
  · show c₃.rsp0 = _
    rw [← hc₃, hrest, ← hc₁]
  · show (c₃.pushWord sym.syscallReturn).rsp.toNat = _
    rw [pushWord_rsp _ hroom, hrsp₃]
    omega
  · rw [hrsp, show (top sym).toNat - 8 * 8 = (top sym).toNat - 64 by omega] at hspells
    exact hspells.congr fun x hx _ => hcall x (by omega)
  · rw [← hcell]
    refine Memory.readLE_congr fun x hx hx' => hcall x ?_
    omega
  · have hx' : ¬ ((top sym).toNat - 72 ≤ x ∧ x < (top sym).toNat) ∧
      ¬ (sym.syscallUserRsp.toNat ≤ x ∧ x < sym.syscallUserRsp.toNat + 8) := not_or.mp hx
    show (c₃.pushWord sym.syscallReturn).mem.bytes x = c.mem.bytes x
    rw [hcall x (by omega), hbytes x (by omega) (by omega)]

/-- **The way back** brings the saved registers, and goes on behind the `syscall`. -/
theorem leave_spec (m : Msrs) {c s' : Core} (hrsp : s'.rsp.toNat = (top sym).toNat - 64)
    (hspells : Spells s'.mem ((top sym).toNat - 64) (pops.map (atEntry c)))
    (hcell : s'.mem.load sym.syscallUserRsp.toNat = c.rsp.toNat) (hcs : s'.cs = 0x08)
    (hrip : Core.Canonical (c.rip + 2)) : ∃ c', leave sym (init sym m) s' = some c' ∧
    c'.frame = {
      gpr := fun r => if r ∈ pops then atEntry c r else s'.gpr r
      rip := c.rip + 2
      cs := UInt64.ofNat TrapFrame.USER_CODE_SELECTOR
      rflags := c.rflags &&& 0x3C7FD7 ||| 2
      rsp := c.rsp
      ss := UInt64.ofNat TrapFrame.USER_DATA_SELECTOR } ∧
    c'.mem = s'.mem ∧ c'.rsp0 = s'.rsp0 := by
  have hsize : SYSCALL_STACK_SIZE = 16384 := rfl
  have htop := top_toNat sym
  have hlt := sym.stack_lt
  have hlen : pops.length = 8 := rfl
  rw [← hrsp] at hspells
  rw [← List.append_nil (pops.map _)] at hspells
  obtain ⟨rsp, _, hrun⟩ := run_pops hspells (by omega)
  have hcode : s'.runEntry (exit sym) = { s' with
      gpr := fun r => if r ∈ pops then atEntry c r else s'.gpr r
      rsp := c.rsp } := by
    rw [exit, Core.runEntry_append, Core.runEntry_plain, hrun]
    show ({ s' with
      gpr := fun r => if r ∈ pops then atEntry c r else s'.gpr r
      rsp := s'.word sym.syscallUserRsp } : Core) = _
    rw [Core.word, hcell, UInt64.ofNat_toNat]
  have hret := sysretq_init sym m (c := { s' with
    gpr := fun r => if r ∈ pops then atEntry c r else s'.gpr r
    rsp := c.rsp }) hcs hrip
  rw [leave, hcode, hret]
  exact ⟨_, rfl, rfl, rfl, rfl⟩

theorem and_not_if (f : UInt64) :
    (f &&& ~~~0x200) &&& 0x400 = f &&& 0x400 ∧ (f &&& ~~~0x200) &&& 0x100 = f &&& 0x100 ∧
      (f &&& ~~~0x200) &&& 0x200 = 0 := by
  rw [UInt64.and_assoc, UInt64.and_assoc, UInt64.and_assoc]
  exact ⟨rfl, rfl, UInt64.and_zero⟩

theorem callable_of_enter {m : Msrs} {c s : Core} (hc : AtSyscall c)
    (henter : enter sym (init sym m) c = some s) : Callable s := by
  obtain ⟨s₁, henter₁, hargs, hkept, hrip, hflags, hcs, hrsp0, hrsp, _⟩ := enter_spec sym m c
  obtain rfl : s = s₁ := Option.some.inj (henter.symm.trans henter₁)
  have hsize : SYSCALL_STACK_SIZE = 16384 := rfl
  have htop := top_toNat sym
  have halign := sym.stack_align
  refine ⟨by omega, ?_, ?_⟩
  · rw [hflags, (and_not_if c.rflags).1]
    exact hc.upwards
  · rw [hflags, (and_not_if c.rflags).2.1]
    exact hc.untraced

theorem leave_of_dispatch (m : Msrs) {dispatch : Core → Core → Prop} (habi : DispatchAbi sym dispatch)
    {c s s' : Core} (hc : AtSyscall c) (henter : enter sym (init sym m) c = some s)
    (hdispatch : dispatch s s') : ∃ c', leave sym (init sym m) s' = some c' ∧
    c'.frame = { c.frame with
      gpr := fun r => if r ∈ pops then atEntry c r else s'.gpr r
      rip := c.rip + 2 } ∧
    c'.mem = s'.mem ∧ c'.rsp0 = c.rsp0 := by
  have hcallable := callable_of_enter sym hc henter
  obtain ⟨s₁, henter₁, hargs, hkept, hrip, hflags, hcs, hrsp0, hrsp, hspells, hcell, hbytes⟩ :=
    enter_spec sym m c
  obtain rfl : s = s₁ := Option.some.inj (henter.symm.trans henter₁)
  have hsize : SYSCALL_STACK_SIZE = 16384 := rfl
  have htop := top_toNat sym
  obtain ⟨⟨hcontext, hrsp0'⟩, hcs'⟩ := habi.returned s s' hcallable hdispatch
  have hreturned : s'.rsp = s.rsp + 8 := congrArg Context.rsp hcontext
  have hrsp' : s'.rsp.toNat = (top sym).toNat - 64 := by
    have hlt := (top sym).toNat_lt
    rw [hreturned, toNat_add_ofNat (n := 8) rfl (by omega), hrsp]
    omega
  have hspells' : Spells s'.mem ((top sym).toNat - 64) (pops.map (atEntry c)) := by
    have hlen : (pops.map (atEntry c)).length = 8 := rfl
    refine hspells.congr fun x hx hx' => ?_
    exact habi.stack s s' hcallable hdispatch x (by omega) (by omega)
  obtain ⟨c', hleave, hframe, hmem, hrsp0''⟩ := leave_spec sym m hrsp' hspells'
    ((habi.userRsp s s' hcallable hdispatch).trans hcell) (hcs'.trans hcs) hc.rip
  refine ⟨c', hleave, ?_, hmem, (hrsp0''.trans hrsp0').trans hrsp0⟩
  rw [hframe, hc.flags, ← hc.cs, ← hc.ss]
  rfl

/-- **A system call** is handled in ring 0 without interrupts, on the stack for system calls, with
its number and arguments, and touches no memory of the user on the way.  When the handler returns, the program goes on behind
the `syscall` with its stack, its flags, its segments and all registers but the clobbered ones. -/
theorem syscall_round_trip (m : Msrs) {dispatch : Core → Core → Prop}
    (habi : DispatchAbi sym dispatch) {c : Core} (hc : AtSyscall c) :
    ∃ s, enter sym (init sym m) c = some s ∧ s.rip = sym.syscallDispatch ∧ Callable s ∧
      s.userMode = false ∧ s.rflags &&& 0x200 = 0 ∧
      s.rsp.toNat + 72 = sym.syscallStack.toNat + SYSCALL_STACK_SIZE ∧
      [s.gpr rdi, s.gpr rsi, s.gpr rdx, s.gpr rcx, s.gpr r8, s.gpr r9] =
        [c.gpr rax, c.gpr rdi, c.gpr rsi, c.gpr rdx, c.gpr r10, c.gpr r8] ∧
      (∀ x, ¬ Written sym x → s.mem.bytes x = c.mem.bytes x) ∧
      ∀ s', dispatch s s' → ∃ c', leave sym (init sym m) s' = some c' ∧
        c'.frame = { c.frame with gpr := c'.gpr, rip := c.rip + 2 } ∧
        (∀ r, r ∉ clobbered → c'.gpr r = c.gpr r) ∧ c'.gpr rax = s'.gpr rax ∧
        c'.mem = s'.mem ∧ c'.rsp0 = c.rsp0 := by
  obtain ⟨s, henter, hargs, hkept, hrip, hflags, hcs, hrsp0, hrsp, hspells, hcell, hbytes⟩ :=
    enter_spec sym m c
  refine ⟨s, henter, hrip, callable_of_enter sym hc henter, ?_, ?_, ?_, hargs, hbytes,
    fun s' hdispatch => ?_⟩
  · rw [Core.userMode, hcs]
    decide
  · rw [hflags]
    exact (and_not_if c.rflags).2.2
  · have hsize : SYSCALL_STACK_SIZE = 16384 := rfl
    rw [hrsp, top_toNat]
    omega
  obtain ⟨c', hleave, hframe, hmem, hrsp0'⟩ := leave_of_dispatch sym m habi hc henter hdispatch
  have hgpr : c'.gpr = fun r => if r ∈ pops then atEntry c r else s'.gpr r :=
    congrArg Frame.gpr hframe
  refine ⟨c', hleave, ?_, fun r hr => ?_, congrFun hgpr rax, hmem, hrsp0'⟩
  · rw [hframe, hgpr]
  · -- what is not clobbered was pushed
    rw [hgpr]
    cases r <;> first | rfl | exact absurd (by decide) hr

/-! ### A call of `fork` -/

def sampleSymbols : SyscallSymbols where
  syscallEntry := 0xFFFF800000101000
  syscallStack := 0xFFFF800000200000
  syscallUserRsp := 0xFFFF800000210000
  syscallDispatch := 0xFFFF800000103000
  syscallReturn := 0xFFFF800000101050
  stack_align := by decide
  stack_lt := by decide
  apart := by decide

/-- A dispatcher that answers `v`. -/
def answer (v : UInt64) (s : Core) : Core :=
  { s.setGpr rax v with
    rsp := s.rsp + 8
    rip := sampleSymbols.syscallReturn }

theorem answer_abi {dispatch : Core → Core → Prop}
    (h : ∀ s s', dispatch s s' → ∃ v, s' = answer v s) : DispatchAbi sampleSymbols dispatch where
  returned s s' _ hs := by
    obtain ⟨v, rfl⟩ := h s s' hs
    exact ⟨⟨rfl, rfl⟩, rfl⟩
  stack s s' _ hs x _ _ := by
    obtain ⟨v, rfl⟩ := h s s' hs
    rfl
  userRsp s s' _ hs := by
    obtain ⟨v, rfl⟩ := h s s' hs
    rfl

/-- What `__syscall_dispatch` does with `fork`. -/
def forkDispatch (s s' : Core) : Prop := s.gpr rdi = 1 ∧ s' = answer (-95) s

theorem forkDispatch_abi : DispatchAbi sampleSymbols forkDispatch :=
  answer_abi fun _ _ h => ⟨-95, h.2⟩

/-- A program before `fork()`. -/
def forkCore : Core where
  gpr
    | rax => 1
    | rbx => 2
    | r15 => 3
    | _ => 4
  rsp := 0x7ffffffff000
  rip := 0x600010
  cs := 0x23
  rflags := 0x202
  ss := 0x1b
  rsp0 := 0xFFFF800000014000
  mem := { bytes := fun x => if x = 0xFFFF800000220000 then 1 else 0, stores := [] }

theorem forkCore_atSyscall : AtSyscall forkCore :=
  ⟨by decide, by decide, by decide, by decide, by decide, by decide⟩

theorem syscall_round_trip_fork : ∃ s s' c',
    enter sampleSymbols (init sampleSymbols fun _ => 0) forkCore = some s ∧ forkDispatch s s' ∧
    leave sampleSymbols (init sampleSymbols fun _ => 0) s' = some c' ∧ c'.gpr rax = -95 ∧
    c'.gpr r15 = 3 := by
  obtain ⟨s, henter, _, _, _, _, _, hargs, _, hleave⟩ :=
    syscall_round_trip sampleSymbols (fun _ => 0) forkDispatch_abi forkCore_atSyscall
  simp only [List.cons.injEq, and_true] at hargs
  have hdispatch : forkDispatch s _ := ⟨hargs.1, rfl⟩
  obtain ⟨c', hc', _, hkept, hrax, _⟩ := hleave _ hdispatch
  exact ⟨s, _, c', henter, hdispatch, hc', hrax, hkept r15 (by decide)⟩

/-! ### The model of the calls -/

/-- The call that a program makes. -/
def call (c : Core) : Syscall where
  number := (c.gpr rax).toNat
  arg0 := (c.gpr rdi).toNat
  arg1 := (c.gpr rsi).toNat
  arg2 := (c.gpr rdx).toNat
  frame := {
    rsp := c.rsp.toNat
    r11 := c.rflags.toNat
    rcx := (c.rip + 2).toNat
    rbx := (c.gpr rbx).toNat
    rbp := (c.gpr rbp).toNat
    r12 := (c.gpr r12).toNat
    r13 := (c.gpr r13).toNat
    r14 := (c.gpr r14).toNat
    r15 := (c.gpr r15).toNat }

/-- The registers that a program has after a call, as far as the entry saves them. -/
def userFrame (c : Core) : UserFrame where
  rsp := c.rsp.toNat
  r11 := (c.gpr r11).toNat
  rcx := (c.gpr rcx).toNat
  rbx := (c.gpr rbx).toNat
  rbp := (c.gpr rbp).toNat
  r12 := (c.gpr r12).toNat
  r13 := (c.gpr r13).toNat
  r14 := (c.gpr r14).toNat
  r15 := (c.gpr r15).toNat

/-- The saved registers of the model stand on the stack. -/
structure Holds (k : Kernel) (m : Memory) : Prop where
  userRsp : m.load sym.syscallUserRsp.toNat = k.userRsp
  stack : Spells m ((top sym).toNat - 64) (k.stack.reverse.map UInt64.ofNat)

/-- `__syscall_dispatch` does what `syscallDispatch` does when it is called without a lock that it
may take, where `Rep` is how the data of the kernel stands in memory.  None of it is where the entry
saves the registers. -/
structure Implements (dispatch : Core → Core → Prop) (Rep : Kernel → Memory → Prop) : Prop where
  saved : ∀ k m m' f, Rep k m → (∀ x, ¬ Written sym x → m'.bytes x = m.bytes x) →
    Rep (k.pushed f) m'
  does : ∀ k held s s', (∀ l ∈ held, l.rank < 1) → Rep k s.mem → Callable s → dispatch s s' →
    ∃ n rax' k',
    (Kernel.syscallDispatch (s.gpr rdi).toNat (s.gpr rsi).toNat (s.gpr rdx).toNat
      (s.gpr rcx).toNat).run n ⟨k, held, false⟩ = (.ret rax', ⟨k', held, false⟩) ∧
    s'.gpr rax = UInt64.ofInt rax' ∧ Rep k' s'.mem

theorem kept_of_run {k k' : Kernel} {held held' : List Lock} {t n : Nat} {rax' : Int}
    {flag : Bool} (c : Syscall) (hheld : ∀ l ∈ held, l.rank < 1) (hok : k.sys.view.Ok)
    (hcur : k.sys.current = some t)
    (hrun : (Kernel.syscallDispatch c.number c.arg0 c.arg1 c.arg2).run n ⟨k, held, false⟩ =
      (.ret rax', ⟨k', held', flag⟩)) : Kernel.Kept k k' := by
  have halong : (Kernel.syscallDispatch c.number c.arg0 c.arg1 c.arg2).Along
      (fun _ _ => True) (fun _ _ => True) (fun _ s => Kernel.Kept k s.data) ⟨k, held, false⟩ := by
    rw [Kernel.syscallDispatch, Prog.along_do]
    refine Kernel.along_dispatch (t := t) c (fun _ _ _ => trivial) rfl hheld hok hcur trivial
      (fun r d hd => ?_) fun _ _ => ⟨fun _ => ⟨trivial, trivial⟩, fun _ _ _ =>
        ⟨trivial, fun _ _ => ⟨trivial, trivial⟩⟩⟩
    cases r with
    | ok value => exact hd
    | error err => exact hd
  exact halong.run hrun

/-- **The assembly refines the model.**  What is pushed is what `pushFrame` has pushed, and when
the handler returns, so does `syscallEntry`, with the same registers for the program. -/
theorem syscall_refines (m : Msrs) {dispatch : Core → Core → Prop} {Rep : Kernel → Memory → Prop}
    (habi : DispatchAbi sym dispatch) (himpl : Implements sym dispatch Rep) {c : Core}
    (hc : AtSyscall c) {k : Kernel} {held : List Lock} {t : Nat} (hrep : Rep k c.mem)
    (hheld : ∀ l ∈ held, l.rank < 1) (hok : k.sys.view.Ok) (hcur : k.sys.current = some t) :
    ∃ s, enter sym (init sym m) c = some s ∧ Holds sym (k.pushed (call c).frame) s.mem ∧
      ∀ s', dispatch s s' → ∃ c' n r k', leave sym (init sym m) s' = some c' ∧
        (Kernel.syscallEntry (call c)).run n ⟨k, held, false⟩ =
          (.ret (some r), ⟨k', held, false⟩) ∧
        c'.gpr rax = UInt64.ofInt r.rax ∧ userFrame c' = r.frame ∧ Rep k' c'.mem := by
  obtain ⟨s, henter, hargs, hkept, hrip, hflags, hcs, hrsp0, hrsp, hspells, hcell, hbytes⟩ :=
    enter_spec sym m c
  refine ⟨s, henter, ⟨hcell, ?_⟩, fun s' hdispatch => ?_⟩
  · simp only [Kernel.pushed, call, List.reverse_cons, List.reverse_nil, List.nil_append,
      List.cons_append, List.map_cons, List.map_nil, UInt64.ofNat_toNat]
    exact hspells
  have hrep' := himpl.saved k c.mem s.mem (call c).frame hrep hbytes
  obtain ⟨n, rax', k', hrun, hrax, hrep''⟩ :=
    himpl.does _ held s s' hheld hrep' (callable_of_enter sym hc henter) hdispatch
  simp only [List.cons.injEq, and_true] at hargs
  obtain ⟨hnumber, harg0, harg1, harg2, _, _⟩ := hargs
  rw [hnumber, harg0, harg1, harg2] at hrun
  have hk := kept_of_run (k := k.pushed (call c).frame) (call c) hheld hok hcur hrun
  have hstack : k'.stack = (k.pushed (call c).frame).stack := hk.stack
  have huser : k'.userRsp = (k.pushed (call c).frame).userRsp := hk.userRsp
  obtain ⟨n', hn'⟩ := Prog.run_bind_of_ret (f := fun rax' => do
    let frame ← Kernel.popFrame
    return some ({ rax := rax', frame := frame } : SysReturn)) hrun 1
  obtain ⟨c', hleave, hframe, hmem, _⟩ := leave_of_dispatch sym m habi hc henter hdispatch
  have hgpr : c'.gpr = fun r => if r ∈ pops then atEntry c r else s'.gpr r :=
    congrArg Frame.gpr hframe
  have hrsp' : c'.rsp = c.rsp := congrArg Frame.rsp hframe
  refine ⟨c', n' + 1, ⟨rax', (call c).frame⟩, k', hleave, ?_, ?_, ?_, ?_⟩
  · show ((Kernel.syscallDispatch (call c).number (call c).arg0 (call c).arg1 (call c).arg2).bind
      fun rax' => do
        let frame ← Kernel.popFrame
        return some ({ rax := rax', frame := frame } : SysReturn)).run n'
      ⟨k.pushed (call c).frame, held, false⟩ = _
    refine hn'.trans ?_
    simp only [Kernel.popFrame, Bind.bind, Prog.liftOpt, Prog.bind, Prog.run, hstack, huser,
      Kernel.pushed]
    rfl
  · rw [hgpr]
    exact hrax
  · simp only [userFrame, hgpr, hrsp']
    rfl
  · rw [hmem]
    exact hrep''

/-! ### A call of `read` -/

/-- What `__syscall_dispatch` does with a `read` of descriptor `7` that is not open. -/
def readDispatch (s s' : Core) : Prop :=
  s.gpr rdi = 5 ∧ s.gpr rsi = 7 ∧ s.gpr rdx ≠ 0 ∧ s' = answer (-9) s

theorem readDispatch_abi : DispatchAbi sampleSymbols readDispatch :=
  answer_abi fun _ _ h => ⟨-9, h.2.2.2⟩

/-- A byte of the kernel's data says whether the console hook is set.  There are files and
descriptors, of which `7` is not open, and the heap has work for none. -/
structure SampleRep (k : Kernel) (m : Memory) : Prop where
  hook : m.bytes 0xFFFF800000220000 = if k.consoleHook then 1 else 0
  fs : k.fs.isSome = true
  closed : ∃ table, k.fdTable = some table ∧ table.get 7 = none
  heapWork : ∀ n, k.heapWork n = []

theorem run_read_closed {k : Kernel} {held : List Lock} {buf len : Nat} {m : Memory}
    (hk : SampleRep k m) (hheld : ∀ l ∈ held, l.rank < 1) (hbuf : buf ≠ 0) :
    (Kernel.syscallDispatch 5 7 buf len).run 20 ⟨k, held, false⟩ =
      (.ret (-9), ⟨{ k with heapTurn := k.heapTurn + 1 }, held, false⟩) := by
  obtain ⟨fs, hfs⟩ := Option.isSome_iff_exists.mp hk.fs
  obtain ⟨table, htable, hclosed⟩ := hk.closed
  have hfsFree : Lock.kernelFs ∉ held := fun h => absurd (hheld _ h) (by decide)
  have htableFree : Lock.kernelFdTable ∉ .kernelFs :: held := by
    rw [List.mem_cons, not_or]
    exact ⟨by decide, fun h => absurd (hheld _ h) (by decide)⟩
  have hdispatch : Kernel.dispatch 5 7 buf len = Kernel.syscallRead 7 buf len := rfl
  simp [Kernel.syscallDispatch, hdispatch, Kernel.syscallRead, hbuf, Kernel.withFs,
    Kernel.withFdTable, SpinLock.guarded, SpinLock.lock, SpinLock.drop, Kernel.useHeap, Prog.lift,
    Prog.liftOpt, Prog.bind, Bind.bind, Pure.pure, Prog.run, hfsFree, htableFree, Kernel.onFiles,
    hfs, htable, hk.heapWork, Prog.each, SyscallTable.read, Files.read, hclosed, sysFd,
    SysError.errno, SysError.ofFd, Except.mapError]

theorem readDispatch_implements : Implements sampleSymbols readDispatch SampleRep where
  saved k m m' f hrep hm := by
    have hout : ¬ Written sampleSymbols 0xFFFF800000220000 := by
      unfold Written
      decide
    refine ⟨?_, hrep.fs, hrep.closed, hrep.heapWork⟩
    rw [hm _ hout]
    exact hrep.hook
  does k held s s' hheld hrep _ h := by
    obtain ⟨hrdi, hrsi, hrdx, rfl⟩ := h
    have hbuf : (s.gpr rdx).toNat ≠ 0 := fun h => hrdx (UInt64.toNat_inj.mp h)
    refine ⟨20, -9, { k with heapTurn := k.heapTurn + 1 }, ?_, rfl,
      ⟨hrep.hook, hrep.fs, hrep.closed, hrep.heapWork⟩⟩
    rw [hrdi, hrsi]
    exact run_read_closed hrep hheld hbuf

/-- A program before `read(7, ..)`. -/
def readCore : Core := { forkCore with
  gpr := fun
    | rax => 5
    | rdi => 7
    | _ => 0x602000 }

theorem readCore_atSyscall : AtSyscall readCore :=
  ⟨by decide, by decide, by decide, by decide, by decide, by decide⟩

theorem sampleRep_readCore : SampleRep KernelMachine.twoProcs.cpu.data readCore.mem :=
  ⟨rfl, rfl, ⟨_, rfl, rfl⟩, fun _ => rfl⟩

theorem syscall_refines_read : ∃ s s' c' n r k',
    enter sampleSymbols (init sampleSymbols fun _ => 0) readCore = some s ∧ readDispatch s s' ∧
    leave sampleSymbols (init sampleSymbols fun _ => 0) s' = some c' ∧
    (Kernel.syscallEntry (call readCore)).run n ⟨KernelMachine.twoProcs.cpu.data, [], false⟩ =
      (.ret (some r), ⟨k', [], false⟩) ∧
    c'.gpr rax = UInt64.ofInt r.rax ∧ userFrame c' = r.frame := by
  obtain ⟨s, henter, _, hleave⟩ := syscall_refines sampleSymbols (fun _ => 0) readDispatch_abi
    readDispatch_implements readCore_atSyscall (t := 1) sampleRep_readCore
    (fun l (hl : l ∈ []) => by cases hl) KernelMachine.booted_twoProcs.ok rfl
  obtain ⟨s₁, henter₁, hargs, _⟩ := enter_spec sampleSymbols (fun _ => 0) readCore
  obtain rfl : s = s₁ := Option.some.inj (henter.symm.trans henter₁)
  simp only [List.cons.injEq, and_true] at hargs
  have hdispatch : readDispatch s _ := ⟨hargs.1, hargs.2.1, by rw [hargs.2.2.1]; decide, rfl⟩
  obtain ⟨c', n, r, k', hc', hrun, hrax, hframe, _⟩ := hleave _ hdispatch
  exact ⟨s, _, c', n, r, k', henter, hdispatch, hc', hrun, hrax, hframe⟩

end SyscallEntry

end Zeronix
