import Zeronix.Lib.Asm
import Zeronix.Task.Proc

/-!
# Saved registers

The assembly of `src/trap/idt.rs` and `src/task/proc.rs` that saves and restores registers, as it
is written there: the stub of an interrupt up to the call of its handler and from there to
`iretq`, `__switch_context` and `__enter_user`.
-/

namespace Zeronix

open Gpr Instr

/-- Addresses in the code of the kernel. -/
structure Symbols where
  irqStub : UInt64
  irqHandler : UInt64
  /-- After the call of the handler in the stub. -/
  irqReturn : UInt64
  /-- The label `1` of `__switch_context`. -/
  switchReturn : UInt64
  userTaskBootstrap : UInt64
  kernelTaskBootstrap : UInt64
  user_ne : userTaskBootstrap ≠ switchReturn
  kernel_ne : kernelTaskBootstrap ≠ switchReturn
  bootstrap_ne : userTaskBootstrap ≠ kernelTaskBootstrap

def KERNEL_CODE_SELECTOR : UInt64 := 0x08
def IRQ_BASE : UInt64 := 32

/-! ### The stub of an interrupt -/

def irqPushes : List Gpr :=
  [rax, rcx, rdx, rbx, rbp, rsi, rdi, r8, r9, r10, r11, r12, r13, r14, r15]

def irqPops : List Gpr :=
  [r15, r14, r13, r12, r11, r10, r9, r8, rdi, rsi, rbp, rbx, rdx, rcx, rax]

/-- `IRQ_STUB`, up to the handler. -/
def irqStubEntry (sym : Symbols) (vector : UInt64) : List Instr :=
  [cld] ++ irqPushes.map push ++
    [movFromRsp rbx, andRsp (-16), movImm rdi vector, call sym.irqHandler sym.irqReturn]

/-- `IRQ_STUB`, after the handler. -/
def irqStubExit : List Instr := [movToRsp rbx] ++ (irqPops.map pop ++ [iretq])

/-! ### Contexts -/

structure Context where
  r15 : UInt64
  r14 : UInt64
  r13 : UInt64
  r12 : UInt64
  rbx : UInt64
  rbp : UInt64
  rsp : UInt64
  rip : UInt64
  deriving DecidableEq, Repr

/-- The fields as they stand in memory. -/
def Context.words (c : Context) : List UInt64 :=
  [c.r15, c.r14, c.r13, c.r12, c.rbx, c.rbp, c.rsp, c.rip]

def Context.SIZE : Nat := 64

/-- The registers of a context. -/
def Core.context (c : Core) : Context where
  r15 := c.gpr r15
  r14 := c.gpr r14
  r13 := c.gpr r13
  r12 := c.gpr r12
  rbx := c.gpr rbx
  rbp := c.gpr rbp
  rsp := c.rsp
  rip := c.rip

/-- The first half of `__switch_context`. -/
def saveContext (sym : Symbols) : List Instr := [
  store rdi 0 r15,
  store rdi 8 r14,
  store rdi 16 r13,
  store rdi 24 r12,
  store rdi 32 rbx,
  store rdi 40 rbp,
  storeRsp rdi 48,
  leaRip rax sym.switchReturn,
  store rdi 56 rax]

/-- The second half, up to its jump. -/
def loadContext : List Instr := [
  load r15 rsi 0,
  load r14 rsi 8,
  load r13 rsi 16,
  load r12 rsi 24,
  load rbx rsi 32,
  load rbp rsi 40,
  loadRsp rsi 48,
  jmpMem rsi 56]

/-- `__switch_context`.  After the jump, and at the label `1`, a `ret` is left. -/
def switchContext (sym : Symbols) : List Instr := saveContext sym ++ loadContext

/-! ### Entering user mode -/

def enterPops : List Gpr :=
  [r15, r14, r13, r12, r11, r10, r9, r8, rdi, rsi, rbp, rdx, rcx, rbx, rax]

/-- `__enter_user`. -/
def enterUser : List Instr := [movToRsp rdi] ++ (enterPops.map pop ++ [iretq])

/-- The fields of a `TrapFrame` as they stand in memory. -/
def Frame.trapWords (f : Frame) : List UInt64 := enterPops.map f.gpr ++ f.iretWords

theorem Frame.trapWords_inj {f f' : Frame} (h : f.trapWords = f'.trapWords) : f = f' := by
  obtain ⟨hgpr, hrest⟩ := List.append_inj h rfl
  have hregs : f.gpr = f'.gpr := by
    funext r
    have hin : r ∈ enterPops := by cases r <;> decide
    exact List.map_inj_left.mp hgpr r hin
  simp only [Frame.iretWords, List.cons.injEq, and_true] at hrest
  obtain ⟨hrip, hcs, hflags, hrsp, hss⟩ := hrest
  exact Frame.ext hregs hrip hcs hflags hrsp hss

/-- `TrapFrame::new_user`. -/
def TrapFrame.newUserFrame (rip rsp : UInt64) : Frame where
  gpr _ := 0
  rip := rip
  cs := UInt64.ofNat USER_CODE_SELECTOR
  rflags := 0x202
  rsp := rsp
  ss := UInt64.ofNat USER_DATA_SELECTOR

theorem TrapFrame.newUser_eq (rip rsp : UInt64) :
    TrapFrame.newUser rip.toNat rsp.toNat =
      (TrapFrame.newUserFrame rip rsp).trapWords.map UInt64.toNat := rfl

/-! ### What the assembly does -/

theorem run_irqStubEntry (sym : Symbols) {c c' : Core} {f : Frame} {base : Nat} {vector : UInt64}
    (hgpr : c.gpr = f.gpr) (hsp : c.rsp.toNat + 40 = base) (halign : base % 16 = 0)
    (hroom : 256 ≤ base) (hspells : Spells c.mem c.rsp.toNat f.iretWords)
    (h : c' = c.run (irqStubEntry sym vector)) :
    (c'.gpr rbx).toNat + 160 = base ∧
    Spells c'.mem (c'.gpr rbx).toNat (irqPops.map f.gpr ++ f.iretWords) ∧
    c'.rsp.toNat + 168 = base ∧
    (∀ x, x < c'.rsp.toNat ∨ c.rsp.toNat ≤ x → c'.mem.bytes x = c.mem.bytes x) ∧
    c' = { c with
      gpr := Function.update (Function.update f.gpr rbx (c'.gpr rbx)) rdi vector
      rsp := c'.rsp
      rip := sym.irqHandler
      rflags := c.rflags &&& ~~~0x400
      mem := c'.mem } := by
  rw [irqStubEntry, List.append_assoc, run_append, run_append, run_pushes] at h
  -- `cld` changes nothing that matters for the stack
  generalize hc₁ : c.run [cld] = c₁ at h
  have hgpr₁ : c₁.gpr = f.gpr := by rw [← hgpr, ← hc₁]; rfl
  have hsp₁ : c₁.rsp = c.rsp := by rw [← hc₁]; rfl
  have hmem₁ : c₁.mem = c.mem := by rw [← hc₁]; rfl
  have hlen : (irqPushes.map f.gpr).length = 15 := rfl
  rw [hgpr₁] at h
  rw [← hsp₁] at hsp hspells
  rw [← hmem₁] at hspells
  have hsp₂ := pushWords_rsp (c := c₁) (irqPushes.map f.gpr) (by omega)
  have hspells₂ := spells_pushWords (c := c₁) (irqPushes.map f.gpr) (by omega) hspells
  have hrest := pushWords_rest c₁ (irqPushes.map f.gpr)
  have hbytes : ∀ x, x < c₁.rsp.toNat - 120 ∨ c₁.rsp.toNat ≤ x →
      (c₁.pushWords (irqPushes.map f.gpr)).mem.bytes x = c.mem.bytes x := by
    intro x hx
    rw [pushWords_bytes _ (by omega) (by omega), hmem₁]
  generalize c₁.pushWords (irqPushes.map f.gpr) = c₂ at *
  -- the stack pointer is at a multiple of 16 already
  have hmask : (-16 : UInt64) = ~~~15 := by decide
  have haligned : (c₂.rsp &&& -16).toNat = c₂.rsp.toNat := by
    rw [hmask, toNat_and_not_fifteen]
    omega
  have hcall := pushWord_rsp sym.irqReturn (c := { c₂ with
    gpr := Function.update (Function.update c₂.gpr rbx c₂.rsp) rdi vector
    rsp := c₂.rsp &&& -16 }) (by show 8 ≤ (c₂.rsp &&& -16).toNat; omega)
  have hrsp : c'.rsp.toNat = c₂.rsp.toNat - 8 := by
    rw [h, ← haligned]
    exact hcall
  have hbytes' : ∀ x, x < c₂.rsp.toNat - 8 ∨ c₂.rsp.toNat ≤ x → c'.mem.bytes x = c₂.mem.bytes x := by
    intro x hx
    rw [h]
    refine pushWord_bytes sym.irqReturn (c := { c₂ with
      gpr := Function.update (Function.update c₂.gpr rbx c₂.rsp) rdi vector
      rsp := c₂.rsp &&& -16 }) ?_ ?_
    · show 8 ≤ (c₂.rsp &&& -16).toNat
      omega
    · show x < (c₂.rsp &&& -16).toNat - 8 ∨ (c₂.rsp &&& -16).toNat ≤ x
      omega
  have hrbx : c'.gpr rbx = c₂.rsp := by
    rw [h]
    rfl
  rw [hrbx]
  refine ⟨by omega, ?_, by omega, fun x hx => ?_, ?_⟩
  · exact hspells₂.congr fun x hx _ => hbytes' x (.inr hx)
  · have hstart : c₁.rsp.toNat = c.rsp.toNat := congrArg UInt64.toNat hsp₁
    rw [hbytes' x (by omega), hbytes x (by omega)]
  · have hgpr₂ : c₂.gpr = f.gpr := by rw [hrest, ← hgpr₁]
    rw [← hgpr₂, h, hrest, ← hc₁]
    rfl

/-- **The stub saves all registers** below the frame of the interrupt, and has `rbx` at them. -/
theorem irqStubEntry_spec (sym : Symbols) {c c' : Core} (hroom : 256 ≤ c.frameBase.toNat)
    (h : c' = (c.interrupt KERNEL_CODE_SELECTOR sym.irqStub).run (irqStubEntry sym IRQ_BASE)) :
    (c'.gpr rbx).toNat + 160 = c.frameBase.toNat ∧
    Spells c'.mem (c'.gpr rbx).toNat (irqPops.map c.gpr ++ c.frame.iretWords) ∧
    c'.rsp.toNat + 8 ≤ (c'.gpr rbx).toNat ∧
    c.frameBase.toNat ≤ c'.rsp.toNat + 256 ∧
    (∀ x, x < c'.rsp.toNat ∨ c.frameBase.toNat ≤ x → c'.mem.bytes x = c.mem.bytes x) ∧
    c'.rsp0 = c.rsp0 := by
  obtain ⟨hsp₁, hspells₁, hbytes₁, hgpr₁, hrsp0₁⟩ :=
    interrupt_spec KERNEL_CODE_SELECTOR sym.irqStub (c := c) (by omega)
  have hbase : c.frameBase.toNat = (if c.userMode then c.rsp0 else c.rsp).toNat / 16 * 16 :=
    toNat_and_not_fifteen _
  obtain ⟨hrbx, hspells, hrsp, hbytes, hrest⟩ :=
    run_irqStubEntry sym (f := c.frame) hgpr₁ (by omega) (by omega) hroom hspells₁ h
  refine ⟨hrbx, hspells, by omega, by omega, fun x hx => ?_, ?_⟩
  · rw [hbytes x (by omega), hbytes₁ x (by omega)]
  · rw [hrest]
    exact hrsp0₁

theorem run_saveContext (sym : Symbols) {c : Core}
    (h : (c.gpr rdi).toNat + Context.SIZE ≤ 2 ^ 64) :
    c.run (saveContext sym) = { c with
      gpr := Function.update c.gpr rax sym.switchReturn
      mem := storeWords c.mem (c.gpr rdi).toNat
        { c.context with rip := sym.switchReturn }.words } := by
  have hsize : Context.SIZE = 64 := rfl
  have hadd : ∀ {y : UInt64} {n : Nat}, y.toNat = n → n < 64 →
      (c.gpr rdi + y).toNat = (c.gpr rdi).toNat + n := fun hy hn => toNat_add_ofNat hy (by omega)
  have h0 := hadd (y := 0) (n := 0) rfl (by decide)
  have h8 := hadd (y := 8) (n := 8) rfl (by decide)
  have h16 := hadd (y := 16) (n := 8 + 8) rfl (by decide)
  have h24 := hadd (y := 24) (n := 8 + 8 + 8) rfl (by decide)
  have h32 := hadd (y := 32) (n := 8 + 8 + 8 + 8) rfl (by decide)
  have h40 := hadd (y := 40) (n := 8 + 8 + 8 + 8 + 8) rfl (by decide)
  have h48 := hadd (y := 48) (n := 8 + 8 + 8 + 8 + 8 + 8) rfl (by decide)
  have h56 := hadd (y := 56) (n := 8 + 8 + 8 + 8 + 8 + 8 + 8) rfl (by decide)
  simp only [← Nat.add_assoc, Nat.add_zero] at h0 h16 h24 h32 h40 h48 h56
  have hne : rdi ≠ rax := by decide
  simp only [Core.run, saveContext, List.foldl, Core.exec, Core.setWord, Core.setGpr,
    Function.update_self, Function.update_of_ne hne, storeWords, Context.words, Core.context]
  rw [h0, h8, h16, h24, h32, h40, h48, h56]

theorem run_loadContext {c : Core} {s : Context} (h : (c.gpr rsi).toNat + Context.SIZE ≤ 2 ^ 64)
    (hs : Spells c.mem (c.gpr rsi).toNat s.words) :
    (c.run loadContext).context = s ∧ (c.run loadContext).mem = c.mem ∧
      (c.run loadContext).rsp0 = c.rsp0 := by
  have hsize : Context.SIZE = 64 := rfl
  obtain ⟨h0, h8, h16, h24, h32, h40, h48, h56, _⟩ := hs
  have hword : ∀ {y w : UInt64} {n : Nat}, y.toNat = n → n < 64 →
      c.mem.load ((c.gpr rsi).toNat + n) = w.toNat →
      UInt64.ofNat (c.mem.load (c.gpr rsi + y).toNat) = w := by
    intro y w n hy hn hw
    rw [toNat_add_ofNat hy (by omega), hw, UInt64.ofNat_toNat]
  refine ⟨?_, rfl, rfl⟩
  simp only [Core.run, loadContext, List.foldl, Core.exec, Core.setGpr, Core.word, Core.context,
    Function.update_self, ne_eq, reduceCtorEq, not_false_eq_true, Function.update_of_ne]
  rw [hword (n := 0) rfl (by decide) h0, hword (n := 8) rfl (by decide) h8,
    hword (n := 16) rfl (by decide) h16, hword (n := 24) rfl (by decide) h24,
    hword (n := 32) rfl (by decide) h32, hword (n := 40) rfl (by decide) h40,
    hword (n := 48) rfl (by decide) h48, hword (n := 56) rfl (by decide) h56]

/-- **A switch** saves the context of one task, loads that of another and jumps to it. -/
theorem switchContext_spec (sym : Symbols) {c c' : Core} {s : Context}
    (hold : (c.gpr rdi).toNat + Context.SIZE ≤ 2 ^ 64)
    (hnew : (c.gpr rsi).toNat + Context.SIZE ≤ 2 ^ 64)
    (hdisj : (c.gpr rdi).toNat + Context.SIZE ≤ (c.gpr rsi).toNat ∨
      (c.gpr rsi).toNat + Context.SIZE ≤ (c.gpr rdi).toNat)
    (hs : Spells c.mem (c.gpr rsi).toNat s.words) (h : c' = c.run (switchContext sym)) :
    c'.context = s ∧
    Spells c'.mem (c.gpr rdi).toNat { c.context with rip := sym.switchReturn }.words ∧
    (∀ x, x < (c.gpr rdi).toNat ∨ (c.gpr rdi).toNat + Context.SIZE ≤ x →
      c'.mem.bytes x = c.mem.bytes x) ∧
    c'.rsp0 = c.rsp0 := by
  have hsize : Context.SIZE = 64 := rfl
  rw [switchContext, run_append] at h
  have hsave := run_saveContext sym hold
  generalize c.run (saveContext sym) = c₁ at h hsave
  have hrsi : c₁.gpr rsi = c.gpr rsi := by
    rw [hsave]
    exact Function.update_of_ne (show rsi ≠ rax by decide) sym.switchReturn c.gpr
  have hmem₁ := congrArg Core.mem hsave
  have hrsp0₁ := congrArg Core.rsp0 hsave
  have hbytes : ∀ x, x < (c.gpr rdi).toNat ∨ (c.gpr rdi).toNat + Context.SIZE ≤ x →
      c₁.mem.bytes x = c.mem.bytes x := by
    intro x hx
    rw [hmem₁]
    exact bytes_storeWords hx
  have hs₁ : Spells c₁.mem (c₁.gpr rsi).toNat s.words := by
    have hlen : s.words.length = 8 := rfl
    rw [hrsi]
    exact hs.congr fun x hx hx' => hbytes x (by omega)
  obtain ⟨hcontext, hmem, hrsp0⟩ := run_loadContext (hrsi ▸ hnew) hs₁
  rw [← h] at hcontext hmem hrsp0
  rw [hmem]
  refine ⟨hcontext, ?_, hbytes, hrsp0.trans hrsp0₁⟩
  rw [hmem₁]
  exact spells_storeWords _ _ _

/-- **The end of the stub** gives back what is saved at `rbx`. -/
theorem irqStubExit_spec {c : Core} {f : Frame} (hsp : (c.gpr rbx).toNat + 160 ≤ 2 ^ 64)
    (h : Spells c.mem (c.gpr rbx).toNat (irqPops.map f.gpr ++ f.iretWords)) :
    (c.run irqStubExit).frame = f := by
  rw [irqStubExit, run_append]
  refine iretq_pops (fun r => ?_) h ?_
  · cases r <;> decide
  · exact hsp

/-- **Entering user mode** gives the values of the trap frame at `rdi`. -/
theorem enterUser_spec {c : Core} {f : Frame} (hsp : (c.gpr rdi).toNat + 160 ≤ 2 ^ 64)
    (h : Spells c.mem (c.gpr rdi).toNat f.trapWords) : (c.run enterUser).frame = f := by
  rw [enterUser, run_append]
  refine iretq_pops (fun r => ?_) h ?_
  · cases r <;> decide
  · exact hsp

end Zeronix
