import Zeronix.Lib.Asm
import Mathlib.Tactic.Common

/-!
# Fast system calls

What `syscall` and `sysretq` do with the registers, and the instructions that the entries of a
kernel have besides those of `Instr`.  Both are configured by model-specific registers, which are
read and written in halves.

A stub that changes to a stack of its own, saves registers there, calls a handler and takes them
back is the same for every kernel: `run_saveOn` says what it leaves in memory, and `run_pops`
brings the registers back.
-/

namespace Zeronix

open Gpr

/-! ### Model-specific registers -/

abbrev Msrs := UInt32 → UInt64

def IA32_EFER : UInt32 := 0xC0000080
def IA32_STAR : UInt32 := 0xC0000081
def IA32_LSTAR : UInt32 := 0xC0000082
def IA32_FMASK : UInt32 := 0xC0000084

namespace Msrs

/-- `rdmsr`, with `edx` and `eax`. -/
def read (m : Msrs) (msr : UInt32) : UInt32 × UInt32 := ((m msr >>> 32).toUInt32, (m msr).toUInt32)

/-- `wrmsr` of `edx` and `eax`. -/
def write (m : Msrs) (msr edx eax : UInt32) : Msrs :=
  Function.update m msr (edx.toUInt64 <<< 32 ||| eax.toUInt64)

/-- `EFER.SCE`: the instructions exist. -/
def Sce (m : Msrs) : Prop := m IA32_EFER &&& 1 = 1

instance (m : Msrs) : Decidable m.Sce := inferInstanceAs (Decidable (_ = _))

end Msrs

theorem halves_eq (v : UInt64) :
    (v >>> 32).toUInt32.toUInt64 <<< 32 ||| v.toUInt32.toUInt64 = v := by
  have hlt := v.toNat_lt
  have hor := Nat.two_pow_add_eq_or_of_lt (i := 32) (b := v.toNat % 2 ^ 32) (by omega)
    (v.toNat / 2 ^ 32)
  apply UInt64.toNat_inj.mp
  rw [UInt64.toNat_or, UInt64.toNat_shiftLeft, UInt32.toNat_toUInt64, UInt32.toNat_toUInt64,
    UInt64.toNat_toUInt32, UInt64.toNat_toUInt32, UInt64.toNat_shiftRight, Nat.shiftLeft_eq,
    Nat.shiftRight_eq_div_pow]
  simp only [UInt64.toNat_ofNat, Nat.reducePow, Nat.reduceMod] at hor ⊢
  rw [Nat.mod_eq_of_lt (a := v.toNat / 4294967296) (by omega),
    Nat.mod_eq_of_lt (by omega : v.toNat / 4294967296 * 4294967296 < 18446744073709551616),
    Nat.mul_comm, ← hor]
  omega

/-! ### The instructions -/

namespace Core

/-- Addresses that `rip` may have in 64-bit mode. -/
def Canonical (a : UInt64) : Prop := a < 0x800000000000 ∨ 0xFFFF800000000000 ≤ a

instance (a : UInt64) : Decidable (Canonical a) := inferInstanceAs (Decidable (_ ∨ _))

/-- `syscall`, which is two bytes long.  There is no such instruction without `EFER.SCE`. -/
def syscall (m : Msrs) (c : Core) : Option Core :=
  if m.Sce then some { c with
    gpr := Function.update (Function.update c.gpr rcx (c.rip + 2)) r11 c.rflags
    rip := m IA32_LSTAR
    rflags := c.rflags &&& ~~~m IA32_FMASK
    cs := m IA32_STAR >>> 32 &&& 0xFFFC
    ss := (m IA32_STAR >>> 32 &&& 0xFFFF) + 8 }
  else none

/-- `sysretq`, in ring 0.  It faults on an address that is not canonical. -/
def sysretq (m : Msrs) (c : Core) : Option Core :=
  if m.Sce ∧ c.cs &&& 3 = 0 ∧ Canonical (c.gpr rcx) then some { c with
    rip := c.gpr rcx
    rflags := c.gpr r11 &&& 0x3C7FD7 ||| 2
    cs := (m IA32_STAR >>> 48) + 16 ||| 3
    ss := (m IA32_STAR >>> 48) + 8 ||| 3 }
  else none

end Core

/-- The instructions of `Instr`, moves between registers, and those that work on the stack
pointer or jump.  The arithmetic flags, which no entry looks at, are left out. -/
inductive EntryInstr where
  | plain (i : Instr)
  /-- `mov dst, src` -/
  | mov (dst src : Gpr)
  /-- `xor r, r` -/
  | clear (r : Gpr)
  /-- `mov [label], rsp` -/
  | storeRspAt (label : UInt64)
  /-- `mov rsp, [label]` -/
  | loadRspAt (label : UInt64)
  /-- `lea rsp, [label]` -/
  | leaRsp (label : UInt64)
  /-- `mov r, [rsp + offset]` -/
  | loadStack (r : Gpr) (offset : UInt64)
  | subRsp (n : UInt64)
  | jmp (target : UInt64)
  deriving DecidableEq

namespace Core

def execEntry (c : Core) : EntryInstr → Core
  | .plain i => c.exec i
  | .mov dst src => c.setGpr dst (c.gpr src)
  | .clear r => c.setGpr r 0
  | .storeRspAt label => c.setWord label c.rsp
  | .loadRspAt label => { c with rsp := c.word label }
  | .leaRsp label => { c with rsp := label }
  | .loadStack r offset => c.setGpr r (c.word (c.rsp + offset))
  | .subRsp n => { c with rsp := c.rsp - n }
  | .jmp target => { c with rip := target }

def runEntry (c : Core) (code : List EntryInstr) : Core := code.foldl execEntry c

theorem runEntry_append (c : Core) (code code' : List EntryInstr) :
    c.runEntry (code ++ code') = (c.runEntry code).runEntry code' := List.foldl_append ..

theorem runEntry_plain (c : Core) (code : List Instr) :
    c.runEntry (code.map .plain) = c.run code := by
  induction code generalizing c with
  | nil => rfl
  | cons i code ih => exact ih (c.exec i)

end Core

/-! ### A stack of one's own -/

/-- **Registers saved on another stack**, with the old stack pointer at `cell`.  Above the new
stack pointer stands what was pushed, the last register first. -/
theorem run_saveOn {c c' : Core} {cell top : UInt64} {rs : List Gpr}
    (hcell : cell.toNat + 8 ≤ top.toNat - 8 * rs.length ∨ top.toNat ≤ cell.toNat)
    (htop : 8 * rs.length ≤ top.toNat)
    (h : c' = c.runEntry ([.storeRspAt cell, .leaRsp top] ++ (rs.map Instr.push).map .plain)) :
    c'.rsp.toNat = top.toNat - 8 * rs.length ∧
    Spells c'.mem c'.rsp.toNat (rs.map c.gpr).reverse ∧
    c'.mem.load cell.toNat = c.rsp.toNat ∧
    (∀ x, (x < top.toNat - 8 * rs.length ∨ top.toNat ≤ x) →
      (x < cell.toNat ∨ cell.toNat + 8 ≤ x) → c'.mem.bytes x = c.mem.bytes x) ∧
    c' = { c with rsp := c'.rsp, mem := c'.mem } := by
  rw [Core.runEntry_append, Core.runEntry_plain, run_pushes] at h
  have hstart : c.runEntry [.storeRspAt cell, .leaRsp top] =
      { c.setWord cell c.rsp with rsp := top } := rfl
  rw [hstart] at h
  have hlen : (rs.map c.gpr).length = rs.length := List.length_map _
  have hgpr : ({ c.setWord cell c.rsp with rsp := top } : Core).gpr = c.gpr := rfl
  rw [hgpr] at h
  have hrsp := pushWords_rsp (c := { c.setWord cell c.rsp with rsp := top }) (rs.map c.gpr)
    (by rw [hlen]; exact htop)
  have hnone : Spells (c.setWord cell c.rsp).mem top.toNat [] := trivial
  have hspells := spells_pushWords (c := { c.setWord cell c.rsp with rsp := top }) (rs.map c.gpr)
    (by rw [hlen]; exact htop) hnone
  have hbytes := fun x => pushWords_bytes (c := { c.setWord cell c.rsp with rsp := top })
    (rs.map c.gpr) (x := x) (by rw [hlen]; exact htop)
  have hrest := pushWords_rest { c.setWord cell c.rsp with rsp := top } (rs.map c.gpr)
  rw [← h] at hrsp hspells hbytes hrest
  simp only [hlen, List.append_nil] at hrsp hspells hbytes
  refine ⟨hrsp, hspells, ?_, ?_, hrest⟩
  · -- the cell is not on the stack
    have hload : c'.mem.load cell.toNat = (c.setWord cell c.rsp).mem.load cell.toNat :=
      Memory.readLE_congr fun x hx hx' => hbytes x (by omega)
    rw [hload]
    exact load_store_word _ _ _
  · intro x hx hx'
    rw [hbytes x hx]
    exact bytes_store hx'

end Zeronix
