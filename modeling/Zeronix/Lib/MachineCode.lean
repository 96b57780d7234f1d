import Zeronix.Lib.Asm
import Mathlib.Data.List.Forall2
import Mathlib.Tactic.Common

/-!
# Machine code of small programs

Some instructions of x86-64 with their encodings, and a CPU in user mode that fetches them from
memory.  What a system call does is a parameter.

A straight program is a list of instructions without jumps and an endless loop behind it.
`Tracked.run` goes through the list once, with what is known of the registers, and collects what
the program asks of the kernel.  `Straight.run` says that this is what a CPU does that runs the
encoding of the list: after `n` steps it has made the requests of the first `n` instructions and
no others, it is at an instruction, and from the end of the list on it stays in the loop.
-/

namespace Zeronix

open Gpr

/-! ### Encodings -/

inductive UserInstr where
  /-- `mov r32, imm32` -/
  | movImm (r : Gpr) (imm : UInt32)
  /-- `lea r, [rip + disp]` -/
  | leaRip (r : Gpr) (disp : UInt32)
  /-- `xor r32, r32` -/
  | zero (r : Gpr)
  | syscall
  /-- `jmp` by `disp` from the next instruction on -/
  | jmpShort (disp : UInt8)
  deriving DecidableEq, Repr

/-- The number of a register in an encoding. -/
def Gpr.number : Gpr → UInt8
  | rax => 0
  | rcx => 1
  | rdx => 2
  | rbx => 3
  | rbp => 5
  | rsi => 6
  | rdi => 7
  | r8 => 8
  | r9 => 9
  | r10 => 10
  | r11 => 11
  | r12 => 12
  | r13 => 13
  | r14 => 14
  | r15 => 15

/-- The register of a number that has three bits. -/
def Gpr.ofNumber (n : UInt8) : Option Gpr :=
  [rax, rcx, rdx, rbx, rbp, rsi, rdi].find? fun r => r.number == n

/-- Four bytes, lowest first. -/
def le32 (v : UInt32) : List UInt8 :=
  [.ofNat v.toNat, .ofNat (v.toNat / 256), .ofNat (v.toNat / 65536), .ofNat (v.toNat / 16777216)]

/-- The number that the four bytes from `k` on spell. -/
def imm32 (f : Nat → UInt8) (k : Nat) : UInt32 :=
  .ofNat ((f k).toNat + 256 * (f (k + 1)).toNat + 65536 * (f (k + 2)).toNat +
    16777216 * (f (k + 3)).toNat)

theorem imm32_eq {f : Nat → UInt8} {k : Nat} {v : UInt32}
    (h : [f k, f (k + 1), f (k + 2), f (k + 3)] = le32 v) : imm32 f k = v := by
  have hv := v.toNat_lt
  simp only [le32, List.cons.injEq, and_true] at h
  obtain ⟨h₀, h₁, h₂, h₃⟩ := h
  apply UInt32.toNat_inj.mp
  rw [imm32, h₀, h₁, h₂, h₃, UInt32.toNat_ofNat']
  simp only [UInt8.toNat_ofNat']
  omega

namespace UserInstr

/-- The instruction has an encoding without a prefix for its register. -/
def Short : UserInstr → Prop
  | movImm r _ => r.number < 8
  | leaRip r _ => r.number < 8
  | zero r => r.number < 8
  | syscall => True
  | jmpShort _ => True

instance (i : UserInstr) : Decidable i.Short := by
  cases i <;> unfold Short <;> infer_instance

def encode : UserInstr → List UInt8
  | movImm r imm => (0xb8 + r.number) :: le32 imm
  | leaRip r disp => 0x48 :: 0x8d :: (0x05 + 8 * r.number) :: le32 disp
  | zero r => [0x31, 0xc0 + 9 * r.number]
  | syscall => [0x0f, 0x05]
  | jmpShort disp => [0xeb, disp]

/-- The two registers of a ModR/M byte. -/
def modrmReg (b : UInt8) : UInt8 := (b >>> 3) &&& 7

def modrmRm (b : UInt8) : UInt8 := b &&& 7

/-- The instruction at the start of a stream of bytes, and how long it is. -/
def decode (f : Nat → UInt8) : Option (UserInstr × Nat) :=
  if f 0 &&& 0xf8 = 0xb8 then (ofNumber (f 0 &&& 7)).map fun r => (movImm r (imm32 f 1), 5)
  else if f 0 = 0x48 ∧ f 1 = 0x8d ∧ f 2 &&& 0xc7 = 0x05 then
    (ofNumber (modrmReg (f 2))).map fun r => (leaRip r (imm32 f 3), 7)
  else if f 0 = 0x31 ∧ f 1 &&& 0xc0 = 0xc0 ∧ modrmReg (f 1) = modrmRm (f 1) then
    (ofNumber (modrmRm (f 1))).map fun r => (zero r, 2)
  else if f 0 = 0x0f ∧ f 1 = 0x05 then some (syscall, 2)
  else if f 0 = 0xeb then some (jmpShort (f 1), 2)
  else none

/-- **What was encoded is decoded.** -/
theorem decode_encode {i : UserInstr} (hi : i.Short) {f : Nat → UInt8}
    (h : ∀ k, k < i.encode.length → f k = i.encode.getD k 0) :
    decode f = some (i, i.encode.length) := by
  cases i with
  | movImm r imm =>
    have hr : r.number < 8 := hi
    have h₀ : f 0 = 0xb8 + r.number := h 0 (by simp [encode])
    have himm : imm32 f 1 = imm := imm32_eq (by
      rw [h 1 (by simp [encode, le32]), h 2 (by simp [encode, le32]),
        h 3 (by simp [encode, le32]), h 4 (by simp [encode, le32])]
      rfl)
    have hop : f 0 &&& 0xf8 = 0xb8 ∧ ofNumber (f 0 &&& 7) = some r := by
      rw [h₀]
      cases r <;> first | exact ⟨rfl, rfl⟩ | exact absurd hr (by decide)
    rw [decode, if_pos hop.1, hop.2, himm]
    rfl
  | leaRip r disp =>
    have hr : r.number < 8 := hi
    have h₀ : f 0 = 0x48 := h 0 (by simp [encode])
    have h₁ : f 1 = 0x8d := h 1 (by simp [encode])
    have h₂ : f 2 = 0x05 + 8 * r.number := h 2 (by simp [encode])
    have himm : imm32 f 3 = disp := imm32_eq (by
      rw [h 3 (by simp [encode, le32]), h 4 (by simp [encode, le32]),
        h 5 (by simp [encode, le32]), h 6 (by simp [encode, le32])]
      rfl)
    have hmodrm : f 2 &&& 0xc7 = 0x05 ∧ ofNumber (modrmReg (f 2)) = some r := by
      rw [h₂]
      cases r <;> first | exact ⟨rfl, rfl⟩ | exact absurd hr (by decide)
    rw [decode, if_neg (by rw [h₀]; decide), if_pos ⟨h₀, h₁, hmodrm.1⟩, hmodrm.2, himm]
    rfl
  | zero r =>
    have hr : r.number < 8 := hi
    have h₀ : f 0 = 0x31 := h 0 (by simp [encode])
    have h₁ : f 1 = 0xc0 + 9 * r.number := h 1 (by simp [encode])
    have hmodrm : f 1 &&& 0xc0 = 0xc0 ∧ modrmReg (f 1) = modrmRm (f 1) ∧
        ofNumber (modrmRm (f 1)) = some r := by
      rw [h₁]
      cases r <;> first | exact ⟨rfl, rfl, rfl⟩ | exact absurd hr (by decide)
    rw [decode, if_neg (by rw [h₀]; decide), if_neg fun h => absurd (h₀.symm.trans h.1) (by decide),
      if_pos ⟨h₀, hmodrm.1, hmodrm.2.1⟩, hmodrm.2.2]
    rfl
  | syscall =>
    have h₀ : f 0 = 0x0f := h 0 (by simp [encode])
    have h₁ : f 1 = 0x05 := h 1 (by simp [encode])
    rw [decode, if_neg (by rw [h₀]; decide), if_neg fun h => absurd (h₀.symm.trans h.1) (by decide),
      if_neg fun h => absurd (h₀.symm.trans h.1) (by decide), if_pos ⟨h₀, h₁⟩]
    rfl
  | jmpShort disp =>
    have h₀ : f 0 = 0xeb := h 0 (by simp [encode])
    have h₁ : f 1 = disp := h 1 (by simp [encode])
    rw [decode, if_neg (by rw [h₀]; decide), if_neg fun h => absurd (h₀.symm.trans h.1) (by decide),
      if_neg fun h => absurd (h₀.symm.trans h.1) (by decide),
      if_neg fun h => absurd (h₀.symm.trans h.1) (by decide), if_pos h₀, h₁]
    rfl

end UserInstr

/-! ### The CPU -/

/-- What a program asks of the kernel. -/
structure Request where
  number : UInt64
  arg0 : UInt64
  arg1 : UInt64
  arg2 : UInt64
  deriving DecidableEq, Repr

/-- A displacement of four bytes. -/
def signed32 (d : UInt32) : UInt64 :=
  if d < 0x80000000 then d.toUInt64 else d.toUInt64 + 0xFFFFFFFF00000000

/-- A displacement of one byte. -/
def signed8 (d : UInt8) : UInt64 :=
  if d < 0x80 then d.toUInt64 else d.toUInt64 + 0xFFFFFFFFFFFFFF00

namespace Core

/-- The bytes from `rip` on. -/
def fetch (c : Core) (k : Nat) : UInt8 := c.mem.bytes (c.rip + .ofNat k).toNat

def request (c : Core) : Request := ⟨c.gpr rax, c.gpr rdi, c.gpr rsi, c.gpr rdx⟩

/-- An instruction other than `syscall`, with the address of the next one.  `xor` sets the flags
of a zero. -/
def execUser (c : Core) (next : UInt64) : UserInstr → Core
  | .movImm r imm => { c.setGpr r imm.toUInt64 with rip := next }
  | .leaRip r disp => { c.setGpr r (next + signed32 disp) with rip := next }
  | .zero r => { c.setGpr r 0 with rip := next, rflags := c.rflags &&& ~~~0x8D5 ||| 0x44 }
  | .syscall => c
  | .jmpShort disp => { c with rip := next + signed8 disp }

end Core

/-- One instruction, with the request that it makes.  `K` is what the kernel does with a
request. -/
inductive UserStep (K : Core → Core → Prop) (c : Core) : List Request → Core → Prop
  | plain (i : UserInstr) (n : Nat) : UserInstr.decode c.fetch = some (i, n) → i ≠ .syscall →
      UserStep K c [] (c.execUser (c.rip + .ofNat n) i)
  | call (n : Nat) (c' : Core) : UserInstr.decode c.fetch = some (.syscall, n) → K c c' →
      UserStep K c [c.request] c'

/-- `n` instructions, with all requests that they make. -/
inductive UserRun (K : Core → Core → Prop) (c : Core) : Nat → List Request → Core → Prop
  | refl : UserRun K c 0 [] c
  | tail {n : Nat} {rs rs' : List Request} {c' c'' : Core} : UserRun K c n rs c' →
      UserStep K c' rs' c'' → UserRun K c (n + 1) (rs ++ rs') c''

/-- The bytes stand in memory from `a` on. -/
structure CodeAt (m : Memory) (a : UInt64) (bytes : List UInt8) : Prop where
  lt : a.toNat + bytes.length < 2 ^ 64
  bytes : ∀ k < bytes.length, m.bytes (a.toNat + k) = bytes.getD k 0

/-- What programs rely on when they make a request: the kernel goes on behind the `syscall` and
leaves the code and all registers but the clobbered ones alone, if the program is in a state of
`U`. -/
structure KernelAbi (K : Core → Core → Prop) (U : Core → Prop) (clobbered : List Gpr)
    (a : UInt64) (n : Nat) : Prop where
  rip : ∀ c c', U c → a ≤ c.rip → c.rip.toNat + 2 ≤ a.toNat + n → K c c' → c'.rip = c.rip + 2
  gpr : ∀ c c', U c → a ≤ c.rip → c.rip.toNat + 2 ≤ a.toNat + n → K c c' →
    ∀ r, r ∉ clobbered → c'.gpr r = c.gpr r
  bytes : ∀ c c', U c → a ≤ c.rip → c.rip.toNat + 2 ≤ a.toNat + n → K c c' →
    ∀ k < n, c'.mem.bytes (a.toNat + k) = c.mem.bytes (a.toNat + k)
  user : ∀ c c', U c → a ≤ c.rip → c.rip.toNat + 2 ≤ a.toNat + n → K c c' → U c'

/-! ### Going through a program -/

/-- A request as far as it is known. -/
structure Expected where
  number : Option UInt64
  arg0 : Option UInt64
  arg1 : Option UInt64
  arg2 : Option UInt64

/-- The request is as expected. -/
structure Expected.Met (e : Expected) (r : Request) : Prop where
  number : ∀ v, e.number = some v → r.number = v
  arg0 : ∀ v, e.arg0 = some v → r.arg0 = v
  arg1 : ∀ v, e.arg1 = some v → r.arg1 = v
  arg2 : ∀ v, e.arg2 = some v → r.arg2 = v

theorem Expected.of_getElem {es : List Expected} {rs : List Request}
    (h : List.Forall₂ Expected.Met es rs) {k : Nat} {r : Request} (hr : rs[k]? = some r) :
    ∃ e, es[k]? = some e ∧ e.Met r := by
  induction h generalizing k with
  | nil => cases hr
  | @cons e r' es rs he _ ih =>
    cases k with
    | zero =>
      obtain rfl : r' = r := Option.some.inj hr
      exact ⟨e, rfl, he⟩
    | succ k => exact ih hr

theorem Expected.of_take {es : List Expected} {rs : List Request} {j : Nat}
    (h : List.Forall₂ Expected.Met (es.take j) rs) {k : Nat} {r : Request} (hr : rs[k]? = some r) :
    ∃ e, es[k]? = some e ∧ e.Met r := by
  obtain ⟨e, he, hmet⟩ := Expected.of_getElem h hr
  rw [List.getElem?_take] at he
  split at he
  · exact ⟨e, he, hmet⟩
  · cases he

/-- What is known of the registers, where the program is, and what it has asked for. -/
structure Tracked where
  known : Gpr → Option UInt64
  rip : UInt64
  requests : List Expected

namespace Tracked

/-- Nothing is known of a program that starts. -/
def start (a : UInt64) : Tracked := ⟨fun _ => none, a, []⟩

def learn (t : Tracked) (r : Gpr) (v next : UInt64) : Tracked :=
  { t with known := Function.update t.known r (some v), rip := next }

def step (clobbered : List Gpr) (t : Tracked) (i : UserInstr) : Tracked :=
  let next := t.rip + .ofNat i.encode.length
  match i with
  | .movImm r imm => t.learn r imm.toUInt64 next
  | .leaRip r disp => t.learn r (next + signed32 disp) next
  | .zero r => t.learn r 0 next
  | .syscall => {
      known := fun r => if r ∈ clobbered then none else t.known r
      rip := next
      requests := t.requests ++ [⟨t.known rax, t.known rdi, t.known rsi, t.known rdx⟩] }
  | .jmpShort disp => { t with rip := next + signed8 disp }

def run (clobbered : List Gpr) (t : Tracked) (is : List UserInstr) : Tracked :=
  is.foldl (step clobbered) t

/-- The CPU is where it was expected, knows what was known and has asked for what was expected. -/
structure Matches (t : Tracked) (c : Core) (rs : List Request) : Prop where
  rip : c.rip = t.rip
  known : ∀ r v, t.known r = some v → c.gpr r = v
  requests : List.Forall₂ Expected.Met t.requests rs

theorem matches_start (c : Core) : Matches (start c.rip) c [] := by
  refine ⟨rfl, fun r v hv => ?_, .nil⟩
  cases hv

variable {t : Tracked} {c : Core} {rs : List Request}

theorem Matches.met (h : Matches t c rs) :
    Expected.Met ⟨t.known rax, t.known rdi, t.known rsi, t.known rdx⟩ c.request :=
  ⟨h.known rax, h.known rdi, h.known rsi, h.known rdx⟩

theorem Matches.learn (h : Matches t c rs) {r : Gpr} {v next : UInt64} {c' : Core}
    (hgpr : c'.gpr = Function.update c.gpr r v) (hrip : c'.rip = next) :
    Matches (t.learn r v next) c' rs := by
  refine ⟨hrip, fun r' v' hv => ?_, h.requests⟩
  rw [hgpr]
  by_cases hr : r' = r
  · subst hr
    have hknown : (t.learn r' v next).known r' = some v := Function.update_self ..
    rw [hknown] at hv
    rw [Function.update_self]
    exact Option.some.inj hv
  · have hknown : (t.learn r v next).known r' = t.known r' := Function.update_of_ne hr ..
    rw [hknown] at hv
    rw [Function.update_of_ne hr]
    exact h.known r' v' hv

/-- **One instruction.** -/
theorem Matches.step {K : Core → Core → Prop} {clobbered : List Gpr} {i : UserInstr}
    {rs' : List Request} {c' : Core} (h : Matches t c rs)
    (hi : UserInstr.decode c.fetch = some (i, i.encode.length))
    (hK : i = .syscall → K c c' → c'.rip = c.rip + 2 ∧ ∀ r, r ∉ clobbered → c'.gpr r = c.gpr r)
    (hstep : UserStep K c rs' c') : Matches (t.step clobbered i) c' (rs ++ rs') := by
  cases hstep with
  | plain j n hj hne =>
    rw [hi] at hj
    cases hj
    rw [List.append_nil]
    rw [h.rip]
    cases i with
    | movImm r imm => exact h.learn rfl rfl
    | leaRip r disp => exact h.learn rfl rfl
    | zero r => exact h.learn rfl rfl
    | syscall => exact absurd rfl hne
    | jmpShort disp => exact ⟨rfl, h.known, h.requests⟩
  | call n c' hj hkernel =>
    rw [hi] at hj
    cases hj
    obtain ⟨hrip, hgpr⟩ := hK rfl hkernel
    refine ⟨?_, fun r v hv => ?_, ?_⟩
    · rw [hrip, h.rip]
      rfl
    · have hknown : (if r ∈ clobbered then none else t.known r) = some v := hv
      split at hknown
      · cases hknown
      · rename_i hr
        rw [hgpr r hr]
        exact h.known r v hknown
    · exact List.rel_append h.requests (.cons h.met .nil)

end Tracked

/-! ### Straight programs -/

/-- The instructions are short and do not jump. -/
def Straight (body : List UserInstr) : Prop := ∀ i ∈ body, i.Short ∧ ∀ disp, i ≠ .jmpShort disp

/-- The code of a program: its instructions and a jump to itself. -/
def straightCode (body : List UserInstr) : List UserInstr := body ++ [.jmpShort 0xfe]

def machineCode (is : List UserInstr) : List UInt8 := is.flatMap UserInstr.encode

theorem machineCode_append (is is' : List UserInstr) :
    machineCode (is ++ is') = machineCode is ++ machineCode is' := List.flatMap_append

theorem step_loop (clobbered : List Gpr) (t : Tracked) :
    t.step clobbered (.jmpShort 0xfe) = t := by
  have hback : t.rip + .ofNat (UserInstr.encode (.jmpShort 0xfe)).length + signed8 0xfe = t.rip := by
    have hzero : UInt64.ofNat (UserInstr.encode (.jmpShort 0xfe)).length + signed8 0xfe = 0 := by
      decide
    rw [UInt64.add_assoc, hzero, UInt64.add_zero]
  rw [Tracked.step]
  simp only [hback]

theorem Tracked.run_append (clobbered : List Gpr) (t : Tracked) (is is' : List UserInstr) :
    t.run clobbered (is ++ is') = (t.run clobbered is).run clobbered is' := List.foldl_append ..

theorem Straight.rip {body : List UserInstr} (h : Straight body) (clobbered : List Gpr)
    (t : Tracked) : (t.run clobbered body).rip = t.rip + .ofNat (machineCode body).length := by
  induction body generalizing t with
  | nil => exact (UInt64.add_zero t.rip).symm
  | cons i body ih =>
    have hbody : Straight body := fun j hj => h j (List.mem_cons_of_mem i hj)
    have hnext : (t.step clobbered i).rip = t.rip + .ofNat i.encode.length := by
      cases i with
      | jmpShort disp => exact absurd rfl ((h _ List.mem_cons_self).2 disp)
      | _ => rfl
    have hlen : (machineCode (i :: body)).length = i.encode.length + (machineCode body).length :=
      List.length_append
    show ((t.step clobbered i).run clobbered body).rip = _
    rw [ih hbody, hnext, hlen, UInt64.ofNat_add, UInt64.add_assoc]

theorem toNat_add_nat {x : UInt64} {n : Nat} (h : x.toNat + n < 2 ^ 64) :
    (x + .ofNat n).toNat = x.toNat + n :=
  toNat_add_ofNat (UInt64.toNat_ofNat_of_lt' (Nat.lt_of_le_of_lt (Nat.le_add_left ..) h)) h

theorem CodeAt.decode {c : Core} {a : UInt64} {done rest : List UserInstr} {i : UserInstr}
    (h : CodeAt c.mem a (machineCode (done ++ i :: rest))) (hi : i.Short)
    (hrip : c.rip = a + .ofNat (machineCode done).length) :
    UserInstr.decode c.fetch = some (i, i.encode.length) := by
  have hcode : machineCode (done ++ i :: rest) = machineCode done ++ (i.encode ++ machineCode rest) :=
    machineCode_append ..
  have hlt := h.lt
  rw [hcode, List.length_append, List.length_append] at hlt
  refine UserInstr.decode_encode hi fun k hk => ?_
  have hstart : c.rip.toNat = a.toNat + (machineCode done).length := by
    rw [hrip, toNat_add_nat (by omega)]
  have haddr : (c.rip + .ofNat k).toNat = a.toNat + ((machineCode done).length + k) := by
    rw [toNat_add_nat (by omega), hstart, Nat.add_assoc]
  have hbyte := h.bytes ((machineCode done).length + k) (by
    rw [hcode, List.length_append, List.length_append]
    omega)
  rw [Core.fetch, haddr, hbyte, hcode, List.getD_append_right _ _ _ _ (by omega),
    Nat.add_sub_cancel_left, List.getD_append _ _ _ _ hk]

section Run

variable {body : List UserInstr} {K : Core → Core → Prop} {U : Core → Prop} {clobbered : List Gpr}
  {a : UInt64} {c c' : Core} {n : Nat} {rs : List Request}

/-- The instruction that comes after `n` others. -/
def Straight.next (body : List UserInstr) (n : Nat) : UserInstr := body.getD n (.jmpShort 0xfe)

theorem Straight.split (h : Straight body) (clobbered : List Gpr) (n : Nat) : (next body n).Short ∧
    (∃ rest, straightCode body = body.take n ++ next body n :: rest) ∧
    ∀ t : Tracked, (t.run clobbered (body.take n)).step clobbered (next body n) =
      t.run clobbered (body.take (n + 1)) := by
  by_cases hn : n < body.length
  · have hnext : next body n = body[n] := List.getD_eq_getElem body _ hn
    have htake : body.take (n + 1) = body.take n ++ [body[n]] := (List.take_append_getElem hn).symm
    rw [hnext]
    refine ⟨(h _ (List.getElem_mem hn)).1, ⟨body.drop (n + 1) ++ [.jmpShort 0xfe], ?_⟩, fun t => ?_⟩
    · have hbody : body.take n ++ body[n] :: body.drop (n + 1) = body := by
        rw [← List.drop_eq_getElem_cons hn, List.take_append_drop]
      rw [← List.cons_append, ← List.append_assoc, hbody]
      rfl
    · rw [htake, Tracked.run_append]
      rfl
  · -- from the end of the list on it is the loop
    have hnext : next body n = .jmpShort 0xfe := List.getD_eq_default body _ (by omega)
    rw [hnext, List.take_of_length_le (by omega), List.take_of_length_le (by omega)]
    exact ⟨trivial, ⟨[], rfl⟩, fun t => step_loop clobbered _⟩

theorem Straight.next_spec (h : Straight body) (n : Nat)
    (hcode : CodeAt c.mem a (machineCode (straightCode body)))
    (hrip : c.rip = ((Tracked.start a).run clobbered (body.take n)).rip) :
    UserInstr.decode c.fetch = some (next body n, (next body n).encode.length) ∧ a ≤ c.rip ∧
    c.rip.toNat + (next body n).encode.length ≤
      a.toNat + (machineCode (straightCode body)).length := by
  obtain ⟨hshort, ⟨rest, hsplit⟩, _⟩ := h.split clobbered n
  have htake : Straight (body.take n) := fun i hi => h i (List.mem_of_mem_take hi)
  have hrip' : c.rip = a + .ofNat (machineCode (body.take n)).length := by
    rw [hrip, htake.rip]
    rfl
  have hlt := hcode.lt
  rw [hsplit] at hcode hlt ⊢
  have hlen : (machineCode (body.take n ++ next body n :: rest)).length =
      (machineCode (body.take n)).length +
        ((next body n).encode.length + (machineCode rest).length) := by
    rw [machineCode_append, List.length_append]
    exact congrArg _ List.length_append
  have hnat : c.rip.toNat = a.toNat + (machineCode (body.take n)).length := by
    rw [hrip', toNat_add_nat (by omega)]
  refine ⟨hcode.decode hshort hrip', ?_, by omega⟩
  rw [UInt64.le_iff_toNat_le]
  omega

/-- **A run of a straight program.** -/
theorem Straight.run (h : Straight body) (hcode : CodeAt c.mem a (machineCode (straightCode body)))
    (hrip : c.rip = a) (hU : U c) (hexec : ∀ c next i, U c → U (c.execUser next i))
    (hK : KernelAbi K U clobbered a (machineCode (straightCode body)).length)
    (hrun : UserRun K c n rs c') :
    Tracked.Matches ((Tracked.start a).run clobbered (body.take n)) c' rs ∧
    CodeAt c'.mem a (machineCode (straightCode body)) ∧ U c' := by
  induction hrun with
  | refl =>
    rw [List.take_zero, ← hrip]
    exact ⟨Tracked.matches_start c, hrip ▸ hcode, hU⟩
  | @tail n rs rs' c' c'' hrun hstep ih =>
    obtain ⟨hmatches, hcode', hU'⟩ := ih
    obtain ⟨hdecode, hle, hroom⟩ := h.next_spec n hcode' hmatches.rip
    obtain ⟨_, _, hstepped⟩ := h.split clobbered n
    rw [← hstepped]
    refine ⟨hmatches.step hdecode (fun hsys hkernel => ?_) hstep, ?_⟩
    · rw [hsys] at hroom
      exact ⟨hK.rip c' c'' hU' hle hroom hkernel, hK.gpr c' c'' hU' hle hroom hkernel⟩
    · cases hstep with
      | plain i len hi hne =>
        have hmem : (c'.execUser (c'.rip + .ofNat len) i).mem = c'.mem := by cases i <;> rfl
        rw [hmem]
        exact ⟨hcode', hexec c' _ i hU'⟩
      | call len c'' hi hkernel =>
        rw [hdecode] at hi
        obtain ⟨hsys, hlen⟩ := Prod.mk.inj (Option.some.inj hi)
        rw [hsys] at hroom
        refine ⟨⟨hcode'.lt, fun k hk => ?_⟩, hK.user c' c'' hU' hle hroom hkernel⟩
        rw [hK.bytes c' c'' hU' hle hroom hkernel k hk]
        exact hcode'.bytes k hk

theorem Straight.exists_run (h : Straight body)
    (hcode : CodeAt c.mem a (machineCode (straightCode body))) (hrip : c.rip = a) (hU : U c)
    (hexec : ∀ c next i, U c → U (c.execUser next i))
    (hK : KernelAbi K U clobbered a (machineCode (straightCode body)).length)
    (hanswers : ∀ c, U c → c.rip.toNat + 2 ≤ a.toNat + (machineCode (straightCode body)).length →
      ∃ c', K c c') (n : Nat) : ∃ rs c', UserRun K c n rs c' := by
  induction n with
  | zero => exact ⟨[], c, .refl⟩
  | succ n ih =>
    obtain ⟨rs, c', hrun⟩ := ih
    obtain ⟨hmatches, hcode', hU'⟩ := h.run hcode hrip hU hexec hK hrun
    obtain ⟨hdecode, _, hroom⟩ := h.next_spec n hcode' hmatches.rip
    by_cases hsys : next body n = .syscall
    · rw [hsys] at hdecode hroom
      obtain ⟨c'', hkernel⟩ := hanswers c' hU' hroom
      exact ⟨_, c'', hrun.tail (.call _ c'' hdecode hkernel)⟩
    · exact ⟨_, _, hrun.tail (.plain _ _ hdecode hsys)⟩

end Run

end Zeronix
