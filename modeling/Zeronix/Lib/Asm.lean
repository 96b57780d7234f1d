import Zeronix.Lib.Memory
import Zeronix.Lib.Word
import Mathlib.Logic.Function.Basic

/-!
# A little of x86-64

The general registers, the words of an interrupt frame, and the instructions with which kernel
entries save and restore them.  Code is a list of instructions; jumps out of it are the last of
the list.

`Spells m a ws` says that the words `ws` stand in memory from `a` on.  Pushing spells what was
pushed (`spells_pushWords`), popping reads it back (`run_pops`), and an interrupt with its pushes
undone by the pops and `iretq` gives back all registers (`iretq_pops`).
-/

namespace Zeronix

/-- The general registers but `rsp`. -/
inductive Gpr where
  | rax | rcx | rdx | rbx | rbp | rsi | rdi
  | r8 | r9 | r10 | r11 | r12 | r13 | r14 | r15
  deriving DecidableEq, Repr

/-- `rsp0` is the stack pointer that the task state segment has for ring 0. -/
structure Core where
  gpr : Gpr → UInt64
  rsp : UInt64
  rip : UInt64
  cs : UInt64
  rflags : UInt64
  ss : UInt64
  rsp0 : UInt64
  mem : Memory

/-- What a program sees of the registers. -/
@[ext]
structure Frame where
  gpr : Gpr → UInt64
  rip : UInt64
  cs : UInt64
  rflags : UInt64
  rsp : UInt64
  ss : UInt64

inductive Instr where
  | cld
  | push (r : Gpr)
  | pop (r : Gpr)
  /-- `mov r, rsp` -/
  | movFromRsp (r : Gpr)
  /-- `mov rsp, r` -/
  | movToRsp (r : Gpr)
  | andRsp (mask : UInt64)
  | movImm (r : Gpr) (v : UInt64)
  /-- `mov [base + offset], r` -/
  | store (base : Gpr) (offset : UInt64) (r : Gpr)
  | storeRsp (base : Gpr) (offset : UInt64)
  /-- `mov r, [base + offset]` -/
  | load (r base : Gpr) (offset : UInt64)
  | loadRsp (base : Gpr) (offset : UInt64)
  /-- `lea r, [rip + label]` -/
  | leaRip (r : Gpr) (label : UInt64)
  /-- `jmp [base + offset]` -/
  | jmpMem (base : Gpr) (offset : UInt64)
  /-- A call of `target` from before `next`. -/
  | call (target next : UInt64)
  | ret
  | iretq
  deriving DecidableEq

namespace Core

def frame (c : Core) : Frame where
  gpr := c.gpr
  rip := c.rip
  cs := c.cs
  rflags := c.rflags
  rsp := c.rsp
  ss := c.ss

def word (c : Core) (a : UInt64) : UInt64 := UInt64.ofNat (c.mem.load a.toNat)

def setWord (c : Core) (a v : UInt64) : Core := { c with mem := c.mem.store a.toNat v.toNat }

def setGpr (c : Core) (r : Gpr) (v : UInt64) : Core :=
  { c with gpr := Function.update c.gpr r v }

def pushWord (c : Core) (v : UInt64) : Core := { c.setWord (c.rsp - 8) v with rsp := c.rsp - 8 }

def pushWords (c : Core) (vs : List UInt64) : Core := vs.foldl pushWord c

def exec (c : Core) : Instr → Core
  | .cld => { c with rflags := c.rflags &&& ~~~0x400 }
  | .push r => c.pushWord (c.gpr r)
  | .pop r => { c.setGpr r (c.word c.rsp) with rsp := c.rsp + 8 }
  | .movFromRsp r => c.setGpr r c.rsp
  | .movToRsp r => { c with rsp := c.gpr r }
  | .andRsp mask => { c with rsp := c.rsp &&& mask }
  | .movImm r v => c.setGpr r v
  | .store base offset r => c.setWord (c.gpr base + offset) (c.gpr r)
  | .storeRsp base offset => c.setWord (c.gpr base + offset) c.rsp
  | .load r base offset => c.setGpr r (c.word (c.gpr base + offset))
  | .loadRsp base offset => { c with rsp := c.word (c.gpr base + offset) }
  | .leaRip r label => c.setGpr r label
  | .jmpMem base offset => { c with rip := c.word (c.gpr base + offset) }
  | .call target next => { c.pushWord next with rip := target }
  | .ret => { c with rip := c.word c.rsp, rsp := c.rsp + 8 }
  | .iretq => { c with
      rip := c.word c.rsp
      cs := c.word (c.rsp + 8)
      rflags := c.word (c.rsp + 16)
      rsp := c.word (c.rsp + 24)
      ss := c.word (c.rsp + 32) }

def run (c : Core) (code : List Instr) : Core := code.foldl exec c

/-- The CPU is in ring 3. -/
def userMode (c : Core) : Bool := c.cs &&& 3 == 3

/-- Where an interrupt puts its frame. -/
def frameBase (c : Core) : UInt64 := (if c.userMode then c.rsp0 else c.rsp) &&& ~~~15

/-- An interrupt through a gate with the selector `cs`, which clears the interrupt flag. -/
def interrupt (c : Core) (cs handler : UInt64) : Core :=
  { { c with rsp := c.frameBase }.pushWords [c.ss, c.rsp, c.rflags, c.cs, c.rip] with
    rip := handler
    cs := cs
    rflags := c.rflags &&& ~~~0x200
    ss := if c.userMode then 0 else c.ss }

end Core

/-- The words that `iretq` pops. -/
def Frame.iretWords (f : Frame) : List UInt64 := [f.rip, f.cs, f.rflags, f.rsp, f.ss]

/-! ### Addresses -/

theorem toNat_sub_eight {x : UInt64} (h : 8 ≤ x.toNat) : (x - 8).toNat = x.toNat - 8 :=
  UInt64.toNat_sub_of_le x 8 (UInt64.le_iff_toNat_le.mpr h)

theorem toNat_add_ofNat {x y : UInt64} {n : Nat} (hy : y.toNat = n) (h : x.toNat + n < 2 ^ 64) :
    (x + y).toNat = x.toNat + n := by
  rw [UInt64.toNat_add, hy, Nat.mod_eq_of_lt h]

/-- Rounding down to a multiple of 16. -/
theorem toNat_and_not_fifteen (x : UInt64) : (x &&& ~~~15).toNat = x.toNat / 16 * 16 := by
  have hmask : (~~~(15 : UInt64)).toNat = Word.not (2 ^ 4 - 1) := by decide
  rw [UInt64.toNat_and, hmask, Word.and_not_two_pow x.toNat_lt (by decide)]
  rfl

/-! ### Words in memory -/

/-- The words stand in memory from `a` on. -/
def Spells (m : Memory) : Nat → List UInt64 → Prop
  | _, [] => True
  | a, w :: ws => m.load a = w.toNat ∧ Spells m (a + 8) ws

theorem Spells.congr {m m' : Memory} {a : Nat} {ws : List UInt64} (h : Spells m a ws)
    (hm : ∀ x, a ≤ x → x < a + 8 * ws.length → m'.bytes x = m.bytes x) : Spells m' a ws := by
  induction ws generalizing a with
  | nil => trivial
  | cons w ws ih =>
    simp only [List.length_cons] at hm
    refine ⟨?_, ih h.2 fun x hx hx' => hm x (by omega) (by omega)⟩
    have hload : m'.load a = m.load a :=
      Memory.readLE_congr fun x hx hx' => hm x hx (by omega)
    rw [hload]
    exact h.1

theorem Spells.unique {m : Memory} {a : Nat} {ws ws' : List UInt64} (h : Spells m a ws)
    (h' : Spells m a ws') (hlen : ws.length = ws'.length) : ws = ws' := by
  induction ws generalizing a ws' with
  | nil => exact (List.length_eq_zero_iff.mp hlen.symm).symm
  | cons w ws ih =>
    cases ws' with
    | nil => simp at hlen
    | cons w' ws' =>
      rw [UInt64.toNat_inj.mp (h.1.symm.trans h'.1), ih h.2 h'.2 (Nat.succ.inj hlen)]

theorem Spells.append {m : Memory} {a : Nat} {ws ws' : List UInt64} :
    Spells m a (ws ++ ws') ↔ Spells m a ws ∧ Spells m (a + 8 * ws.length) ws' := by
  induction ws generalizing a with
  | nil => simp [Spells]
  | cons w ws ih =>
    simp only [List.cons_append, Spells, ih, List.length_cons, and_assoc]
    rw [show a + 8 + 8 * ws.length = a + 8 * (ws.length + 1) by omega]

theorem bytes_store {m : Memory} {a v x : Nat} (h : x < a ∨ a + 8 ≤ x) :
    (m.store a v).bytes x = m.bytes x := by
  simp only [Memory.store]
  rw [if_neg (by omega)]

theorem load_store_word (m : Memory) (a : Nat) (v : UInt64) :
    (m.store a v.toNat).load a = v.toNat := Memory.load_store_self m a v.toNat_lt

/-- Words stored one after the other. -/
def storeWords (m : Memory) : Nat → List UInt64 → Memory
  | _, [] => m
  | a, w :: ws => storeWords (m.store a w.toNat) (a + 8) ws

theorem bytes_storeWords {m : Memory} {a x : Nat} {ws : List UInt64}
    (h : x < a ∨ a + 8 * ws.length ≤ x) : (storeWords m a ws).bytes x = m.bytes x := by
  induction ws generalizing m a with
  | nil => rfl
  | cons w ws ih =>
    simp only [List.length_cons] at h
    rw [storeWords, ih (by omega), bytes_store (by omega)]

theorem spells_storeWords (m : Memory) (a : Nat) (ws : List UInt64) :
    Spells (storeWords m a ws) a ws := by
  induction ws generalizing m a with
  | nil => trivial
  | cons w ws ih =>
    refine ⟨?_, ih _ _⟩
    have hload : (storeWords (m.store a w.toNat) (a + 8) ws).load a = (m.store a w.toNat).load a :=
      Memory.readLE_congr fun x _ hx => bytes_storeWords (.inl hx)
    rw [storeWords, hload, load_store_word]

/-- One word that was read. -/
theorem Spells.word {c : Core} {a : UInt64} {w : UInt64} {ws : List UInt64}
    (h : Spells c.mem a.toNat (w :: ws)) : c.word a = w := by
  rw [Core.word, h.1, UInt64.ofNat_toNat]

/-! ### Pushes -/

theorem pushWord_rsp {c : Core} (v : UInt64) (h : 8 ≤ c.rsp.toNat) :
    (c.pushWord v).rsp.toNat = c.rsp.toNat - 8 := toNat_sub_eight h

theorem pushWord_bytes {c : Core} (v : UInt64) (h : 8 ≤ c.rsp.toNat) {x : Nat}
    (hx : x < c.rsp.toNat - 8 ∨ c.rsp.toNat ≤ x) :
    (c.pushWord v).mem.bytes x = c.mem.bytes x := by
  refine bytes_store ?_
  rw [toNat_sub_eight h]
  omega

theorem spells_pushWord {c : Core} (v : UInt64) {ws : List UInt64} (h : 8 ≤ c.rsp.toNat)
    (hws : Spells c.mem c.rsp.toNat ws) :
    Spells (c.pushWord v).mem (c.pushWord v).rsp.toNat (v :: ws) := by
  refine ⟨load_store_word _ _ _, ?_⟩
  rw [pushWord_rsp v h, Nat.sub_add_cancel h]
  exact hws.congr fun x hx _ => pushWord_bytes v h (.inr hx)

/-- **Pushes spell what they push, the last word first.** -/
theorem spells_pushWords {c : Core} (vs : List UInt64) {ws : List UInt64}
    (h : 8 * vs.length ≤ c.rsp.toNat)
    (hws : Spells c.mem c.rsp.toNat ws) :
    Spells (c.pushWords vs).mem (c.pushWords vs).rsp.toNat (vs.reverse ++ ws) := by
  induction vs generalizing c ws with
  | nil => exact hws
  | cons v vs ih =>
    simp only [List.length_cons] at h
    rw [List.reverse_cons, List.append_assoc]
    refine ih (c := c.pushWord v) ?_ (spells_pushWord v (by omega) hws)
    rw [pushWord_rsp v (by omega)]
    omega

theorem pushWords_rsp {c : Core} (vs : List UInt64) (h : 8 * vs.length ≤ c.rsp.toNat) :
    (c.pushWords vs).rsp.toNat = c.rsp.toNat - 8 * vs.length := by
  induction vs generalizing c with
  | nil => rfl
  | cons v vs ih =>
    simp only [List.length_cons] at h ⊢
    have hrsp := pushWord_rsp v (c := c) (by omega)
    show ((c.pushWord v).pushWords vs).rsp.toNat = _
    rw [ih (by omega), hrsp]
    omega

theorem pushWords_bytes {c : Core} (vs : List UInt64) (h : 8 * vs.length ≤ c.rsp.toNat) {x : Nat}
    (hx : x < c.rsp.toNat - 8 * vs.length ∨ c.rsp.toNat ≤ x) :
    (c.pushWords vs).mem.bytes x = c.mem.bytes x := by
  induction vs generalizing c with
  | nil => rfl
  | cons v vs ih =>
    simp only [List.length_cons] at h hx
    have hrsp := pushWord_rsp v (c := c) (by omega)
    show ((c.pushWord v).pushWords vs).mem.bytes x = _
    rw [ih (by omega) (by omega), pushWord_bytes v (by omega) (by omega)]

/-- Pushes change the stack pointer and memory only. -/
theorem pushWords_rest (c : Core) (vs : List UInt64) :
    c.pushWords vs = { c with rsp := (c.pushWords vs).rsp, mem := (c.pushWords vs).mem } := by
  induction vs generalizing c with
  | nil => rfl
  | cons v vs ih => exact ih (c.pushWord v)

theorem run_append (c : Core) (code code' : List Instr) :
    c.run (code ++ code') = (c.run code).run code' := List.foldl_append ..

theorem run_pushes (c : Core) (rs : List Gpr) :
    c.run (rs.map .push) = c.pushWords (rs.map c.gpr) := by
  induction rs generalizing c with
  | nil => rfl
  | cons r rs ih => exact ih (c.pushWord (c.gpr r))

/-- **An interrupt** spells the words that `iretq` pops. -/
theorem interrupt_spec {c : Core} (cs handler : UInt64) (h : 40 ≤ c.frameBase.toNat) :
    (c.interrupt cs handler).rsp.toNat = c.frameBase.toNat - 40 ∧
    Spells (c.interrupt cs handler).mem (c.interrupt cs handler).rsp.toNat c.frame.iretWords ∧
    (∀ x, x < c.frameBase.toNat - 40 ∨ c.frameBase.toNat ≤ x →
      (c.interrupt cs handler).mem.bytes x = c.mem.bytes x) ∧
    (c.interrupt cs handler).gpr = c.gpr ∧ (c.interrupt cs handler).rsp0 = c.rsp0 := by
  have hspells : Spells (c.interrupt cs handler).mem (c.interrupt cs handler).rsp.toNat _ :=
    spells_pushWords (c := { c with rsp := c.frameBase }) [c.ss, c.rsp, c.rflags, c.cs, c.rip] h
      (show Spells _ _ [] from trivial)
  have hrest := pushWords_rest { c with rsp := c.frameBase } [c.ss, c.rsp, c.rflags, c.cs, c.rip]
  have hgpr := congrArg Core.gpr hrest
  have hrsp0 := congrArg Core.rsp0 hrest
  refine ⟨?_, hspells, fun x hx => ?_, hgpr, hrsp0⟩
  · exact pushWords_rsp (c := { c with rsp := c.frameBase }) [c.ss, c.rsp, c.rflags, c.cs, c.rip] h
  · exact pushWords_bytes (c := { c with rsp := c.frameBase }) [c.ss, c.rsp, c.rflags, c.cs, c.rip]
      h hx

/-! ### Pops -/

/-- **Pops read what is spelled.** -/
theorem run_pops {c : Core} {rs : List Gpr} {g : Gpr → UInt64} {ws : List UInt64}
    (h : Spells c.mem c.rsp.toNat (rs.map g ++ ws)) (hsp : c.rsp.toNat + 8 * rs.length < 2 ^ 64) :
    ∃ rsp, rsp.toNat = c.rsp.toNat + 8 * rs.length ∧
      c.run (rs.map .pop) = { c with
        gpr := fun r => if r ∈ rs then g r else c.gpr r
        rsp := rsp } := by
  induction rs generalizing c with
  | nil => exact ⟨c.rsp, rfl, by simp [Core.run]⟩
  | cons r rs ih =>
    simp only [List.length_cons] at hsp
    have hnext : (c.rsp + 8).toNat = c.rsp.toNat + 8 := toNat_add_ofNat rfl (by omega)
    have hpop : c.exec (.pop r) = { c.setGpr r (g r) with rsp := c.rsp + 8 } := by
      simp only [Core.exec]
      rw [Spells.word h]
    have hrest : Spells (c.exec (.pop r)).mem (c.exec (.pop r)).rsp.toNat (rs.map g ++ ws) := by
      rw [hpop]
      show Spells c.mem (c.rsp + 8).toNat _
      rw [hnext]
      exact h.2
    have hlast : (c.exec (.pop r)).rsp.toNat = c.rsp.toNat + 8 := hnext
    obtain ⟨rsp, hrsp, hrun⟩ := ih hrest (by omega)
    refine ⟨rsp, by simp only [List.length_cons]; omega, ?_⟩
    show (c.exec (.pop r)).run (rs.map .pop) = _
    rw [hrun, hpop]
    simp only [Core.setGpr, Core.mk.injEq, and_true]
    funext r'
    by_cases hmem : r' ∈ rs
    · simp [hmem]
    · by_cases heq : r' = r
      · subst heq
        simp [hmem]
      · simp [hmem, heq]

theorem exec_iretq {c : Core} {f : Frame} (h : Spells c.mem c.rsp.toNat f.iretWords)
    (hsp : c.rsp.toNat + 40 ≤ 2 ^ 64) (hgpr : c.gpr = f.gpr) : (c.exec .iretq).frame = f := by
  obtain ⟨hrip, hcs, hflags, hrsp, hss, _⟩ := h
  have hword : ∀ {y w : UInt64} {n : Nat}, y.toNat = n → n ≤ 32 →
      c.mem.load (c.rsp.toNat + n) = w.toNat → c.word (c.rsp + y) = w := by
    intro y w n hy hn hw
    rw [Core.word, toNat_add_ofNat hy (by omega), hw, UInt64.ofNat_toNat]
  have hzero : c.word c.rsp = f.rip := by rw [Core.word, hrip, UInt64.ofNat_toNat]
  simp only [Core.exec, Core.frame]
  rw [hzero, hword (n := 8) rfl (by omega) hcs, hword (n := 16) rfl (by omega) hflags,
    hword (n := 24) rfl (by omega) hrsp, hword (n := 32) rfl (by omega) hss, hgpr]

/-- **All registers come back** from words that spell them, in the order of the pops. -/
theorem iretq_pops {c : Core} {rs : List Gpr} {f : Frame} (hall : ∀ r, r ∈ rs)
    (h : Spells c.mem c.rsp.toNat (rs.map f.gpr ++ f.iretWords))
    (hsp : c.rsp.toNat + 8 * rs.length + 40 ≤ 2 ^ 64) :
    (c.run (rs.map .pop ++ [.iretq])).frame = f := by
  obtain ⟨rsp, hrsp, hrun⟩ := run_pops h (by omega)
  have hiret := (Spells.append.mp h).2
  rw [List.length_map] at hiret
  rw [run_append, hrun]
  refine exec_iretq (f := f) ?_ ?_ ?_
  · show Spells c.mem rsp.toNat _
    rw [hrsp]
    exact hiret
  · show rsp.toNat + 40 ≤ 2 ^ 64
    omega
  · funext r
    exact if_pos (hall r)

end Zeronix
