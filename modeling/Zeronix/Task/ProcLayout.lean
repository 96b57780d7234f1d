import Zeronix.Mem.PageAlloc

/-!
# Where a process lives

`src/task/proc_layout.rs`: each process has a slot of 2 MiB, its code at the bottom of user
space and its stack at the top.
-/

namespace Zeronix

def USER_CODE_BASE : Nat := 0x400000
def USER_SLOT_SIZE : Nat := 0x200000
def USER_STACK_TOP : Nat := 0x7ffffffff000
def DEFAULT_TIME_SLICE_TICKS : Nat := 5

def userCodeBase (pid : Nat) : Option Nat := do
  let slot ← Word.mul pid USER_SLOT_SIZE
  Word.add USER_CODE_BASE slot

def userStackTop (pid : Nat) : Option Nat := do
  let slot ← Word.mul pid USER_SLOT_SIZE
  Word.sub USER_STACK_TOP slot

/-- The new count and whether the slice is over. -/
def consumeTick (ticksLeft defaultSlice : Nat) : Nat × Bool :=
  let ticksLeft := if ticksLeft > 0 then ticksLeft - 1 else ticksLeft
  if ticksLeft = 0 then (defaultSlice, true) else (ticksLeft, false)

theorem userCodeBase_eq {pid base : Nat} (h : userCodeBase pid = some base) :
    base = USER_CODE_BASE + pid * USER_SLOT_SIZE := by
  simp only [userCodeBase, Option.bind_eq_bind, Option.bind_eq_some_iff, Word.mul_eq_some,
    Word.add_eq_some] at h
  obtain ⟨slot, ⟨_, rfl⟩, _, rfl⟩ := h
  rfl

theorem userStackTop_eq {pid top : Nat} (h : userStackTop pid = some top) :
    top + pid * USER_SLOT_SIZE = USER_STACK_TOP := by
  simp only [userStackTop, Option.bind_eq_bind, Option.bind_eq_some_iff, Word.mul_eq_some,
    Word.sub_eq_some] at h
  obtain ⟨slot, ⟨_, rfl⟩, hle, rfl⟩ := h
  omega

end Zeronix
