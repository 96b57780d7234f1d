import Zeronix.Syscall.Dispatch

/-!
# What system calls do to the running process

Every system call but `exit` leaves the running process alone: it takes its locks in order, gives
them back, keeps the interrupt flag clear, and returns (`still_dispatch`).  `exit` takes the lock
of its hook first (`along_syscallExit`).
-/

namespace Zeronix

open SpinLock

namespace Kernel

variable {r : Nat}

/-! ### User memory, files and descriptors -/

theorem still_load (addr : Nat) : Still r (load addr) := by
  refine Hidden.still (.liftOpt fun k b k' h => ?_) (Nat.le_refl r)
  obtain ⟨b', _, heq⟩ := Option.map_eq_some_iff.mp h
  cases heq
  exact .refl k

theorem still_store (addr : Nat) (b : UInt8) : Still r (store addr b) := by
  refine Hidden.still (.liftOpt fun k b k' h => ?_) (Nat.le_refl r)
  obtain ⟨b', _, heq⟩ := Option.map_eq_some_iff.mp h
  cases heq
  exact ⟨rfl, rfl, rfl, rfl⟩

theorem still_loadSlice (ptr n : Nat) : Still r (loadSlice ptr n) := by
  induction n generalizing ptr with
  | zero => exact .ret _
  | succ n ih => exact .bind (still_load ptr) fun b => .bind (ih (ptr + 1)) fun bytes => .ret _

theorem still_storeSlice (ptr : Nat) (bytes : List UInt8) : Still r (storeSlice ptr bytes) := by
  induction bytes generalizing ptr with
  | nil => exact .ret _
  | cons b bytes ih => exact .bind (still_store ptr b) fun _ => ih (ptr + 1)

theorem still_cstrLoop (ptr n : Nat) (bytes : List UInt8) : Still 4 (cstrLoop ptr n bytes) := by
  induction n generalizing bytes with
  | zero => exact .bind (hidden_useHeap.still (Nat.le_refl 4)) fun _ => .ret _
  | succ n ih =>
    refine .bind (still_load _) fun byte => ?_
    split
    · exact .ret _
    · exact .bind (hidden_useHeap.still (Nat.le_refl 4)) fun _ => ih _

theorem still_copyUserCstr (ptr : Nat) : Still 4 (copyUserCstr ptr) := by
  rw [copyUserCstr]
  split
  · exact .ret _
  · refine .bind (still_cstrLoop _ _ _) fun bytes => ?_
    split
    · exact .ret _
    · split
      · exact .bind (hidden_useHeap.still (Nat.le_refl 4)) fun _ => .ret _
      · exact .ret _

theorem still_withPath (hr : r ≤ 4) (ptr : Nat) {f : String → Code SysResult}
    (hf : ∀ path, Still r (f path)) : Still r (withPath ptr f) := by
  refine .bind ((still_copyUserCstr ptr).mono hr) fun path => ?_
  split
  · exact .ret _
  · exact .bind (hf _) fun _ => .bind (hidden_useHeap.still hr) fun _ => .ret _

theorem still_ask (f : Kernel → Bool) : Still r (Prog.lift fun k => (f k, k)) :=
  .lift fun k => .refl k

theorem still_withFs {f : Code SysResult} (hf : Still 2 f) : Still 1 (withFs f) := by
  refine .guarded (Nat.le_refl 1) (.bind (still_ask _) fun b => ?_)
  split
  · exact hf
  · exact .ret _

theorem still_withFdTable {f : Code SysResult} (hf : Still 3 f) : Still 2 (withFdTable f) := by
  refine .guarded (Nat.le_refl 2) (.bind (still_ask _) fun b => ?_)
  split
  · exact hf
  · exact .ret _

theorem still_onFs {β : Type} (f : RamFs → β × RamFs) : Still r (onFs f) := by
  refine Hidden.still (.liftOpt fun k b k' h => ?_) (Nat.le_refl r)
  obtain ⟨fs, _, heq⟩ := Option.map_eq_some_iff.mp h
  cases heq
  exact ⟨rfl, rfl, rfl, rfl⟩

theorem still_onTable {β : Type} (f : FileDescriptorTable → β × FileDescriptorTable) :
    Still r (onTable f) := by
  refine Hidden.still (.liftOpt fun k b k' h => ?_) (Nat.le_refl r)
  obtain ⟨table, _, heq⟩ := Option.map_eq_some_iff.mp h
  cases heq
  exact ⟨rfl, rfl, rfl, rfl⟩

theorem still_onFiles {β : Type} (f : Files → β × Files) : Still r (onFiles f) := by
  refine Hidden.still (.liftOpt fun k b k' h => ?_) (Nat.le_refl r)
  obtain ⟨fs, _, h⟩ := Option.bind_eq_some_iff.mp h
  obtain ⟨table, _, heq⟩ := Option.map_eq_some_iff.mp h
  cases heq
  exact ⟨rfl, rfl, rfl, rfl⟩

/-- An operation that may use the heap. -/
theorem still_heapThen {α : Type} (hr : r ≤ 4) {f : Code α} (hf : Still r f) :
    Still r (do useHeap; f) := .bind (hidden_useHeap.still hr) fun _ => hf

/-! ### The calls -/

theorem still_syscallOpen (pathPtr rawFlags : Nat) : Still 1 (syscallOpen pathPtr rawFlags) := by
  refine still_withPath (by decide) _ fun path => still_withFs (still_withFdTable ?_)
  exact still_heapThen (by decide) (still_onFiles _)

theorem still_syscallRead (fd bufPtr len : Nat) : Still 1 (syscallRead fd bufPtr len) := by
  rw [syscallRead]
  split
  · exact .ret _
  · refine still_withFs (still_withFdTable (still_heapThen (by decide) ?_))
    refine .bind (still_onFiles _) fun ⟨res, buf⟩ => ?_
    cases res with
    | error e => exact .ret _
    | ok n => exact .bind (still_storeSlice _ _) fun _ => .ret _

theorem still_tableWrite (fd bufPtr len : Nat) : Still 3 (tableWrite fd bufPtr len) := by
  refine still_heapThen (by decide) (.bind (still_ask _) fun b => ?_)
  split
  · exact .bind (still_loadSlice _ _) fun buf => still_onFiles _
  · exact still_onFiles _

theorem still_mirrorConsoleWrite (fd bufPtr len : Nat) :
    Still 1 (mirrorConsoleWrite fd bufPtr len) := by
  rw [mirrorConsoleWrite]
  split
  · exact .ret _
  · refine .guarded (Nat.le_refl 1) (.bind (still_ask _) fun b => ?_)
    split
    · refine .bind (still_loadSlice _ _) fun buf => ?_
      exact Hidden.still (.lift fun k => ⟨rfl, rfl, rfl, rfl⟩) (Nat.le_refl _)
    · exact .ret _

theorem still_syscallWrite (fd bufPtr len : Nat) : Still 1 (syscallWrite fd bufPtr len) := by
  rw [syscallWrite]
  split
  · exact .ret _
  · refine .bind (still_withFs (still_withFdTable (still_tableWrite _ _ _))) fun res => ?_
    cases res with
    | error e => exact .ret _
    | ok written => exact .bind (still_mirrorConsoleWrite _ _ _) fun _ => .ret _

theorem still_execProgram (image : List UInt8) : Still 3 (execProgram image) := by
  refine .bind (still_spawnElf image) fun res => ?_
  split
  · exact .ret _
  · refine .bind (Hidden.still (.onSys fun s b s' h => ?_) (Nat.le_refl 3)) fun pid => .ret _
    obtain ⟨p, _, heq⟩ := Option.map_eq_some_iff.mp h
    cases heq
    rfl

theorem still_execImage (image : List UInt8) : Still 2 (execImage image) := by
  refine .bind (.guarded (Nat.le_refl 2) (still_ask _)) fun b => ?_
  split
  · exact (still_execProgram _).mono (by decide)
  · exact .ret _

theorem still_exec (path : String) : Still 2 (exec path) := by
  refine still_heapThen (by decide) (.bind (still_onFs _) fun res => ?_)
  split
  · exact .ret _
  · exact .bind (still_execImage _) fun r => still_heapThen (by decide) (.ret r)

/-- **Every call but `exit` leaves the running process alone.** -/
theorem still_dispatch {number : Nat} (h : number ≠ SyscallNumber.Exit.val) (arg0 arg1 arg2 : Nat) :
    Still 1 (dispatch number arg0 arg1 arg2) := by
  have htable : ∀ {f : FileDescriptorTable → SysResult × FileDescriptorTable},
      Still 1 (withFdTable do useHeap; onTable f) := fun {f} =>
    (still_withFdTable (still_heapThen (by decide) (still_onTable f))).mono (by decide)
  have hfs : ∀ {f : RamFs → SysResult × RamFs}, Still 1 (withFs do useHeap; onFs f) := fun {f} =>
    still_withFs (still_heapThen (by decide) (still_onFs f))
  refine .ite (fun _ => still_syscallRead _ _ _) fun _ => .ite (fun _ => still_syscallWrite _ _ _)
    fun _ => .ite (fun _ => still_syscallOpen _ _) fun _ => .ite (fun _ => htable) fun _ => .ite
    (fun _ => htable) fun _ => .ite (fun _ => ?_) fun _ => .ite (fun _ => ?_) fun _ => .ite
    (fun _ => ?_) fun _ => .ite (fun _ => Still.ret _) fun _ => .ite (fun _ => ?_) fun _ => .ite
    (fun hexit => absurd hexit h) fun _ => Still.ret _
  · exact still_withPath (by decide) _ fun path => hfs
  · exact still_withPath (by decide) _ fun old => still_withPath (by decide) _ fun new => hfs
  · exact still_withPath (by decide) _ fun path => hfs
  · exact still_withPath (by decide) _ fun path => still_withFs (still_exec path)

/-! ### The end of a process -/

section Along

variable {P : Cpu Kernel Lock → Op Kernel Lock Nat → Prop}
variable {R : Cpu Kernel Lock → Cpu Kernel Lock → Prop} {s : Cpu Kernel Lock} {t : Nat}

/-- **The call `exit`.**  With the hook registered it does not return, and the lock of the hook is
held from then on. -/
theorem along_syscallExit {Q : SysResult → Cpu Kernel Lock → Prop} (status : Nat)
    (hP : ∀ s op, Calm later s op → P s op) (hflag : s.flag = false)
    (hheld : ∀ l ∈ s.held, l.rank < 3) (hok : s.data.sys.view.Ok)
    (hcur : s.data.sys.current = some t) (hacquire : P s (.acquire .exitCurrent))
    (hnone : s.data.exitHook = false → Q (.error .unsupported) s)
    (hleave : s.data.exitHook = true →
      Leaving P R t ⟨s.data.exited t, .exitCurrent :: s.held, false⟩) :
    (syscallExit status).Along P R Q s := by
  obtain ⟨k, held, flag⟩ := s
  cases hflag
  rw [syscallExit, Prog.along_do, lock]
  refine ⟨hP _ _ rfl, hP _ _ ⟨rfl, rfl⟩, hacquire, fun hfree => ?_⟩
  show Prog.Along P R Q _ _
  rw [Prog.along_do, Prog.along_lift]
  refine ⟨hP _ _ ⟨rfl, later_refl k⟩, ?_⟩
  cases hhook : k.exitHook with
  | false =>
    have hback : (Lock.exitCurrent :: held).erase .exitCurrent = held :=
      List.erase_cons_head _ _
    simp only [Bool.false_eq_true, if_false]
    refine ⟨hP _ _ rfl, ?_⟩
    show Q _ ⟨k, (Lock.exitCurrent :: held).erase .exitCurrent, false⟩
    rw [hback]
    exact hnone hhook
  | true =>
    simp only [if_true]
    refine along_exitCurrent (s := ⟨k, .exitCurrent :: held, false⟩) (t := t) status hP rfl
      (fun l hl => ?_) hok hcur (hleave hhook)
    rcases List.mem_cons.mp hl with rfl | hl
    · decide
    · exact hheld l hl

/-! ### The entry -/

/-- The statics when `__syscall_entry` has saved the registers of the user. -/
def pushed (k : Kernel) (f : UserFrame) : Kernel := { k with
  userRsp := f.rsp
  stack := [f.r11, f.rcx, f.rbx, f.rbp, f.r12, f.r13, f.r14, f.r15] }

theorem along_popFrame {Q : UserFrame → Cpu Kernel Lock → Prop} {k : Kernel} {f : UserFrame}
    (hP : ∀ s op, Calm later s op → P s op) (hflag : s.flag = false)
    (hk : Kept (k.pushed f) s.data) (hQ : Q f s) : popFrame.Along P R Q s := by
  refine Prog.along_liftOpt (fun _ => ⟨hP _ _ ⟨hflag, later_refl _⟩, hP _ _ hflag⟩) fun f' d h => ?_
  have hstack : s.data.stack = [f.r11, f.rcx, f.rbx, f.rbp, f.r12, f.r13, f.r14, f.r15] := hk.stack
  have hrsp : s.data.userRsp = f.rsp := hk.userRsp
  simp only [hstack, hrsp, Option.some.injEq, Prod.mk.injEq] at h
  obtain ⟨rfl, rfl⟩ := h
  exact ⟨hP _ _ ⟨hflag, later_refl _⟩, hQ⟩

/-- What a system call does after its number has been looked at. -/
theorem along_dispatch {Q : SysResult → Cpu Kernel Lock → Prop} (c : Syscall)
    (hP : ∀ s op, Calm later s op → P s op) (hflag : s.flag = false)
    (hheld : ∀ l ∈ s.held, l.rank < 1) (hok : s.data.sys.view.Ok)
    (hcur : s.data.sys.current = some t) (hacquire : P s (.acquire .exitCurrent))
    (hret : ∀ r k, Kept s.data k → Q r { s with data := k })
    (hleave : c.number = SyscallNumber.Exit.val → s.data.exitHook = true →
      Leaving P R t ⟨s.data.exited t, .exitCurrent :: s.held, false⟩) :
    (dispatch c.number c.arg0 c.arg1 c.arg2).Along P R Q s := by
  by_cases hexit : c.number = SyscallNumber.Exit.val
  · rw [hexit]
    show (syscallExit c.arg0).Along P R Q s
    refine along_syscallExit c.arg0 hP hflag (fun l hl => ?_) hok hcur hacquire (fun _ => ?_)
      (hleave hexit)
    · exact Nat.lt_trans (hheld l hl) (by decide)
    · exact hret _ _ (.refl _)
  · exact (still_dispatch hexit c.arg0 c.arg1 c.arg2 s R Q hflag hheld hret).mono hP fun _ _ h => h

/-- **A system call from its entry on.**  When it returns, it goes back with the registers that it
was entered with. -/
theorem along_syscallEntry {Q : Option SysReturn → Cpu Kernel Lock → Prop} (c : Syscall)
    (hP : ∀ s op, Calm later s op → P s op) (hflag : s.flag = false)
    (hheld : ∀ l ∈ s.held, l.rank < 1) (hok : s.data.sys.view.Ok)
    (hcur : s.data.sys.current = some t)
    (hacquire : P { s with data := s.data.pushed c.frame } (.acquire .exitCurrent))
    (hret : ∀ rax k, Kept (s.data.pushed c.frame) k →
      Q (some { rax := rax, frame := c.frame }) { s with data := k })
    (hleave : c.number = SyscallNumber.Exit.val → s.data.exitHook = true →
      Leaving P R t ⟨(s.data.pushed c.frame).exited t, .exitCurrent :: s.held, false⟩) :
    (syscallEntry c).Along P R Q s := by
  rw [syscallEntry, Prog.along_do, pushFrame, Prog.along_lift]
  refine ⟨hP _ _ ⟨hflag, later_refl _⟩, ?_⟩
  rw [Prog.along_do, syscallDispatch, Prog.along_do]
  refine along_dispatch (s := { s with data := s.data.pushed c.frame }) c hP hflag hheld hok hcur
    hacquire (fun r k hk => ?_) hleave
  have hback : ∀ rax, Prog.Along P R Q (do
      let frame ← popFrame
      return some { rax := rax, frame := frame }) { s with data := k } := by
    intro rax
    rw [Prog.along_do]
    exact along_popFrame (s := { s with data := k }) hP hflag hk (hret rax k hk)
  cases r with
  | ok value => exact hback _
  | error err => exact hback _

end Along

end Kernel

end Zeronix
