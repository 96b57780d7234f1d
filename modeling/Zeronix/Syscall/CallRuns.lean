import Zeronix.Syscall.DispatchSpecs

/-!
# Runs of system calls, ticks and switches

The processes of the kernel as the threads of a `Machine`: they make any system calls, the timer
interrupts them, and `schedule` switches between them.

While nobody exits to another process, no lock is held across a switch and no lock is waited for
(`locks_free_of_no_exit`).  An exit does: the guard of its hook lives as long as the call to the
hook (`exit_switches_with_lock`).
-/

namespace Zeronix

open SpinLock

/-- A thread is a process, given by its index. -/
abbrev KernelMachine := Machine Kernel Lock Nat SysReturn Syscall

namespace KernelMachine

/-- Runs in which all system calls meet a condition. -/
abbrev Runs (allowed : Cpu Kernel Lock → Syscall → Prop) : KernelMachine → KernelMachine → Prop :=
  Machine.Steps Kernel.timerHandler Kernel.syscallEntry allowed

/-- A process runs in user mode, and any other is to enter user mode when it is switched to. -/
structure Booted (m : KernelMachine) : Prop where
  held : m.cpu.held = []
  ok : m.cpu.data.sys.view.Ok
  current : m.cpu.data.sys.current = some m.running
  running : m.cpu.data.st m.running = some .Running
  user : m.control m.running = .user
  other : ∀ t, t ≠ m.running → m.control t = .code (.ret none)
  call : ∀ t, m.call t = none

/-- The scheduler is in order and the current process is `t`. -/
def Current (t : Nat) (k : Kernel) : Prop := k.sys.view.Ok ∧ k.sys.current = some t

theorem Current.kept {t : Nat} {k k' : Kernel} (h : Current t k) (hk : Kernel.Kept k k') :
    Current t k' := by
  obtain ⟨hcur, hok⟩ := hk.sched t h.2
  exact ⟨hok h.1, hcur⟩

theorem Current.unseen {t : Nat} {k k' : Kernel} (h : Current t k) (hk : Kernel.Unseen k k') :
    Current t k' := h.kept hk.kept

theorem Current.exited {t : Nat} {k : Kernel} (h : Current t k) : Current t (k.exited t) := by
  refine ⟨?_, h.2⟩
  rw [Kernel.view_exited h.1 h.2]
  exact h.1.move (.exit h.2)

/-! ### Locks -/

/-- A process exits, with another one to switch to. -/
def ExitsToOther (k : Kernel) (c : Syscall) : Prop :=
  c.number = SyscallNumber.Exit.val ∧ k.exitHook = true ∧ k.sys.readyQueue ≠ []

/-- A process is left with all locks free, and a lock is free when it is taken. -/
def LocksFree (m : KernelMachine) : Prop :=
  (∀ t, m.op = some (.switch t) → m.cpu.held = []) ∧
    ∀ l, m.op = some (.acquire l) → l ∉ m.cpu.held

def lockPoint (t : Nat) (s : Cpu Kernel Lock) : Op Kernel Lock Nat → Prop
  | .plain => s.flag = false
  | .act d => s.flag = false ∧ Kernel.later s.data d
  | .acquire l => s.flag = false ∧ l ∉ s.held
  | .setFlag _ => s.flag = false
  | .idle => s.held = [.exitCurrent] ∧ s.data.sys.readyQueue = [] ∧ Current t s.data
  | .switch next => s.flag = false ∧ s.held = [] ∧ next ≠ t ∧ Current next s.data

def lockSpec : Spec Kernel Lock Nat SysReturn Syscall where
  user t s := s.held = [] ∧ Current t s.data
  point t _ s op := lockPoint t s op
  resume t _ s := s.flag = false ∧ s.held = [] ∧ Current t s.data
  done t _ _ s := s.flag = false ∧ s.held = [] ∧ Current t s.data
  waits _ _ _ := True
  later := Kernel.later

theorem lockPoint_of_calm (t : Nat) (s : Cpu Kernel Lock) (op : Op Kernel Lock Nat)
    (h : Calm Kernel.later s op) : lockPoint t s op := by
  cases op with
  | plain => exact h
  | act d => exact h
  | acquire l => exact h
  | setFlag b => exact h.1
  | idle => exact h.elim
  | switch next => exact h.elim

theorem lock_tick {t : Nat} {s : Cpu Kernel Lock} (hheld : s.held = []) (hcur : Current t s.data) :
    lockSpec.Along t none (Kernel.timerHandler.bind fun _ => .ret none) { s with flag := false } := by
  obtain ⟨k, held, flag⟩ := s
  cases hheld
  rw [Spec.Along, Prog.along_bind]
  refine Kernel.along_timerHandler (s := ⟨k, [], false⟩) (t := t) (lockPoint_of_calm t) rfl
    (fun l hl => absurd hl (by simp)) hcur.1 hcur.2 (fun k' hu => ?_) fun next k' hk => ?_
  · exact ⟨rfl, rfl, hcur.unseen hu⟩
  · exact ⟨⟨rfl, rfl, hk.ne, hk.ok, hk.current⟩, fun s' hs' => hs'⟩

theorem lock_tickIdle {t : Nat} {c : Option Syscall} {s : Cpu Kernel Lock}
    (h : lockPoint t s .idle) :
    lockSpec.Along t c (Kernel.timerHandler.bind fun _ => .setFlag true .idle)
      { s with flag := false } := by
  obtain ⟨k, held, flag⟩ := s
  obtain ⟨hheld, hempty, hcur⟩ := h
  cases hheld
  rw [Spec.Along, Prog.along_bind]
  refine Kernel.along_timerHandler (s := ⟨k, [.exitCurrent], false⟩) (t := t) (lockPoint_of_calm t)
    rfl (fun l hl => ?_) hcur.1 hcur.2 (fun k' hu => ?_) fun next k' hk => ?_
  · rw [List.mem_singleton.mp hl]
    decide
  · have hq : k'.sys.readyQueue = k.sys.readyQueue := congrArg View.queue hu.view
    exact ⟨rfl, rfl, hq.trans hempty, hcur.unseen hu⟩
  · have hmem : next ∈ k.sys.readyQueue := hk.queued
    rw [hempty] at hmem
    cases hmem

theorem lock_call {t : Nat} {s : Cpu Kernel Lock} {c : Syscall} (hheld : s.held = [])
    (hcur : Current t s.data) (hc : ¬ ExitsToOther s.data c) :
    lockSpec.Along t (some c) (Kernel.syscallEntry c) { s with flag := false } := by
  obtain ⟨k, held, flag⟩ := s
  cases hheld
  have hcur' : Current t (k.pushed c.frame) := hcur
  refine Kernel.along_syscallEntry (s := ⟨k, [], false⟩) (t := t) c (lockPoint_of_calm t) rfl
    (fun l hl => absurd hl (by simp)) hcur.1 hcur.2 ⟨rfl, by simp⟩ (fun rax k' hk => ?_)
    fun hexit hhook => ⟨fun hempty => ?_, fun next k' hk => ?_⟩
  · exact ⟨rfl, rfl, hcur'.kept hk⟩
  · exact ⟨rfl, rfl, hempty, hcur'.exited⟩
  · have hempty : k.sys.readyQueue = [] := by
      by_contra hne
      exact hc ⟨hexit, hhook, hne⟩
    have hmem : next ∈ k.sys.readyQueue := hk.queued
    rw [hempty] at hmem
    cases hmem

theorem lockSpec_met : lockSpec.Met Kernel.timerHandler Kernel.syscallEntry
    fun s c => ¬ ExitsToOther s.data c where
  call _ _ _ h hc := lock_call h.1 h.2 hc
  tick _ _ h := lock_tick h.1 h.2
  tickIdle _ _ _ h _ := lock_tickIdle h
  flag t c s op h hflag := by
    cases op with
    | idle => rfl
    | plain => exact absurd (h.symm.trans hflag) (by simp)
    | setFlag b => exact absurd (h.symm.trans hflag) (by simp)
    | act d => exact absurd (h.1.symm.trans hflag) (by simp)
    | acquire l => exact absurd (h.1.symm.trans hflag) (by simp)
    | switch next => exact absurd (h.1.symm.trans hflag) (by simp)
  flagDone _ _ _ _ h := h.1
  done _ _ _ _ h := h.2
  act _ _ _ _ h := h.2
  refl := Kernel.later_refl
  trans := Kernel.later_trans
  waits _ _ _ _ _ _ := trivial
  leave _ _ _ _ h := ⟨h.2.2.1, trivial⟩
  switch _ _ _ _ _ h _ := ⟨h.1, h.2.1, h.2.2.2⟩

theorem lockSpec_booted {m : KernelMachine} (h : m.Booted) : lockSpec.Inv m := by
  refine ⟨?_, fun t ht => ⟨trivial, .ret none, m.cpu, h.other t ht, Kernel.later_refl _, ?_⟩⟩
  · rw [h.user]
    exact ⟨⟨h.held, h.ok, h.current⟩, h.call _⟩
  · exact fun s hs => hs

/-- **No lock is held across a switch, and none is waited for,** in all runs in which no process
exits while its hook is registered and another process is ready. -/
theorem locks_free_of_no_exit {m m' : KernelMachine} (hboot : m.Booted)
    (hrun : m.Runs (fun s c => ¬ ExitsToOther s.data c) m') : m'.LocksFree := by
  have hinv := (lockSpec_booted hboot).steps lockSpec_met hrun
  refine ⟨fun t ht => ?_, fun l hl => ?_⟩
  · exact (hinv.point ht (by simp)).2.1
  · exact (hinv.point hl (by simp)).2

/-- The boot process is ready and a user process runs, for one more tick. -/
def twoProcs : KernelMachine where
  cpu := {
    data := {
      sys := {
        pm := {
          buddy := { metadata := [], freeHeads := [], totalPages := 0 }
          mem := { bytes := fun _ => 0, stores := [] } }
        kernelPml4 := 0x1000
        ring0StackTop := 0x9000
        procs := [{
            pid := 0
            state := .Ready
            pagetable := 0x1000
            kstackPhys := 0
            kstackTop := 0x9000
            kind := .Kernel
            ticksLeft := DEFAULT_TIME_SLICE_TICKS
            entry := none
            trapFrame := none
            userCodePhys := none
            userStackPhys := none }, {
            pid := 1
            state := .Running
            pagetable := 0x2000
            kstackPhys := 0x4000
            kstackTop := 0x8000 + KERNEL_VMA
            kind := .User
            ticksLeft := 1
            entry := none
            trapFrame := some (0x8000 + KERNEL_VMA - TrapFrame.SIZE)
            userCodePhys := some 0xA000
            userStackPhys := some 0xB000 }]
        readyQueue := [0]
        nextPid := 2
        current := some 1
        chunks := []
        cr3 := 0x2000
        rsp0 := 0x8000 + KERNEL_VMA }
      fs := some RamFs.new
      fdTable := some FileDescriptorTable.new
      consoleHook := true
      execHook := true
      exitHook := true
      console := []
      mem := fun _ => none
      heapWork := fun _ => []
      heapTurn := 0
      userRsp := 0
      stack := [] }
    held := []
    flag := true }
  running := 1
  control t := if t = 1 then .user else .code (.ret none)
  call _ := none

theorem booted_twoProcs : twoProcs.Booted where
  held := rfl
  ok := by
    refine ⟨by decide +kernel, fun i hi => ?_, fun c hc => ?_, fun i hi => ?_, fun i x hi hx => ?_,
      fun hc => ?_⟩
    · cases List.mem_singleton.mp hi
      rfl
    · cases hc
      exact .inl rfl
    · rcases i with _ | _ | i
      · exact absurd hi (by decide +kernel)
      · rfl
      · cases hi
    · rcases i with _ | _ | i
      · exact .inr (List.mem_singleton.mpr rfl)
      · exact .inl rfl
      · cases hi
    · cases hc
  current := rfl
  running := rfl
  user := rfl
  other t ht := if_neg ht
  call _ := rfl

/-- The user process is left when its time slice is over, with no lock held. -/
theorem locks_free_of_no_exit_tick : ∃ m', twoProcs.Booted ∧
    twoProcs.Runs (fun s c => ¬ ExitsToOther s.data c) m' ∧ m'.op = some (.switch 0) ∧
    m'.LocksFree := by
  obtain ⟨m', hrun, hcpu, hop⟩ := Machine.exists_run_tick Kernel.timerHandler Kernel.syscallEntry
    (fun s c => ¬ ExitsToOther s.data c) (m := twoProcs) rfl rfl 30
  rw [hcpu] at hop
  have hswitch := hop.trans (congrArg some (Op.eq_switch (t := 0) (by decide +kernel)))
  exact ⟨m', booted_twoProcs, hrun, hswitch, locks_free_of_no_exit booted_twoProcs hrun⟩

/-- The system call `exit(0)`. -/
def exitCall : Syscall where
  number := SyscallNumber.Exit.val
  arg0 := 0
  arg1 := 0
  arg2 := 0
  frame := {
    rsp := 0x7000_0000
    r11 := 0x202
    rcx := 0x40_0002
    rbx := 0
    rbp := 0
    r12 := 0
    r13 := 0
    r14 := 0
    r15 := 0 }

/-- **A process that exits is left with the lock of the exit hook held.** -/
theorem exit_switches_with_lock : ∃ m', twoProcs.Booted ∧ twoProcs.Runs (fun _ _ => True) m' ∧
    m'.op = some (.switch 0) ∧ m'.cpu.held = [.exitCurrent] ∧ ¬ m'.LocksFree := by
  obtain ⟨m', hrun, hcpu, hop, _⟩ := Machine.exists_run_call Kernel.timerHandler Kernel.syscallEntry
    (fun _ _ => True) (m := twoProcs) (c := exitCall) rfl trivial 30
  rw [hcpu] at hop
  have hswitch := hop.trans (congrArg some (Op.eq_switch (t := 0) (by decide +kernel)))
  have hheld : m'.cpu.held = [.exitCurrent] := by
    rw [hcpu]
    decide +kernel
  refine ⟨m', booted_twoProcs, hrun, hswitch, hheld, fun h => ?_⟩
  have hnil := h.1 0 hswitch
  rw [hheld] at hnil
  cases hnil

end KernelMachine

end Zeronix
