import Zeronix.Syscall.CallRuns

/-!
# The stack of system calls

All processes enter the kernel on one stack, `__SYSCALL_STACK`, and leave their stack pointer in
one static.  Nothing keeps a process from being left in the middle of a call but the interrupt
flag, which the entry clears and which no handler sets, except for the one that does not return.

So of all calls that are on their way only the one of the running process can still return, and
what it pops is what it has pushed (`syscall_stack_own`).
-/

namespace Zeronix

open SpinLock

namespace KernelMachine

/-- The process has exited, by a call if it is in one. -/
def Gone (t : Nat) (c : Option Syscall) (k : Kernel) : Prop :=
  k.st t = some .Exited ∧ ∀ c', c = some c' → c'.number = SyscallNumber.Exit.val

theorem Gone.later {t : Nat} {c : Option Syscall} {k k' : Kernel} (h : Gone t c k)
    (hk : Kernel.later k k') : Gone t c k' := ⟨hk t h.1, h.2⟩

/-- No lock is held but those of processes that have exited. -/
def Low (held : List Lock) : Prop := ∀ l ∈ held, l.rank < 1

theorem Low.exit {held : List Lock} (h : Low held) : Low (.exitCurrent :: held) := by
  intro l hl
  rcases List.mem_cons.mp hl with rfl | hl
  · decide
  · exact h l hl

theorem Low.mono {held : List Lock} (h : Low held) : ∀ l ∈ held, l.rank < 3 :=
  fun l hl => Nat.lt_trans (h l hl) (by decide)

def stackPoint (t : Nat) (c : Option Syscall) (s : Cpu Kernel Lock) : Op Kernel Lock Nat → Prop
  | .plain => s.flag = false
  | .act d => s.flag = false ∧ Kernel.later s.data d
  | .acquire _ => s.flag = false
  | .setFlag b => s.flag = false ∧ (b = true → Gone t c s.data)
  | .idle => Gone t c s.data ∧ Low s.held ∧ Current t s.data
  | .switch next => s.flag = false ∧ Low s.held ∧ next ≠ t ∧ Current next s.data ∧
      s.data.st next = some .Running ∧ (c ≠ none → Gone t c s.data)

def stackSpec : Spec Kernel Lock Nat SysReturn Syscall where
  user t s := Low s.held ∧ Current t s.data ∧ s.data.st t ≠ some .Exited
  point := stackPoint
  resume t s₀ s := s.flag = false ∧ Low s.held ∧ Current t s.data ∧
    s₀.data.st t ≠ some .Exited ∧ s.data.st t ≠ some .Exited
  done t c r s := s.flag = false ∧ Low s.held ∧ Current t s.data ∧ s.data.st t ≠ some .Exited ∧
    r.map SysReturn.frame = c.map Syscall.frame
  waits t c k := c ≠ none → Gone t c k
  later := Kernel.later

theorem stackPoint_of_calm (t : Nat) (c : Option Syscall) (s : Cpu Kernel Lock)
    (op : Op Kernel Lock Nat) (h : Calm Kernel.later s op) : stackPoint t c s op := by
  cases op with
  | plain => exact h
  | act d => exact h
  | acquire l => exact h.1
  | setFlag b =>
    refine ⟨h.1, fun hb => ?_⟩
    rw [h.2] at hb
    cases hb
  | idle => exact h.elim
  | switch next => exact h.elim

/-- In user mode the timer may switch, and the process returns to user mode. -/
theorem stack_tick {t : Nat} {s : Cpu Kernel Lock} (h : stackSpec.user t s) :
    stackSpec.Along t none (Kernel.timerHandler.bind fun _ => .ret none)
      { s with flag := false } := by
  obtain ⟨k, held, flag⟩ := s
  obtain ⟨hlow, hcur, hst⟩ := h
  rw [Spec.Along, Prog.along_bind]
  refine Kernel.along_timerHandler (s := ⟨k, held, false⟩) (t := t) (stackPoint_of_calm t none) rfl
    hlow.mono hcur.1 hcur.2 (fun k' hu => ?_) fun next k' hk => ⟨?_, fun s' hs' => ?_⟩
  · refine ⟨rfl, hlow, hcur.unseen hu, ?_, rfl⟩
    rw [Kernel.st, hu.view]
    exact hst
  · exact ⟨rfl, hlow, hk.ne, ⟨hk.ok, hk.current⟩, hk.running, fun hc => absurd rfl hc⟩
  · obtain ⟨hflag, hlow', hcur', _, hst'⟩ := hs'
    exact ⟨hflag, hlow', hcur', hst', rfl⟩

/-- The timer may leave a process that has exited, which is then not switched to. -/
theorem stack_tickIdle {t : Nat} {c : Option Syscall} {s : Cpu Kernel Lock}
    (h : stackPoint t c s .idle) :
    stackSpec.Along t c (Kernel.timerHandler.bind fun _ => .setFlag true .idle)
      { s with flag := false } := by
  obtain ⟨k, held, flag⟩ := s
  obtain ⟨hgone, hlow, hcur⟩ := h
  rw [Spec.Along, Prog.along_bind]
  refine Kernel.along_timerHandler (s := ⟨k, held, false⟩) (t := t) (stackPoint_of_calm t c) rfl
    hlow.mono hcur.1 hcur.2 (fun k' hu => ?_) fun next k' hk => ?_
  · have hgone' := hgone.later hu.kept.later
    exact ⟨⟨rfl, fun _ => hgone'⟩, hgone', hlow, hcur.unseen hu⟩
  · have hgone' : Gone t c k' := ⟨hk.exited.mpr hgone.1, hgone.2⟩
    refine ⟨⟨rfl, hlow, hk.ne, ⟨hk.ok, hk.current⟩, hk.running, fun _ => hgone'⟩, fun s' hs' => ?_⟩
    exact absurd hgone'.1 hs'.2.2.2.1

theorem stack_call {t : Nat} {s : Cpu Kernel Lock} {c : Syscall} (h : stackSpec.user t s) :
    stackSpec.Along t (some c) (Kernel.syscallEntry c) { s with flag := false } := by
  obtain ⟨k, held, flag⟩ := s
  obtain ⟨hlow, hcur, hst⟩ := h
  have hcur' : Current t (k.pushed c.frame) := hcur
  refine Kernel.along_syscallEntry (s := ⟨k, held, false⟩) (t := t) c (stackPoint_of_calm t (some c))
    rfl hlow hcur.1 hcur.2 rfl (fun rax k' hk => ?_)
    fun hexit hhook => ⟨fun hempty => ?_, fun next k' hk => ?_⟩
  · refine ⟨rfl, hlow, hcur'.kept hk, fun hst' => ?_, rfl⟩
    -- the process that runs has a state, and keeps it
    rcases hcur.1.current t hcur.2 with hrun | hgone
    · have hrun' : k'.st t = some .Running := hk.states t _ hrun
      rw [hrun'] at hst'
      cases hst'
    · exact hst hgone
  · have hgone : Gone t (some c) ((k.pushed c.frame).exited t) := by
      refine ⟨Kernel.st_exited hcur'.1 hcur'.2, fun c' hc' => ?_⟩
      cases hc'
      exact hexit
    exact ⟨⟨rfl, fun _ => hgone⟩, hgone, hlow.exit, hcur'.exited⟩
  · have hgone : Gone t (some c) k' := by
      refine ⟨hk.exited.mpr (Kernel.st_exited hcur'.1 hcur'.2), fun c' hc' => ?_⟩
      cases hc'
      exact hexit
    refine ⟨⟨rfl, hlow.exit, hk.ne, ⟨hk.ok, hk.current⟩, hk.running, fun _ => hgone⟩,
      fun s' hs' => ?_⟩
    exact absurd hgone.1 hs'.2.2.2.1

theorem stackSpec_met : stackSpec.Met Kernel.timerHandler Kernel.syscallEntry fun _ _ => True where
  call _ _ _ h _ := stack_call h
  tick _ _ h := stack_tick h
  tickIdle _ _ _ h _ := stack_tickIdle h
  flag t c s op h hflag := by
    cases op with
    | idle => rfl
    | plain => exact absurd (h.symm.trans hflag) (by simp)
    | acquire l => exact absurd (h.symm.trans hflag) (by simp)
    | act d => exact absurd (h.1.symm.trans hflag) (by simp)
    | setFlag b => exact absurd (h.1.symm.trans hflag) (by simp)
    | switch next => exact absurd (h.1.symm.trans hflag) (by simp)
  flagDone _ _ _ _ h := h.1
  done _ _ _ _ h := ⟨h.2.1, h.2.2.1, h.2.2.2.1⟩
  act _ _ _ _ h := h.2
  refl := Kernel.later_refl
  trans := Kernel.later_trans
  waits _ _ _ _ h hlater := fun hc => (h hc).later hlater
  leave _ _ _ _ h := ⟨h.2.2.1, h.2.2.2.2.2⟩
  switch t c s next s₀ h hlater := by
    obtain ⟨hflag, hlow, _, hcur, hrun, _⟩ := h
    have hst : s.data.st next ≠ some .Exited := by
      rw [hrun]
      simp
    exact ⟨hflag, hlow, hcur, fun hst₀ => hst (hlater next hst₀), hst⟩

theorem stackSpec_booted {m : KernelMachine} (h : m.Booted) : stackSpec.Inv m := by
  refine ⟨?_, fun t ht => ⟨fun hc => absurd (h.call t) hc, .ret none, m.cpu, h.other t ht,
    Kernel.later_refl _, ?_⟩⟩
  · rw [h.user]
    refine ⟨⟨fun l hl => ?_, ⟨h.ok, h.current⟩, ?_⟩, h.call _⟩
    · rw [h.held] at hl
      cases hl
    · rw [h.running]
      simp
  · intro s ⟨hflag, hlow, hcur, _, hst⟩
    rw [h.call t]
    exact ⟨hflag, hlow, hcur, hst, rfl⟩

/-- A process that has exited is not switched to. -/
theorem gone_not_running {m m' : KernelMachine} (hi : stackSpec.Inv m) {t : Nat}
    (ht : t ≠ m.running) (hgone : m.cpu.data.st t = some .Exited)
    (hrun : m.Runs (fun _ _ => True) m') : t ≠ m'.running ∧ m'.cpu.data.st t = some .Exited := by
  induction hrun with
  | refl => exact ⟨ht, hgone⟩
  | @tail m₁ m₂ hrun hstep ih =>
    have hi₁ := hi.steps stackSpec_met hrun
    refine ⟨?_, ?_⟩
    · rcases hstep.running with heq | hswitch
      · rw [heq]
        exact ih.1
      · rintro rfl
        have hrunning := (hi₁.point hswitch (by simp)).2.2.2.2.1
        rw [ih.2] at hrunning
        cases hrunning
    · rcases hstep.data with heq | hact
      · rw [heq]
        exact ih.2
      · exact (hi₁.point hact (by simp)).2 t ih.2

/-- **The stack of system calls is never shared.**  In every state of every run:
two calls of processes that have not exited are the same; a call of another process than the
running one is `exit`, and that process never runs again; a call in which the interrupt flag is
set, or about to be set, or which is about to switch, is `exit`; and a process that is about to
return has not exited and returns with the registers with which it entered. -/
theorem syscall_stack_own {m m' : KernelMachine} (hboot : m.Booted)
    (hrun : m.Runs (fun _ _ => True) m') :
    (∀ t t', m'.call t ≠ none → m'.call t' ≠ none → m'.cpu.data.st t ≠ some .Exited →
      m'.cpu.data.st t' ≠ some .Exited → t = t') ∧
    (∀ t c, m'.call t = some c → t ≠ m'.running → c.number = SyscallNumber.Exit.val ∧
      m'.cpu.data.st t = some .Exited ∧
      ∀ m'', m'.Runs (fun _ _ => True) m'' → t ≠ m''.running) ∧
    (∀ c, m'.call m'.running = some c →
      m'.cpu.flag = true ∨ m'.op = some (.setFlag true) ∨ (∃ t, m'.op = some (.switch t)) →
      c.number = SyscallNumber.Exit.val ∧ m'.cpu.data.st m'.running = some .Exited) ∧
    (∀ r, m'.control m'.running = .code (.ret r) → m'.cpu.data.st m'.running ≠ some .Exited ∧
      r.map SysReturn.frame = (m'.call m'.running).map Syscall.frame) := by
  have hinv := (stackSpec_booted hboot).steps stackSpec_met hrun
  have hgone : ∀ t, m'.call t ≠ none → t ≠ m'.running → Gone t (m'.call t) m'.cpu.data :=
    fun t hc ht => (hinv.waiting t ht).1 hc
  have hrunning : ∀ t, m'.call t ≠ none → m'.cpu.data.st t ≠ some .Exited → t = m'.running := by
    intro t hc hst
    by_contra ht
    exact hst (hgone t hc ht).1
  refine ⟨fun t t' hc hc' hst hst' => ?_, fun t c hc ht => ?_, fun c hc h => ?_, fun r hr => ?_⟩
  · exact (hrunning t hc hst).trans (hrunning t' hc' hst').symm
  · have hg := hgone t (by simp [hc]) ht
    exact ⟨hg.2 c hc, hg.1, fun m'' hrun' => (gone_not_running hinv ht hg.1 hrun').1⟩
  · have hg : Gone m'.running (m'.call m'.running) m'.cpu.data := by
      rcases h with hflag | hset | ⟨t, hswitch⟩
      · exact (hinv.idle_of_flag stackSpec_met hc hflag).1
      · exact (hinv.point hset (by simp)).2 rfl
      · exact (hinv.point hswitch (by simp)).2.2.2.2.2 (by simp [hc])
    exact ⟨hg.2 c hc, hg.1⟩
  · exact (hinv.code hr).2.2.2

/-- A process that exits is left in the middle of its call, and never runs again. -/
theorem syscall_stack_own_exit : ∃ m', twoProcs.Booted ∧ twoProcs.Runs (fun _ _ => True) m' ∧
    m'.op = some (.switch 0) ∧ m'.call m'.running = some exitCall ∧
    exitCall.number = SyscallNumber.Exit.val ∧ m'.cpu.data.st m'.running = some .Exited := by
  obtain ⟨m', hrun, hcpu, hop, hcall⟩ := Machine.exists_run_call Kernel.timerHandler
    Kernel.syscallEntry (fun _ _ => True) (m := twoProcs) (c := exitCall) rfl trivial 30
  rw [hcpu] at hop
  have hswitch := hop.trans (congrArg some (Op.eq_switch (t := 0) (by decide +kernel)))
  have hown := (syscall_stack_own booted_twoProcs hrun).2.2.1 exitCall hcall
    (.inr (.inr ⟨0, hswitch⟩))
  exact ⟨m', booted_twoProcs, hrun, hswitch, hcall, hown⟩

end KernelMachine

end Zeronix
