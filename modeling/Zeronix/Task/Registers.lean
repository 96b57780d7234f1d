import Zeronix.Task.Preemption

/-!
# Registers survive preemption

What a task needs in order to go on stands on its kernel stack and in its context while other
tasks run (`Waits`), and nobody else writes there.  So the handler returns to the stub with `rbx`
at the saved registers, however many other tasks have run in between, and the stub gives them
back (`registers_survive`).
-/

namespace Zeronix

open Gpr

namespace TaskLayout

variable {T : Type} {L : TaskLayout T} {t t' : T} {x : Nat}

theorem InContext.not_stack (h : L.InContext t x) : ¬ L.InStack t' x := by
  intro h'
  have := L.ctx_stack t t'
  obtain ⟨h1, h2⟩ := h
  obtain ⟨h3, h4⟩ := h'
  omega

theorem InContext.eq (h : L.InContext t x) (h' : L.InContext t' x) : t = t' := by
  by_contra hne
  have := L.ctx_ctx t t' hne
  obtain ⟨h1, h2⟩ := h
  obtain ⟨h3, h4⟩ := h'
  omega

theorem InStack.eq (h : L.InStack t x) (h' : L.InStack t' x) : t = t' := by
  by_contra hne
  have := L.stack_stack t t' hne
  obtain ⟨h1, h2⟩ := h
  obtain ⟨h3, h4⟩ := h'
  omega

/-- The stack and the context of a task are as they were. -/
def Untouched (L : TaskLayout T) (t : T) (m m' : Memory) : Prop :=
  ∀ x, L.InStack t x ∨ L.InContext t x → m'.bytes x = m.bytes x

theorem Untouched.trans {m m' m'' : Memory} (h : L.Untouched t m m') (h' : L.Untouched t m' m'') :
    L.Untouched t m m'' := fun x hx => (h' x hx).trans (h x hx)

theorem confined_self (t : T) (m : Memory) : L.Confined t 0 m m := fun _ _ => rfl

theorem Confined.untouched {sp : Nat} {m m' : Memory} (h : L.Confined t sp m m') (hne : t' ≠ t) :
    L.Untouched t' m m' := by
  intro x hx
  rcases hx with hx | hx
  · exact h x (.inr (.inl ⟨t', hne, hx⟩))
  · exact h x (.inr (.inr ⟨t', hx⟩))

theorem Untouched.spells_context {m m' : Memory} {c : Context} (h : L.Untouched t m m')
    (hs : Spells m (L.ctx t).toNat c.words) : Spells m' (L.ctx t).toNat c.words :=
  hs.congr fun x hx hx' => h x (.inr ⟨hx, hx'⟩)

theorem toNat_trapAddr (h : (L.trapFrame t).isSome) : (L.trapAddr t).toNat = L.hi t - 160 := by
  have htop := L.user_top t h
  have hsize := L.user_size t h
  have hbig : 160 ≤ KERNEL_STACK_SIZE := by decide
  have hle : (160 : UInt64) ≤ L.kstackTop t := by
    rw [UInt64.le_iff_toNat_le, htop]
    show 160 ≤ L.hi t
    omega
  rw [trapAddr, UInt64.toNat_sub_of_le _ _ hle, htop]
  rfl

theorem Untouched.spells_trapFrame {m m' : Memory} {f : Frame} (h : L.Untouched t m m')
    (ht : (L.trapFrame t).isSome) (hs : Spells m (L.trapAddr t).toNat f.trapWords) :
    Spells m' (L.trapAddr t).toNat f.trapWords := by
  have hsize := L.user_size t ht
  have hbig : 160 ≤ KERNEL_STACK_SIZE := by decide
  have hlen : f.trapWords.length = 20 := rfl
  rw [toNat_trapAddr ht] at hs ⊢
  refine hs.congr fun x hx hx' => h x (.inl ⟨?_, ?_⟩)
  · omega
  · omega

end TaskLayout

namespace TaskMachine

variable {T : Type} [DecidableEq T] {sym : Symbols} {L : TaskLayout T} {k : Compiled T}

/-! ### The invariant -/

/-- The stub of an interrupt has called its handler, which was entered in `s`. -/
structure InHandler (L : TaskLayout T) (t : T) (f : Frame) (s : Core) (m : Memory) : Prop where
  low : L.lo t ≤ s.rsp.toNat
  saved : s.rsp.toNat + 8 ≤ (s.gpr rbx).toNat
  high : (s.gpr rbx).toNat + 160 ≤ L.hi t
  spells : Spells m (s.gpr rbx).toNat (irqPops.map f.gpr ++ f.iretWords)

/-- The handler was entered in `s` and has called `__switch_context` in `s₁`. -/
structure Away (L : TaskLayout T) (k : Compiled T) (t : T) (f : Frame) (s s₁ : Core)
    (m : Memory) : Prop where
  calls : k.calls t s s₁
  stack : ∀ x, s₁.rsp.toNat ≤ x → x < L.hi t → m.bytes x = s₁.mem.bytes x
  handler : InHandler L t f s m

/-- What makes a task go on right when it is switched to with the context `c`. -/
def Lands (sym : Symbols) (L : TaskLayout T) (k : Compiled T) (t : T) (c : Context) (m : Memory) :
    Status → Prop
  | .gone => False
  | .active => c.rip = sym.switchReturn
  | .fresh => match L.trapFrame t with
    | none => c.rip = sym.kernelTaskBootstrap
    | some f => c.rip = sym.userTaskBootstrap ∧ c.rsp.toNat ≤ (L.trapAddr t).toNat ∧
        Spells m (L.trapAddr t).toNat f.trapWords
  | .interrupted f => c.rip = sym.switchReturn ∧
      ∃ s s₁, c = { s₁.context with rip := c.rip } ∧ Away L k t f s s₁ m

/-- A task that does not run has a context with which it goes on. -/
def Waits (sym : Symbols) (L : TaskLayout T) (k : Compiled T) (t : T) (m : Memory) (st : Status) :
    Prop := st ≠ .gone → ∃ c : Context, Spells m (L.ctx t).toNat c.words ∧ Lands sym L k t c m st

/-- The current task, by the place where the CPU is. -/
def Here (sym : Symbols) (L : TaskLayout T) (k : Compiled T) (t : T) (s : Core) (st : Status) :
    Pc → Prop
  | .code => st = .active
  | .handler => ∃ f, st = .interrupted f ∧ InHandler L t f s s.mem
  | .stub => ∃ f, st = .interrupted f ∧ (s.gpr rbx).toNat + 160 ≤ L.hi t ∧
      Spells s.mem (s.gpr rbx).toNat (irqPops.map f.gpr ++ f.iretWords)
  | .jumped => Lands sym L k t s.context s.mem st
  | .back => ∃ f s₀ s₁, st = .interrupted f ∧
      s.context = { s₁.context with rsp := s₁.rsp + 8, rip := s.rip } ∧ Away L k t f s₀ s₁ s.mem
  | .entering => ∃ f, L.trapFrame t = some f ∧ s.gpr rdi = L.trapAddr t ∧
      Spells s.mem (L.trapAddr t).toNat f.trapWords

structure Inv (sym : Symbols) (L : TaskLayout T) (k : Compiled T) (m : TaskMachine T) : Prop where
  rsp0 : m.core.rsp0 = L.kstackTop m.current
  here : Here sym L k m.current m.core (m.status m.current) m.pc
  waits : ∀ t, t ≠ m.current → Waits sym L k t m.core.mem (m.status t)

/-! ### Nobody else writes there -/

omit [DecidableEq T] in
theorem InHandler.congr {t : T} {f : Frame} {s : Core} {m m' : Memory} (h : InHandler L t f s m)
    (hm : ∀ x, s.rsp.toNat ≤ x → x < L.hi t → m'.bytes x = m.bytes x) : InHandler L t f s m' := by
  obtain ⟨hlow, hsaved, hhigh, hspells⟩ := h
  refine ⟨hlow, hsaved, hhigh, hspells.congr fun x hx hx' => hm x (by omega) ?_⟩
  have hlen : (irqPops.map f.gpr ++ f.iretWords).length = 20 := rfl
  omega

omit [DecidableEq T] in
theorem Away.untouched {t : T} {f : Frame} {s s₁ : Core} {m m' : Memory} (habi : k.Abi L)
    (h : Away L k t f s s₁ m) (hm : L.Untouched t m m') : Away L k t f s s₁ m' := by
  obtain ⟨hcalls, hstack, hhandler⟩ := h
  obtain ⟨hlow, _, _⟩ := habi.calls _ _ _ hcalls
  have hin : ∀ x, L.lo t ≤ x → x < L.hi t → m'.bytes x = m.bytes x :=
    fun x hx hx' => hm x (.inl ⟨hx, hx'⟩)
  refine ⟨hcalls, fun x hx hx' => ?_, hhandler.congr fun x hx hx' => ?_⟩
  · rw [hin x (by omega) hx', hstack x hx hx']
  · exact hin x (Nat.le_trans hhandler.low hx) hx'

omit [DecidableEq T] in
theorem Lands.untouched {t : T} {c : Context} {m m' : Memory} {st : Status} (habi : k.Abi L)
    (h : Lands sym L k t c m st) (hm : L.Untouched t m m') : Lands sym L k t c m' st := by
  cases st with
  | gone => exact h
  | active => exact h
  | fresh =>
    rw [Lands] at h ⊢
    split at h
    · exact h
    · rename_i f hf
      obtain ⟨hrip, hrsp, hspells⟩ := h
      exact ⟨hrip, hrsp, hm.spells_trapFrame (by simp [hf]) hspells⟩
  | interrupted f =>
    obtain ⟨hrip, s, s₁, hc, haway⟩ := h
    exact ⟨hrip, s, s₁, hc, haway.untouched habi hm⟩

omit [DecidableEq T] in
theorem Waits.untouched {t : T} {m m' : Memory} {st : Status} (habi : k.Abi L)
    (h : Waits sym L k t m st) (hm : L.Untouched t m m') : Waits sym L k t m' st := by
  intro hst
  obtain ⟨c, hspells, hlands⟩ := h hst
  exact ⟨c, hm.spells_context hspells, hlands.untouched habi hm⟩

/-! ### Steps -/

variable {m : TaskMachine T}

/-- The current task goes on, in memory that is its own. -/
theorem Inv.goto (habi : k.Abi L) (hi : Inv sym L k m) {s : Core} {pc : Pc} {st : Status} {sp : Nat}
    (hrsp0 : s.rsp0 = m.core.rsp0) (hmem : L.Confined m.current sp m.core.mem s.mem)
    (h : Here sym L k m.current s st pc) :
    Inv sym L k { core := s, current := m.current, pc := pc, status := m.setStatus st } := by
  refine ⟨hrsp0.trans hi.rsp0, ?_, fun t ht => ?_⟩
  · simp only [setStatus, Function.update_self]
    exact h
  · have ht' : t ≠ m.current := ht
    simp only [setStatus, Function.update_of_ne ht']
    exact (hi.waits t ht).untouched habi (hmem.untouched ht)

theorem setStatus_self (m : TaskMachine T) : m.setStatus (m.status m.current) = m.status :=
  Function.update_eq_self ..

/-- The same with its status as it was. -/
theorem Inv.stay (habi : k.Abi L) (hi : Inv sym L k m) {s : Core} {pc : Pc} {sp : Nat}
    (hrsp0 : s.rsp0 = m.core.rsp0) (hmem : L.Confined m.current sp m.core.mem s.mem)
    (h : Here sym L k m.current s (m.status m.current) pc) :
    Inv sym L k { m with core := s, pc := pc } := by
  have hinv := hi.goto habi hrsp0 hmem h
  rw [setStatus_self] at hinv
  exact hinv

omit [DecidableEq T] in
/-- The frame of an interrupt finds room on the kernel stack. -/
theorem frameBase_of_room (hi : Inv sym L k m) (hroom : m.Room L) :
    L.lo m.current + 256 ≤ m.core.frameBase.toNat ∧ m.core.frameBase.toNat ≤ L.hi m.current := by
  rw [Core.frameBase, toNat_and_not_fifteen]
  rw [Room] at hroom
  split at hroom
  · rename_i huser
    have htop := L.user_top _ hroom
    have hsize := L.user_size _ hroom
    have halign := L.user_align _ hroom
    have hbig : KERNEL_STACK_SIZE = 16384 := by decide
    rw [if_pos huser, hi.rsp0, htop]
    omega
  · rename_i huser
    obtain ⟨hlow, hhigh⟩ := hroom
    rw [if_neg huser]
    omega

theorem Inv.tick (habi : k.Abi L) (hi : Inv sym L k m) (hroom : m.Room L) {s : Core}
    (hs : s = (m.core.interrupt KERNEL_CODE_SELECTOR sym.irqStub).run
      (irqStubEntry sym IRQ_BASE)) :
    Inv sym L k { m with
      core := s
      pc := .handler
      status := m.setStatus (.interrupted m.core.frame) } := by
  obtain ⟨hlow, hhigh⟩ := frameBase_of_room hi hroom
  obtain ⟨hrbx, hspells, hrsp, hbase, hbytes, hrsp0⟩ := irqStubEntry_spec sym (by omega) hs
  have hmem : L.Confined m.current (L.hi m.current) m.core.mem s.mem := by
    -- the stub writes to the stack of the current task only
    intro x hx
    refine hbytes x ?_
    have hout : ¬ L.InStack m.current x := by
      rcases hx with ⟨hx, hx'⟩ | ⟨t', ht', hx⟩ | ⟨t', hx⟩
      · exact fun h => absurd h.2 (by omega)
      · exact fun h => ht' (hx.eq h)
      · exact hx.not_stack
    rw [TaskLayout.InStack] at hout
    omega
  exact hi.goto habi hrsp0 hmem ⟨m.core.frame, rfl, by omega, hrsp, by omega, hspells⟩

omit [DecidableEq T] in
/-- The saved registers are still there when the handler has returned. -/
theorem InHandler.stub {t : T} {f : Frame} {s s' : Core} {m : Memory} (h : InHandler L t f s m)
    (hrbx : s'.gpr rbx = s.gpr rbx) (hmem : L.Confined t s.rsp.toNat m s'.mem) :
    Here sym L k t s' (.interrupted f) .stub := by
  obtain ⟨hlow, hsaved, hhigh, hspells⟩ := h
  refine ⟨f, rfl, hrbx ▸ hhigh, ?_⟩
  rw [hrbx]
  refine hspells.congr fun x hx hx' => hmem x (.inl ⟨⟨by omega, ?_⟩, by omega⟩)
  have hlen : (irqPops.map f.gpr ++ f.iretWords).length = 20 := rfl
  omega

/-- **A switch.**  The next task is where its context says, and the one that is left can go on
from its own. -/
theorem Inv.switched (habi : k.Abi L) (hi : Inv sym L k m) {next : T} {s : Core} {st : Status}
    {sp : Nat} (hne : next ≠ m.current) (hnext : m.status next ≠ .gone)
    (hmem : L.Confined m.current sp m.core.mem s.mem)
    (hland : ∀ mem, (∀ x, L.InStack m.current x → mem.bytes x = s.mem.bytes x) → st ≠ .gone →
      Lands sym L k m.current { s.context with rip := sym.switchReturn } mem st) :
    Inv sym L k {
      core := (switchCall L s m.current next).run (switchContext sym)
      current := next
      pc := .jumped
      status := m.setStatus st } := by
  obtain ⟨c, hspells, hlands⟩ := hi.waits next hne hnext
  have hnext' := hmem.untouched hne
  generalize hs' : (switchCall L s m.current next).run (switchContext sym) = s'
  obtain ⟨hcontext, hsaved, hbytes, hrsp0⟩ := switchContext_spec sym (s := c)
    (c := switchCall L s m.current next) (L.ctx_le m.current) (L.ctx_le next)
    (L.ctx_ctx _ _ (Ne.symm hne)) (hnext'.spells_context hspells) hs'.symm
  have hother : ∀ t, t ≠ m.current → L.Untouched t s.mem s'.mem := by
    intro t ht x hx
    refine hbytes x ?_
    have hout : ¬ L.InContext m.current x := by
      intro h
      rcases hx with hx | hx
      · exact h.not_stack hx
      · exact ht (hx.eq h)
    rw [TaskLayout.InContext] at hout
    show x < (L.ctx m.current).toNat ∨ (L.ctx m.current).toNat + Context.SIZE ≤ x
    omega
  refine ⟨hrsp0, ?_, fun t ht => ?_⟩
  · have hst : m.setStatus st next = m.status next := Function.update_of_ne hne ..
    show Lands sym L k next s'.context s'.mem (m.setStatus st next)
    rw [hst, hcontext]
    exact hlands.untouched habi (hnext'.trans (hother next hne))
  · by_cases hcur : t = m.current
    · subst hcur
      have hst : m.setStatus st m.current = st := Function.update_self ..
      show Waits sym L k m.current s'.mem (m.setStatus st m.current)
      rw [hst]
      intro hgone
      refine ⟨_, hsaved, hland s'.mem (fun x hx => ?_) hgone⟩
      refine hbytes x ?_
      have hout : ¬ L.InContext m.current x := fun h => h.not_stack hx
      rw [TaskLayout.InContext] at hout
      show x < (L.ctx m.current).toNat ∨ (L.ctx m.current).toNat + Context.SIZE ≤ x
      omega
    · have hst : m.setStatus st t = m.status t := Function.update_of_ne hcur ..
      show Waits sym L k t s'.mem (m.setStatus st t)
      rw [hst]
      exact (hi.waits t hcur).untouched habi ((hmem.untouched hcur).trans (hother t hcur))

/-- The handler has called `__switch_context`. -/
theorem Inv.switch (habi : k.Abi L) (hi : Inv sym L k m) {next : T} {s : Core}
    (hpc : m.pc = .handler) (hne : next ≠ m.current) (hnext : m.status next ≠ .gone)
    (hcalls : k.calls m.current m.core s) :
    Inv sym L k { m with
      core := (switchCall L s m.current next).run (switchContext sym)
      current := next
      pc := .jumped } := by
  have hhere := hi.here
  rw [hpc] at hhere
  obtain ⟨f, hst, hhandler⟩ := hhere
  obtain ⟨hlow, hrsp, hmem⟩ := habi.calls _ _ _ hcalls
  have hland : ∀ mem, (∀ x, L.InStack m.current x → mem.bytes x = s.mem.bytes x) →
      m.status m.current ≠ .gone →
      Lands sym L k m.current { s.context with rip := sym.switchReturn } mem
        (m.status m.current) := by
    intro mem hmem' _
    rw [hst]
    refine ⟨rfl, m.core, s, rfl, hcalls, fun x hx hx' => hmem' x ⟨by omega, hx'⟩, ?_⟩
    refine hhandler.congr fun x hx hx' => ?_
    have hin : L.InStack m.current x := ⟨Nat.le_trans hhandler.low hx, hx'⟩
    rw [hmem' x hin, hmem x (.inl ⟨hin, hx⟩)]
  have hinv := hi.switched habi hne hnext hmem hland
  rw [setStatus_self] at hinv
  exact hinv

/-- The task that was switched to is behind the `ret` of `__switch_context`. -/
theorem Inv.back (habi : k.Abi L) (hi : Inv sym L k m) {f : Frame} (hpc : m.pc = .jumped)
    (hst : m.status m.current = .interrupted f) :
    Inv sym L k { m with core := m.core.exec .ret, pc := .back } := by
  have hhere := hi.here
  rw [hpc, hst] at hhere
  obtain ⟨_, s, s₁, hcontext, haway⟩ := hhere
  refine hi.stay habi rfl (TaskLayout.confined_self _ _) ⟨f, s, s₁, hst, ?_, haway⟩
  have hret : (m.core.exec .ret).context =
      { m.core.context with rsp := m.core.rsp + 8, rip := (m.core.exec .ret).rip } := rfl
  have hrsp : m.core.rsp = s₁.rsp := congrArg Context.rsp hcontext
  rw [hret, hrsp, hcontext]

/-- A task that runs for the first time is at the entry of `__enter_user`, with its trap frame. -/
theorem Inv.start (habi : k.Abi L) (hi : Inv sym L k m) {s : Core} (hpc : m.pc = .jumped)
    (hrip : m.core.rip = sym.userTaskBootstrap) (hs : k.starts m.current m.core s) :
    Inv sym L k { m with core := s.setGpr rdi (L.trapAddr m.current), pc := .entering } := by
  have hhere := hi.here
  rw [hpc] at hhere
  obtain ⟨hrsp0, hmem⟩ := habi.starts _ _ _ hs
  refine hi.stay habi hrsp0 hmem ?_
  have hrip' : m.core.context.rip = sym.userTaskBootstrap := hrip
  cases hst : m.status m.current with
  | gone =>
    rw [hst] at hhere
    exact hhere.elim
  | active =>
    rw [hst] at hhere
    exact absurd (hrip'.symm.trans hhere) sym.user_ne
  | interrupted f =>
    rw [hst] at hhere
    exact absurd (hrip'.symm.trans hhere.1) sym.user_ne
  | fresh =>
    rw [hst] at hhere
    simp only [Here, Lands] at hhere
    split at hhere
    · exact absurd (hrip'.symm.trans hhere) sym.bootstrap_ne
    · rename_i f hf
      obtain ⟨_, hrsp, hspells⟩ := hhere
      have huser : (L.trapFrame m.current).isSome := by simp [hf]
      have haddr := TaskLayout.toNat_trapAddr huser
      have hsize := L.user_size _ huser
      have hbig : KERNEL_STACK_SIZE = 16384 := by decide
      have hlen : f.trapWords.length = 20 := rfl
      have hrsp' : m.core.rsp.toNat ≤ (L.trapAddr m.current).toNat := hrsp
      refine ⟨f, hf, rfl, ?_⟩
      refine hspells.congr fun x hx hx' => hmem x (.inl ⟨⟨by omega, by omega⟩, by omega⟩)

/-- The handler goes on after the switch and returns. -/
theorem Inv.resume (habi : k.Abi L) (hi : Inv sym L k m) {s : Core} (hpc : m.pc = .back)
    (hs : k.resumes m.current m.core s) : Inv sym L k { m with core := s, pc := .stub } := by
  have hhere := hi.here
  rw [hpc] at hhere
  obtain ⟨f, s₀, s₁, hst, hcontext, hcalls, hstack, hhandler⟩ := hhere
  obtain ⟨hkept, hrsp0, hmem⟩ := habi.resumes _ _ _ _ _ hcalls hcontext
    (fun x hx hx' => hstack x (by omega) hx') hs
  refine hi.stay habi hrsp0 hmem ?_
  rw [hst]
  exact hhandler.stub (congrArg Context.rbx hkept) hmem

/-- **A step keeps the invariant.** -/
theorem Inv.step (habi : k.Abi L) {m' : TaskMachine T} (hi : Inv sym L k m)
    (hstep : m.Step sym L k m') : Inv sym L k m' := by
  have hhere := hi.here
  cases hstep with
  | run s hpc hs =>
    refine hi.stay habi hs.1 hs.2 ?_
    rw [hpc] at hhere ⊢
    exact hhere
  | tick hpc hflag hroom => exact hi.tick habi hroom rfl
  | ret s hpc hs =>
    rw [hpc] at hhere
    obtain ⟨f, hst, hhandler⟩ := hhere
    obtain ⟨⟨hkept, hrsp0⟩, hmem⟩ := habi.returns _ _ _ hs
    refine hi.stay habi hrsp0 hmem ?_
    rw [hst]
    exact hhandler.stub (congrArg Context.rbx hkept) hmem
  | switch next s hpc hne hnext hs => exact hi.switch habi hpc hne hnext hs
  | yield next s hpc hne hnext hs =>
    rw [hpc] at hhere
    have hst : m.status m.current = .active := hhere
    have hinv := hi.switched habi hne hnext hs.2 (show ∀ mem, _ → _ → Lands sym L k m.current
      { s.context with rip := sym.switchReturn } mem .active from fun _ _ _ => rfl)
    rw [← hst, setStatus_self] at hinv
    exact hinv
  | exit next s hpc hne hnext hs =>
    exact hi.switched habi hne hnext hs.2 fun mem _ hgone => absurd rfl hgone
  | back f hpc hrip hst => exact hi.back habi hpc hst
  | backCode hpc hrip hst =>
    exact hi.stay habi rfl (TaskLayout.confined_self _ _) hst
  | start s hpc hrip hs => exact hi.start habi hpc hrip hs
  | startKernel hpc hrip => exact hi.goto habi rfl (TaskLayout.confined_self _ _) rfl
  | resume s hpc hs => exact hi.resume habi hpc hs
  | leave hpc => exact hi.goto habi rfl (TaskLayout.confined_self _ _) rfl
  | enter hpc => exact hi.goto habi rfl (TaskLayout.confined_self _ _) rfl

theorem Inv.steps (habi : k.Abi L) {m' : TaskMachine T} (hi : Inv sym L k m)
    (hrun : m.Steps sym L k m') : Inv sym L k m' := by
  induction hrun with
  | refl => exact hi
  | tail _ hstep ih => exact ih.step habi hstep

omit [DecidableEq T] in
theorem Booted.inv (h : m.Booted sym L) : Inv sym L k m := by
  refine ⟨h.rsp0, ?_, fun t ht hgone => ?_⟩
  · rw [h.pc, h.current]
    rfl
  · obtain ⟨hst, hspells, hframe⟩ := h.fresh t ht
    refine ⟨_, hspells, ?_⟩
    rw [hst, Lands]
    cases hf : L.trapFrame t with
    | none => simp only [newContext, hf, Option.isSome_none, Bool.false_eq_true, if_false]
    | some f =>
      refine ⟨by simp [newContext, hf], ?_, hframe f hf⟩
      simp only [newContext, hf, Option.isSome_some, if_true, toNat_and_not_fifteen]
      omega

/-- **User registers survive preemption.**  In every state of every run: back in the stub of the
timer interrupt, the current task is one that was interrupted, and the rest of the stub up to
`iretq` gives it the general registers and the hardware frame that it had then; and at the entry of
`__enter_user`, a task that was created with a trap frame gets the values of that frame. -/
theorem registers_survive (habi : k.Abi L) {m' : TaskMachine T} (hboot : m.Booted sym L)
    (hrun : m.Steps sym L k m') :
    (m'.pc = .stub → ∃ f, m'.status m'.current = .interrupted f ∧
      (m'.core.run irqStubExit).frame = f) ∧
    (m'.pc = .entering → ∃ f, L.trapFrame m'.current = some f ∧
      (m'.core.run enterUser).frame = f) := by
  have hinv := hboot.inv.steps habi hrun
  have hhere := hinv.here
  refine ⟨fun hpc => ?_, fun hpc => ?_⟩
  · rw [hpc] at hhere
    obtain ⟨f, hst, hhigh, hspells⟩ := hhere
    have hhi := L.hi_lt m'.current
    exact ⟨f, hst, irqStubExit_spec (by omega) hspells⟩
  · rw [hpc] at hhere
    obtain ⟨f, hf, hrdi, hspells⟩ := hhere
    have haddr := TaskLayout.toNat_trapAddr (L := L) (t := m'.current) (by simp [hf])
    have hhi := L.hi_lt m'.current
    have hsize := L.user_size m'.current (by simp [hf])
    have hbig : KERNEL_STACK_SIZE = 16384 := by decide
    refine ⟨f, hf, enterUser_spec ?_ ?_⟩
    · rw [hrdi]
      omega
    · rw [hrdi]
      exact hspells

/-! ### Two tasks -/

/-- Code that does nothing but call and return. -/
def plainCode (L : TaskLayout T) : Compiled T where
  returns _ s s' := s' = s.exec .ret
  calls t s s₁ := L.lo t + 8 ≤ s.rsp.toNat ∧ s.rsp.toNat ≤ L.hi t ∧ s₁ = s.pushWord 0x2080
  resumes _ s s' := s' = s.exec .ret
  starts _ s s' := s' = s

omit [DecidableEq T] in
theorem plainCode_abi (L : TaskLayout T) : (plainCode L).Abi L where
  returns t s s' h := by
    subst h
    exact ⟨⟨rfl, rfl⟩, fun _ _ => rfl⟩
  calls t s s₁ h := by
    obtain ⟨hlow, hhigh, rfl⟩ := h
    have hrsp := pushWord_rsp 0x2080 (c := s) (by omega)
    refine ⟨by omega, by omega, fun x hx => pushWord_bytes 0x2080 (by omega) ?_⟩
    rcases hx with ⟨_, hx⟩ | ⟨t', ht', hx⟩ | ⟨t', hx⟩
    · exact .inr hx
    · have hout : ¬ L.InStack t x := fun h => ht' (hx.eq h)
      rw [TaskLayout.InStack] at hout
      omega
    · have hout : ¬ L.InStack t x := hx.not_stack
      rw [TaskLayout.InStack] at hout
      omega
  resumes t s s₁ s₂ s₃ hcalls hcontext hmem h := by
    obtain ⟨hlow, hhigh, rfl⟩ := hcalls
    subst h
    have hrsp : s₂.rsp = s.rsp := by
      have := congrArg Context.rsp hcontext
      exact this.trans (UInt64.sub_add_cancel s.rsp 8)
    refine ⟨?_, rfl, fun _ _ => rfl⟩
    have hret : (s₂.exec .ret).context =
        { s₂.context with rsp := s₂.rsp + 8, rip := (s₂.exec .ret).rip } := rfl
    rw [hret, hcontext, hrsp]
    rfl
  starts t s s' h := by
    subst h
    exact ⟨rfl, fun _ _ => rfl⟩

def twoLayout : TaskLayout Bool where
  lo t := if t then 0x20000 else 0x10000
  hi t := if t then 0x24000 else 0x14000
  ctx t := if t then 0x30040 else 0x30000
  kstackTop t := if t then 0x24000 else 0x14000
  trapFrame t := some (TrapFrame.newUserFrame (if t then 0x600000 else 0x400000) 0x7ffffffff000)
  hi_lt := by decide
  ctx_le := by decide
  stack_stack := by decide
  ctx_ctx := by decide
  ctx_stack := by decide
  user_top := by decide
  user_size := by decide
  user_align := by decide

def sampleSymbols : Symbols where
  irqStub := 0x1000
  irqHandler := 0x2000
  irqReturn := 0x1040
  switchReturn := 0x3050
  userTaskBootstrap := 0x4000
  kernelTaskBootstrap := 0x5000
  user_ne := by decide
  kernel_ne := by decide
  bootstrap_ne := by decide

/-- One user task runs, the other has been created. -/
def twoTasks : TaskMachine Bool where
  core := {
    gpr := fun
      | .rax => 1
      | .rbx => 2
      | .r15 => 3
      | _ => 4
    rsp := 0x7fffffffeff8
    rip := 0x400010
    cs := 0x23
    rflags := 0x202
    ss := 0x1b
    rsp0 := 0x14000
    mem := storeWords
      (storeWords { bytes := fun _ => 0, stores := [] } 0x30040
        (newContext sampleSymbols twoLayout true).words) (0x24000 - 160)
      (TrapFrame.newUserFrame 0x600000 0x7ffffffff000).trapWords }
  current := false
  pc := .code
  status t := if t then .fresh else .active

theorem twoTasks_booted : twoTasks.Booted sampleSymbols twoLayout where
  pc := rfl
  rsp0 := rfl
  current := rfl
  fresh t ht := by
    cases t with
    | false => exact absurd rfl ht
    | true =>
      refine ⟨rfl, ?_, fun f hf => ?_⟩
      · refine (spells_storeWords _ _ _).congr fun x hx hx' => bytes_storeWords ?_
        have hctx : (twoLayout.ctx true).toNat = 0x30040 := rfl
        have hlen : (newContext sampleSymbols twoLayout true).words.length = 8 := rfl
        have hlen' : (TrapFrame.newUserFrame 0x600000 0x7ffffffff000).trapWords.length = 20 := rfl
        omega
      · cases hf
        exact spells_storeWords _ _ _

/-- The first task is interrupted, the second one runs for the first time and is interrupted, and
the first one gets its registers back. -/
theorem registers_survive_twoTasks : ∃ m', twoTasks.Steps sampleSymbols twoLayout
    (plainCode twoLayout) m' ∧ m'.pc = .stub ∧ m'.current = false ∧
    (m'.core.run irqStubExit).frame = twoTasks.core.frame := by
  have hrun : twoTasks.Steps sampleSymbols twoLayout (plainCode twoLayout) _ :=
    .head (.tick rfl (by decide +kernel) (by unfold Room; decide +kernel)) <|
    .head (.switch true _ rfl (by decide) (by simp [setStatus, twoTasks])
      ⟨by decide +kernel, by decide +kernel, rfl⟩) <|
    .head (.start _ rfl (by decide +kernel) rfl) <|
    .head (.enter rfl) <|
    .head (.tick rfl (by decide +kernel) (by unfold Room; decide +kernel)) <|
    .head (.switch false _ rfl (by decide) (by simp [setStatus, twoTasks])
      ⟨by decide +kernel, by decide +kernel, rfl⟩) <|
    .head (.back twoTasks.core.frame rfl (by decide +kernel) rfl) <|
    .head (.resume _ rfl rfl) .refl
  obtain ⟨f, hst, hframe⟩ := (registers_survive (plainCode_abi twoLayout) twoTasks_booted hrun).1 rfl
  refine ⟨_, hrun, rfl, rfl, ?_⟩
  cases hst
  exact hframe

end TaskMachine

end Zeronix
