import Mathlib.Logic.Relation
import Zeronix.Mem.BuddyRuns
import Zeronix.Task.Proc

/-!
# Runs of the kernel

A step is one of the calls of `src/task/proc.rs`, a heap that grows, or code that runs between
them.  That code is any program, kernel or user: it may write what was given out as data, that
is the stacks and code pages of the processes and the chunks of the heap.
-/

namespace Zeronix

open Mapper Page

/-- The blocks a process holds.  The boot process has none: it runs on the static stack. -/
def Proc.blocks (p : Proc) : List (Nat × Nat) :=
  if p.pid = 0 then []
  else (p.kstackPhys, KERNEL_STACK_ORDER) :: ((p.userCodePhys.map fun a => (a, 0)).toList ++
    (p.userStackPhys.map fun a => (a, USER_STACK_ORDER)).toList)

namespace System

/-- The blocks given out as data. -/
def data (s : System) : List (Nat × Nat) :=
  s.procs.flatMap Proc.blocks ++ s.chunks.map fun a => (a, CHUNK_ORDER)

/-- The state in which `kernel_main` reaches its first call of `proc.rs`. -/
def boot (metadata : List PageInfo) (memMap : List MemoryArea) (reserved : List (Nat × Nat))
    (mem : Memory) (l : BootLayout) (ring0StackTop : Nat) : Option System := do
  let b ← BuddyAllocator.new metadata memMap reserved
  let (pml4, pm) ← initKernelPageTable { buddy := b, mem := mem } memMap l
  return {
    pm := pm
    kernelPml4 := pml4
    ring0StackTop := ring0StackTop
    procs := []
    readyQueue := []
    nextPid := 1
    current := none
    chunks := []
    cr3 := pml4 &&& ADDR_MASK
    rsp0 := ring0StackTop }

inductive Action where
  | init
  | spawnKernel (entry : Nat)
  | spawnUser (code : List UInt8)
  | spawnElf (image : List UInt8)
  | yieldNow
  | onTimerTick
  | exitCurrent
  | growHeap

/-- One call; `none` when it panics. -/
def exec (s : System) : Action → Option System
  | .init => s.init
  | .spawnKernel entry => (s.spawnKernel entry).map Prod.snd
  | .spawnUser code => (s.spawnUser code).map Prod.snd
  | .spawnElf image => (s.spawnElf image).map Prod.snd
  | .yieldNow => s.yieldNow
  | .onTimerTick => s.onTimerTick
  | .exitCurrent => s.exitCurrent
  | .growHeap => s.growHeap

inductive Step : System → System → Prop
  | call {s s' : System} (a : Action) : s.exec a = some s' → Step s s'
  | write {s : System} (m : Memory) : (∀ x, ¬ Session.InBlocks s.data x → m.bytes x = s.pm.mem.bytes x) →
      Step s { s with pm := { s.pm with mem := m } }

/-- Any number of steps. -/
abbrev Steps : System → System → Prop := Relation.ReflTransGen Step

/-! ### What the calls do -/

theorem kernelPml4?_eq_some {s : System} {pml4 : Nat} (h : s.kernelPml4? = some pml4) :
    pml4 = s.kernelPml4 := by
  unfold kernelPml4? at h
  split at h
  · simp at h
  · exact (Option.some.inj h).symm

theorem spawnKernel_cases {s s' : System} {entry i : Nat} (h : s.spawnKernel entry = some (i, s')) :
    ∃ s₁ kstack b top, s.init = some s₁ ∧
      s₁.pm.buddy.allocate KERNEL_STACK_ORDER = some (some kstack, b) ∧
      kstackTop kstack = some top ∧ (i, s') = { s₁ with
        nextPid := (s₁.nextPid + 1) % Word.modulus
        pm := { s₁.pm with buddy := b } }.addProc {
          pid := s₁.nextPid
          state := .Ready
          pagetable := s₁.kernelPml4
          kstackPhys := kstack
          kstackTop := top
          kind := .Kernel
          ticksLeft := DEFAULT_TIME_SLICE_TICKS
          entry := some entry
          trapFrame := none
          userCodePhys := none
          userStackPhys := none } := by
  simp only [spawnKernel, fetchPid, Option.bind_eq_bind, Option.bind_eq_some_iff] at h
  obtain ⟨s₁, hinit, ⟨addr, b⟩, halloc, h⟩ := h
  cases addr with
  | none => simp at h
  | some kstack =>
    simp only [startKernel, Option.bind_eq_bind, Option.bind_eq_some_iff] at h
    obtain ⟨top, htop, pml4, hpml4, h⟩ := h
    refine ⟨s₁, kstack, b, top, hinit, halloc, htop, ?_⟩
    rw [kernelPml4?_eq_some hpml4] at h
    exact (Option.some.inj h).symm

theorem loadUser_cases {s s' : System} {pid pagetable kstack code ustack virt rip stackTop i : Nat}
    {bytes : List UInt8}
    (h : s.loadUser pid pagetable (kstack, code, ustack) bytes virt rip stackTop = some (i, s')) :
    ∃ pm₁ pm₂ pm₃ top trapFrame, writeCode s.pm code bytes = some pm₁ ∧
      mapIntoPageTable pm₁ pagetable virt code (EntryFlags.PRESENT ||| EntryFlags.USER) = some pm₂ ∧
      mapUserStack pm₂ pagetable stackTop ustack = some pm₃ ∧
      kstackTop kstack = some top ∧ Word.sub top TrapFrame.SIZE = some trapFrame ∧
      (i, s') = { s with pm := { pm₃ with
        mem := TrapFrame.write pm₃.mem (kstack + KERNEL_STACK_SIZE - TrapFrame.SIZE)
          (TrapFrame.newUser rip stackTop) } }.addProc {
            pid := pid
            state := .Ready
            pagetable := pagetable
            kstackPhys := kstack
            kstackTop := top
            kind := .User
            ticksLeft := DEFAULT_TIME_SLICE_TICKS
            entry := none
            trapFrame := some trapFrame
            userCodePhys := some code
            userStackPhys := some ustack } := by
  simp only [loadUser, startUser, Option.bind_eq_bind, Option.bind_eq_some_iff] at h
  obtain ⟨pm₁, h₁, pm₂, h₂, pm₃, h₃, top, htop, tf, htf, h⟩ := h
  exact ⟨pm₁, pm₂, pm₃, top, tf, h₁, h₂, h₃, htop, htf, (Option.some.inj h).symm⟩

theorem spawnUser_cases {s s' : System} {code : List UInt8} {i : Nat}
    (h : s.spawnUser code = some (i, s')) :
    ∃ s₁ codeBase stackTop pagetable pm₁ blocks pm₂, s.init = some s₁ ∧ code.length ≤ PAGE_SIZE ∧
      userCodeBase s₁.nextPid = some codeBase ∧ userStackTop s₁.nextPid = some stackTop ∧
      s₁.newPageTable = some (pagetable, pm₁) ∧ allocBlocks pm₁ = some (some blocks, pm₂) ∧
      { s₁ with nextPid := (s₁.nextPid + 1) % Word.modulus, pm := pm₂ }.loadUser s₁.nextPid pagetable
        blocks (userCode code) codeBase codeBase stackTop = some (i, s') := by
  simp only [spawnUser, fetchPid, Option.bind_eq_bind, Option.bind_eq_some_iff] at h
  obtain ⟨s₁, hinit, h⟩ := h
  split at h
  · simp at h
  · rename_i hlen
    simp only [Option.bind_eq_some_iff, spawnUserWith, Option.bind_eq_bind] at h
    obtain ⟨codeBase, hcode, stackTop, hstack, ⟨pagetable, pm₁⟩, hpt, ⟨blocks, pm₂⟩, hblocks, h⟩ := h
    cases blocks with
    | none => simp at h
    | some blocks =>
      exact ⟨s₁, codeBase, stackTop, pagetable, pm₁, blocks, pm₂, hinit, by omega, hcode, hstack, hpt,
        hblocks, h⟩

theorem spawnElf_cases {s s' : System} {image : List UInt8} {res : Except SpawnError Nat}
    (h : s.spawnElf image = some (res, s')) :
    ∃ s₁, s.init = some s₁ ∧
      ((s' = s₁ ∧ (∃ e, res = .error e) ∧ ∀ parsed, Elf.parse image = some (.ok parsed) →
        PAGE_SIZE < parsed.load.fileSize ∨ PAGE_SIZE < parsed.load.memSize) ∨
      ∃ parsed stackTop pagetable pm₁ blocks pm₂, Elf.parse image = some (.ok parsed) ∧
        parsed.load.fileSize ≤ PAGE_SIZE ∧ parsed.load.memSize ≤ PAGE_SIZE ∧
        userStackTop s₁.nextPid = some stackTop ∧ s₁.newPageTable = some (pagetable, pm₁) ∧
        allocBlocks pm₁ = some (blocks, pm₂) ∧
        ((blocks = none ∧ res = .error .NoMemory ∧
          s' = { s₁ with nextPid := (s₁.nextPid + 1) % Word.modulus, pm := pm₂ }) ∨
        ∃ blk i, blocks = some blk ∧ res = .ok i ∧
          { s₁ with nextPid := (s₁.nextPid + 1) % Word.modulus, pm := pm₂ }.loadUser s₁.nextPid
            pagetable blk ((image.drop parsed.load.offset).take parsed.load.fileSize)
            parsed.load.virtAddr parsed.entry stackTop = some (i, s'))) := by
  simp only [spawnElf, Option.bind_eq_bind, Option.bind_eq_some_iff] at h
  obtain ⟨s₁, hinit, parsed?, hparse, h⟩ := h
  refine ⟨s₁, hinit, ?_⟩
  cases parsed? with
  | error e =>
    obtain ⟨rfl, rfl⟩ := Prod.mk.inj (Option.some.inj h)
    refine Or.inl ⟨rfl, ⟨_, rfl⟩, fun parsed hp => ?_⟩
    rw [hparse] at hp
    simp at hp
  | ok parsed =>
    simp only [spawnParsed, fetchPid, Option.bind_eq_bind] at h
    split at h
    · rename_i hsize
      obtain ⟨rfl, rfl⟩ := Prod.mk.inj (Option.some.inj h)
      refine Or.inl ⟨rfl, ⟨_, rfl⟩, fun parsed' hp => ?_⟩
      rw [hparse] at hp
      obtain rfl := Except.ok.inj (Option.some.inj hp)
      exact hsize
    · rename_i hsize
      simp only [Option.bind_eq_some_iff, spawnElfWith, Option.bind_eq_bind] at h
      obtain ⟨stackTop, hstack, ⟨pagetable, pm₁⟩, hpt, ⟨blocks, pm₂⟩, hblocks, h⟩ := h
      refine Or.inr ⟨parsed, stackTop, pagetable, pm₁, blocks, pm₂, hparse, by omega, by omega, hstack,
        hpt, hblocks, ?_⟩
      cases blocks with
      | none =>
        obtain ⟨rfl, rfl⟩ := Prod.mk.inj (Option.some.inj h)
        exact Or.inl ⟨rfl, rfl, rfl⟩
      | some blk =>
        obtain ⟨⟨i, s''⟩, hload, heq⟩ := Option.map_eq_some_iff.mp h
        obtain ⟨rfl, rfl⟩ := Prod.mk.inj heq
        exact Or.inr ⟨blk, i, rfl, rfl, hload⟩

end System

end Zeronix
