import Zeronix.Mem.HeapOps

/-!
# Runs of the heap

A `HeapState` is the memory together with what the owners of the allocations and the
buddy allocator know: the allocations in use, as they were recorded when `alloc` returned,
and the chunks that were handed over.  A run starts with a list head that was never
touched and takes calls of `alloc` and `dealloc` in any order, the owners writing whatever
they like into their own bytes in between.

`HeapState.Inv` ties a state to a shape of the heap.  Every step keeps it, and with it the
safety of the heap: what is in use is apart, aligned and left alone.  Whether the heap
loses bytes depends on the run, see `heap_conserved`.
-/

namespace Zeronix

open Extents

structure HeapState where
  mem : Memory
  live : List Allocation
  chunks : List Nat

namespace Allocation

/-- The allocation behind a pointer that `alloc` just returned, as the memory has it. -/
def recorded (m : Memory) (layout : Layout) (ptr : Nat) : Allocation where
  header := m.load (ptr - BACK_PTR_SIZE)
  used := m.load (m.load (ptr - BACK_PTR_SIZE))
  ptr := ptr
  layout := layout

/-- `x` is one of the bytes the owner asked for. -/
def InRange (a : Allocation) (x : Nat) : Prop := a.ptr ≤ x ∧ x < a.ptr + a.layout.size

end Allocation

namespace HeapState

/-- The memory with an empty record of stores, as a call finds it. -/
def fresh (st : HeapState) : Memory := { st.mem with stores := [] }

/-- What an `alloc` leaves: the allocation recorded and the chunks it used entered. -/
def afterAlloc (st : HeapState) (layout : Layout) (supply : List Nat) :
    Option Nat × Memory × List Nat → HeapState
  | (r, m, rest) =>
    { mem := m
      live := (r.map (Allocation.recorded m layout)).toList ++ st.live
      chunks := ((supply.take (supply.length - rest.length)).map (· + KERNEL_VMA)).reverse ++
        st.chunks }

/-- One step of a run in which every request satisfies `P`. -/
inductive Step (head : Nat) (P : HeapState → Layout → List Nat → Prop) :
    HeapState → HeapState → Prop
  | alloc {st : HeapState} {layout : Layout} {supply : List Nat} {res} :
      Supply head st.chunks supply → P st layout supply →
      Heap.alloc st.fresh head layout supply = some res →
      Step head P st (st.afterAlloc layout supply res)
  | dealloc {st : HeapState} {a : Allocation} {m : Memory} : a ∈ st.live →
      Heap.dealloc st.fresh head a.ptr = some m →
      Step head P st { mem := m, live := st.live.erase a, chunks := st.chunks }
  | write {st : HeapState} {bytes : Nat → UInt8} :
      (∀ x, (∀ a ∈ st.live, ¬ a.InRange x) → bytes x = st.mem.bytes x) →
      Step head P st { st with mem := { bytes := bytes, stores := [] } }

/-- The states of the runs from a list head that was never touched. -/
inductive Reach (head : Nat) (P : HeapState → Layout → List Nat → Prop) : HeapState → Prop
  | start {m : Memory} : ListNode.next m head = 0 →
      Reach head P { mem := m, live := [], chunks := [] }
  | step {st st' : HeapState} : Reach head P st → Step head P st st' → Reach head P st'

/-- The state has the shape `s`; before the first call the list head is not initialised. -/
structure Inv (head : Nat) (st : HeapState) (s : HeapShape) : Prop where
  live : s.live = st.live
  chunks : s.chunks = st.chunks
  wf : s.WF head
  repr : Represents st.mem head s ∨
    ListNode.next st.mem head = 0 ∧ s.free = [] ∧ s.live = [] ∧ s.chunks = []

end HeapState

/-! ### The calls -/

section Calls

variable {head : Nat} {st : HeapState} {s : HeapShape}

theorem Represents.of_bytes {m m' : Memory} (h : Represents m head s) (hb : m'.bytes = m.bytes) :
    Represents m' head s := by
  have hload : ∀ a, m'.load a = m.load a := fun a => by rw [Memory.load, Memory.load, hb]
  exact ⟨h.list.congr fun a _ => hload a, fun a ha => (hload _).trans (h.header a ha),
    fun a ha => (hload _).trans (h.back a ha)⟩

theorem HeapState.Inv.ensure (h : st.Inv head s) (hhead : 0 < head) (hlt : head < 2 ^ 64) :
    Represents (Heap.ensureHeadInitialized st.fresh head) head s ∧
      Memory.Wrote (Spares s.live) st.fresh (Heap.ensureHeadInitialized st.fresh head) := by
  rcases h.repr with hr | ⟨hnext, hfree, hlive, _⟩
  · have hr' : Represents st.fresh head s := hr.of_bytes rfl
    rw [ensureHeadInitialized_eq hr'.list hhead]
    exact ⟨hr', .refl _ _⟩
  · have hinit : Heap.ensureHeadInitialized st.fresh head = ListNode.initAt st.fresh head := by
      rw [Heap.ensureHeadInitialized, if_pos]
      exact .inl hnext
    have hspares : ∀ x, Spares s.live x := by
      intro x a ha
      rw [hlive] at ha
      cases ha
    rw [hinit]
    refine ⟨⟨⟨?_, ?_, ?_, ?_⟩, ?_, ?_⟩, ?_⟩
    · rw [hfree]
      exact ListNode.isList_initAt _ hlt
    · simp [hfree]
    · simp [hfree]
    · simp [hfree]
    · simp [hlive]
    · simp [hlive]
    · exact ((Memory.Wrote.refl _ _).store _ (hspares _)).store _ (hspares _)

theorem AllocStep.chunks {asked layout : Layout} {supply rest : List Nat} {r : Option Nat}
    {s s' : HeapShape} (h : AllocStep asked layout supply s r s' rest) :
    ∃ used, supply = used ++ rest ∧ s'.chunks = (used.map (· + KERNEL_VMA)).reverse ++ s.chunks := by
  induction h with
  | fits _ _ _ => exact ⟨[], rfl, rfl⟩
  | fails _ => exact ⟨[], rfl, rfl⟩
  | @grows supply s phys c r s' rest _ _ hc _ ih =>
    obtain ⟨used, hsup, hch⟩ := ih
    obtain ⟨_, rfl⟩ := Word.add_eq_some.mp hc
    refine ⟨phys :: used, by rw [hsup]; rfl, ?_⟩
    rw [hch, List.map_cons, List.reverse_cons, List.append_assoc]
    rfl

theorem AllocStep.live {asked layout : Layout} {supply rest : List Nat} {r : Option Nat}
    {s s' : HeapShape} (h : AllocStep asked layout supply s r s' rest) :
    (r = none ∧ s'.live = s.live) ∨
      ∃ a : Allocation, r = some a.ptr ∧ a.layout = asked ∧ s'.live = a :: s.live := by
  induction h with
  | fits _ _ _ => exact .inr ⟨_, rfl, rfl, rfl⟩
  | fails _ => exact .inl ⟨rfl, rfl⟩
  | grows _ _ _ _ ih => exact ih

/-- **`alloc`** ends without a panic, is a step of the shape, and writes outside the blocks
in use. -/
theorem HeapState.Inv.alloc (h : st.Inv head s) (hhead : 0 < head) (hlt : head < 2 ^ 64)
    {asked layout : Layout} (hn : AllocLayout.normalizeLayout asked 8 = some layout)
    {supply : List Nat} (hsup : Supply head st.chunks supply) :
    ∃ r m rest s', Heap.alloc st.fresh head asked supply = some (r, m, rest) ∧
      AllocStep asked layout supply s r s' rest ∧
      (st.afterAlloc asked supply (r, m, rest)).Inv head s' ∧
      ∀ x ∈ m.stores, Spares s.live x := by
  obtain ⟨hr, hw⟩ := h.ensure hhead hlt
  rw [← h.chunks] at hsup
  obtain ⟨r, m, rest, s', hloop, hstep, hr', hwf', hw'⟩ := allocLoop_spec hn hhead supply hr h.wf hsup
  refine ⟨r, m, rest, s', ?_, hstep, ⟨?_, ?_, hwf', .inl hr'⟩, ?_⟩
  · rw [Heap.alloc, hn]
    exact hloop
  · rcases hstep.live with ⟨rfl, hl⟩ | ⟨a, rfl, rfl, hl⟩
    · rw [hl, h.live]
      rfl
    · have ha : a ∈ s'.live := by
        rw [hl]
        exact List.mem_cons_self
      have hb := hr'.back a ha
      have hh := hr'.header a ha
      have hrec : Allocation.recorded m a.layout a.ptr = a := by
        unfold HeapNode.size at hh
        simp only [Allocation.recorded, hb, hh]
      rw [hl, h.live, HeapState.afterAlloc, Option.map_some, hrec]
      rfl
  · obtain ⟨used, rfl, hch⟩ := hstep.chunks
    rw [hch, h.chunks, HeapState.afterAlloc, List.length_append, Nat.add_sub_cancel,
      List.take_left]
  · obtain ⟨new, hs, hn', _⟩ := hw.trans hw'
    intro x hx
    rw [hs] at hx
    exact hn' x (by simpa [HeapState.fresh] using hx)

/-- **`dealloc`** of an allocation in use ends without a panic, gives its block back, and
writes outside the other blocks in use. -/
theorem HeapState.Inv.dealloc (h : st.Inv head s) (hhead : 0 < head) {a : Allocation}
    (ha : a ∈ st.live) :
    ∃ m, Heap.dealloc st.fresh head a.ptr = some m ∧
      HeapState.Inv head { mem := m, live := st.live.erase a, chunks := st.chunks } (s.give a) ∧
      ∀ x ∈ m.stores, Spares (st.live.erase a) x := by
  have ha' : a ∈ s.live := by rwa [h.live]
  rcases h.repr with hr | ⟨_, _, hlive, _⟩
  · have hr' : Represents st.fresh head s := hr.of_bytes rfl
    obtain ⟨m, hd, hrep, hw⟩ := dealloc_spec hr' h.wf hhead ha'
    refine ⟨m, hd, ⟨?_, h.chunks, h.wf.give ha', .inl hrep⟩, ?_⟩
    · rw [HeapShape.give, h.live]
    · obtain ⟨new, hs, hn, _⟩ := hw
      intro x hx
      rw [hs] at hx
      rw [← h.live]
      exact hn x (by simpa [HeapState.fresh] using hx)
  · rw [hlive] at ha'
    cases ha'

theorem HeapState.Inv.write (h : st.Inv head s) {bytes : Nat → UInt8}
    (hw : ∀ x, (∀ a ∈ st.live, ¬ a.InRange x) → bytes x = st.mem.bytes x) :
    HeapState.Inv head { st with mem := { bytes := bytes, stores := [] } } s := by
  rw [← h.live] at hw
  have hload : ∀ w, (∀ a ∈ s.live, w + 8 ≤ a.ptr ∨ a.ptr + a.layout.size ≤ w) →
      Memory.load { bytes := bytes, stores := [] } w = st.mem.load w := by
    intro w hout
    refine Memory.readLE_congr fun x h1 h2 => hw x fun a ha hx => ?_
    have := hout a ha
    unfold Allocation.InRange at hx
    omega
  have hroom : ∀ a ∈ s.live, a.ptr + a.layout.size ≤ a.header + a.used := by
    intro a ha
    have := (h.wf.live a ha).room
    omega
  have hheader : ∀ a ∈ s.live, a.header + 32 ≤ a.ptr := fun a ha => (h.wf.live a ha).header
  refine ⟨h.live, h.chunks, h.wf, ?_⟩
  rcases h.repr with hr | ⟨hnext, hrest⟩
  · refine .inl ⟨hr.list.congr fun w hword => hload w fun a ha => ?_, fun c hc => ?_, fun c hc => ?_⟩
    · have hsp := hword.spares h.wf.free h.wf.live h.wf.liveFree a ha
      have := hroom a ha
      have := hheader a ha
      omega
    · refine (hload c.header fun a ha => ?_).trans (hr.header c hc)
      have h1 := h.wf.eq_or_apart ha hc
      have h2 := hroom a ha
      have h3 := hheader a ha
      have h4 := hheader c hc
      have h5 := hroom c hc
      rcases h1 with rfl | h1
      · omega
      · unfold Apart Allocation.extent at h1
        simp only at h1
        omega
    · refine (hload (c.ptr - BACK_PTR_SIZE) fun a ha => ?_).trans (hr.back c hc)
      have h1 := h.wf.eq_or_apart ha hc
      have h2 := hroom a ha
      have h3 := hheader a ha
      have h4 := hheader c hc
      have h5 := hroom c hc
      unfold BACK_PTR_SIZE
      rcases h1 with rfl | h1
      · omega
      · unfold Apart Allocation.extent at h1
        simp only at h1
        omega
  · refine .inr ⟨?_, hrest⟩
    refine (hload head fun a ha => ?_).trans hnext
    rw [hrest.2.1] at ha
    cases ha

end Calls

/-! ### Safety -/

namespace HeapState

variable {head : Nat} {P : HeapState → Layout → List Nat → Prop}

theorem normalize_of_alloc {m : Memory} {layout : Layout} {supply : List Nat} {res}
    (h : Heap.alloc m head layout supply = some res) :
    ∃ layout', AllocLayout.normalizeLayout layout 8 = some layout' := by
  rw [Heap.alloc] at h
  obtain ⟨layout', hn, _⟩ := Option.bind_eq_some_iff.mp h
  exact ⟨layout', hn⟩

theorem Step.inv {st st' : HeapState} {s : HeapShape} (hhead : 0 < head) (hlt : head < 2 ^ 64)
    (h : st.Inv head s) (hstep : Step head P st st') :
    (∃ s', st'.Inv head s') ∧
      ∀ a ∈ st.live, a ∈ st'.live → ∀ x ∈ st'.mem.stores,
        x + 8 ≤ a.header ∨ a.header + a.used ≤ x := by
  cases hstep with
  | alloc hsup _ he =>
    obtain ⟨layout', hn⟩ := normalize_of_alloc he
    obtain ⟨r, m, rest, s', he', _, hinv, hsp⟩ := h.alloc hhead hlt hn hsup
    rw [he] at he'
    cases he'
    refine ⟨⟨s', hinv⟩, fun a ha _ x hx => ?_⟩
    rw [← h.live] at ha
    exact hsp x hx a ha
  | dealloc ha he =>
    obtain ⟨m, he', hinv, hsp⟩ := h.dealloc hhead ha
    rw [he] at he'
    cases he'
    exact ⟨⟨_, hinv⟩, fun c _ hc x hx => hsp x hx c hc⟩
  | write hw =>
    refine ⟨⟨s, h.write hw⟩, fun a _ _ x hx => ?_⟩
    cases hx

theorem Reach.inv {st : HeapState} (hhead : 0 < head) (hlt : head < 2 ^ 64)
    (hr : Reach head P st) : ∃ s, st.Inv head s := by
  induction hr with
  | start hnext =>
    refine ⟨{ free := [], live := [], chunks := [] }, rfl, rfl, ⟨List.Pairwise.nil, by simp,
      by simp, List.Pairwise.nil, by simp, ?_⟩, .inr ⟨hnext, rfl, rfl, rfl⟩⟩
    simp [HeapShape.liveExtents]
  | step _ hstep ih =>
    obtain ⟨s, hs⟩ := ih
    exact (hstep.inv hhead hlt hs).1

/-- A memory of zeros, with the list head at `0x1000`. -/
def blank : HeapState := { mem := { bytes := fun _ => 0, stores := [] }, live := [], chunks := [] }

theorem reach_alloc {layout : Layout} {ptr : Nat} {m : Memory} (hP : P blank layout [0x400000])
    (he : Heap.alloc blank.fresh 0x1000 layout [0x400000] = some (some ptr, m, [])) :
    Reach 0x1000 P (blank.afterAlloc layout [0x400000] (some ptr, m, [])) := by
  have hsup : Supply 0x1000 blank.chunks [0x400000] := by
    constructor <;> decide +kernel
  have hstart : Reach 0x1000 P blank := .start (by decide +kernel)
  exact hstart.step (.alloc hsup hP he)

/-- **Kernel heap safety.**  On every run, the ranges of the allocations in use are
disjoint and aligned as asked; the next step writes to no byte of the range, the header or
the back pointer of an allocation that stays in use; `dealloc` finds the header that
`alloc` stored, with its size; and neither call panics or fails to return, when the layout
is accepted and the pointer is in use. -/
theorem heap_safe {st : HeapState} (hhead : 0 < head) (hlt : head < 2 ^ 64)
    (hr : Reach head (fun _ _ _ => True) st) :
    (st.live.Pairwise fun a a' => ∀ x, ¬ (a.InRange x ∧ a'.InRange x)) ∧
    (∀ a ∈ st.live, a.layout.align ∣ a.ptr) ∧
    (∀ st', Step head (fun _ _ _ => True) st st' → ∀ a ∈ st.live, a ∈ st'.live →
      ∀ x ∈ st'.mem.stores, ∀ y, x ≤ y → y < x + 8 → ¬ a.InRange y ∧
        ¬ (a.header ≤ y ∧ y < a.header + HEAP_NODE_SIZE) ∧
        ¬ (a.ptr - BACK_PTR_SIZE ≤ y ∧ y < a.ptr)) ∧
    (∀ a ∈ st.live, Heap.headerFromUserPtr st.mem a.ptr = some a.header ∧
      HeapNode.size st.mem a.header = a.used) ∧
    (∀ layout supply, Supply head st.chunks supply →
      (AllocLayout.normalizeLayout layout 8).isSome →
      ∃ res, Heap.alloc st.fresh head layout supply = some res) ∧
    (∀ a ∈ st.live, ∃ m, Heap.dealloc st.fresh head a.ptr = some m) := by
  obtain ⟨s, hs⟩ := hr.inv hhead hlt
  have hlive := hs.wf.live
  have happart := hs.wf.apart
  rw [hs.live] at hlive happart
  have hin : ∀ a ∈ st.live, a.header + 32 ≤ a.ptr ∧ a.ptr + a.layout.size ≤ a.header + a.used ∧
      a.header + 32 ≤ a.header + a.used := by
    intro a ha
    have h1 := (hlive a ha).header
    have h2 := (hlive a ha).room
    unfold HEAP_NODE_SIZE BACK_PTR_SIZE at h1
    omega
  refine ⟨?_, fun a ha => (hlive a ha).align, ?_, ?_, ?_, fun a ha => ?_⟩
  · refine List.Pairwise.imp_of_mem ?_ happart
    rintro a c ha hc hac x ⟨h1, h2⟩
    have h3 := hin a ha
    have h4 := hin c hc
    unfold Allocation.InRange at h1 h2
    unfold Apart Allocation.extent at hac
    simp only at hac
    omega
  · intro st' hstep a ha ha' x hx y h1 h2
    have h3 := (hstep.inv hhead hlt hs).2 a ha ha' x hx
    have h4 := hin a ha
    unfold Allocation.InRange HEAP_NODE_SIZE BACK_PTR_SIZE
    omega
  · intro a ha
    have h1 := hin a ha
    rcases hs.repr with hrep | ⟨_, _, hnil, _⟩
    · rw [← hs.live] at ha
      refine ⟨?_, hrep.header a ha⟩
      rw [Heap.headerFromUserPtr, Word.sub, if_pos (by unfold BACK_PTR_SIZE; omega)]
      exact congrArg some (hrep.back a ha)
    · rw [← hs.live, hnil] at ha
      cases ha
  · intro layout supply hsup hsome
    obtain ⟨layout', hn⟩ := Option.isSome_iff_exists.mp hsome
    obtain ⟨r, m, rest, _, he, _⟩ := hs.alloc hhead hlt hn hsup
    exact ⟨_, he⟩
  · obtain ⟨m, he, _⟩ := hs.dealloc hhead ha
    exact ⟨m, he⟩

/-- Thirteen bytes at an alignment of `64`. -/
def smallLayout : Layout := { size := 13, align := 64, align_pow := rfl, fits := by decide }

/-- The first request of a run: its pointer is aligned, and its header is found again. -/
theorem heap_safe_first_request : ∃ st a, Reach 0x1000 (fun _ _ _ => True) st ∧ st.live = [a] ∧
    a.ptr = 0xFFFF800000400040 ∧ 64 ∣ a.ptr ∧
    Heap.headerFromUserPtr st.mem a.ptr = some a.header := by
  have hrun : (Heap.alloc blank.fresh 0x1000 smallLayout [0x400000]).map
      (fun res => (res.1, res.2.2)) = some (some 0xFFFF800000400040, []) := by decide +kernel
  obtain ⟨⟨r, m, rest⟩, halloc, heq⟩ := Option.map_eq_some_iff.mp hrun
  obtain ⟨rfl, rfl⟩ : r = some 0xFFFF800000400040 ∧ rest = [] := by simpa using heq
  have hreach := reach_alloc (P := fun _ _ _ => True) trivial halloc
  obtain ⟨_, halign, _, hheader, _⟩ := heap_safe (by decide) (by decide) hreach
  exact ⟨_, Allocation.recorded m smallLayout 0xFFFF800000400040, hreach, rfl, rfl,
    halign _ List.mem_cons_self, (hheader _ List.mem_cons_self).1⟩

/-! ### Requests that are answered -/

/-- **`alloc` answers** on every run, with a pointer or null, exactly where the layout with the
heap's alignment is valid. -/
theorem alloc_answers_iff {st : HeapState} (hhead : 0 < head) (hlt : head < 2 ^ 64)
    (hr : Reach head (fun _ _ _ => True) st) (asked : Layout) {supply : List Nat}
    (hsup : Supply head st.chunks supply) :
    ((∃ layout, AllocLayout.normalizeLayout asked 8 = some layout) ↔
      max asked.size 1 + max asked.align 8 ≤ 2 ^ 63) ∧
    ((∃ res, Heap.alloc st.fresh head asked supply = some res) ↔
      max asked.size 1 + max asked.align 8 ≤ 2 ^ 63) := by
  have hvalid := AllocLayout.normalizeLayout_isSome_iff asked 3
  obtain ⟨s, hs⟩ := hr.inv hhead hlt
  refine ⟨hvalid, ?_⟩
  constructor
  · rintro ⟨res, he⟩
    exact hvalid.mp (normalize_of_alloc he)
  · intro hfits
    obtain ⟨layout, hn⟩ := hvalid.mpr hfits
    obtain ⟨r, m, rest, _, he, _⟩ := hs.alloc hhead hlt hn hsup
    exact ⟨_, he⟩

/-- A layout of alignment `1` that is the largest with its alignment raised. -/
theorem alloc_answers_iff_largest :
    ∃ res, Heap.alloc blank.fresh 0x1000
      { size := 2 ^ 63 - 8, align := 1, align_pow := rfl, fits := by decide } [] = some res :=
  (alloc_answers_iff (by decide) (by decide) (.start (by decide +kernel)) _
    (by constructor <;> simp)).2.mpr (by decide)

/-- The largest layout of alignment `1` is valid, but not with an alignment of `8`: the first
request of a run panics. -/
theorem alloc_panics_largest : ∃ asked : Layout, asked.size = 2 ^ 63 - 1 ∧ asked.align = 1 ∧
    AllocLayout.normalizeLayout asked 8 = none ∧
    Reach 0x1000 (fun _ _ _ => True) blank ∧ Supply 0x1000 blank.chunks [] ∧
    Heap.alloc blank.fresh 0x1000 asked [] = none := by
  refine ⟨{ size := 2 ^ 63 - 1, align := 1, align_pow := rfl, fits := by decide }, rfl, rfl,
    by decide, .start (by decide +kernel), by constructor <;> simp, ?_⟩
  rfl

/-! ### Conservation -/

/-- The free blocks, read off the links from `node` on. -/
def blocksFrom (m : Memory) (head : Nat) : Nat → Nat → List (Nat × Nat)
  | 0, _ => []
  | fuel + 1, node =>
    if node = head then []
    else (HeapNode.ofListNode node, HeapNode.size m (HeapNode.ofListNode node)) ::
      blocksFrom m head fuel (ListNode.next m node)

/-- The free list; it is empty before the head is initialised. -/
def freeBlocks (m : Memory) (head : Nat) : List (Nat × Nat) :=
  if ListNode.next m head = 0 then [] else blocksFrom m head Word.modulus (ListNode.next m head)

theorem freeBlocks_eq {m : Memory} {l : List (Nat × Nat)} (h : FreeList m head l)
    (hhead : 0 < head) : freeBlocks m head = l := by
  have walk : ∀ (rest done : List (Nat × Nat)) (fuel : Nat), FreeList m head (done ++ rest) →
      rest.length < fuel → blocksFrom m head fuel ((nodes rest).headD head) = rest := by
    intro rest
    induction rest with
    | nil =>
      intro done fuel _ hfuel
      obtain ⟨fuel, rfl⟩ : ∃ f, fuel = f + 1 := ⟨fuel - 1, by simp at hfuel; omega⟩
      simp [blocksFrom]
    | cons b rest ih =>
      intro done fuel h hfuel
      obtain ⟨fuel, rfl⟩ : ∃ f, fuel = f + 1 := ⟨fuel - 1, by simp at hfuel; omega⟩
      have hne := h.node_ne_head (b := b) (by simp)
      have hsize := h.size b (by simp)
      simp only [nodes_cons, List.headD_cons]
      rw [blocksFrom, if_neg hne, FreeList.ofListNode_listNode, hsize, h.next_eq]
      have hassoc : done ++ b :: rest = (done ++ [b]) ++ rest := by simp
      rw [hassoc] at h
      rw [ih (done ++ [b]) fuel h (by simpa using hfuel)]
  rw [freeBlocks, if_neg (h.head_links hhead).1, h.list.ring.next_head]
  exact walk l [] Word.modulus h h.length_lt

theorem Inv.freeBlocks_eq {st : HeapState} {s : HeapShape} (h : st.Inv head s) (hhead : 0 < head) :
    freeBlocks st.mem head = s.free := by
  rcases h.repr with hr | ⟨hnext, hfree, _⟩
  · exact HeapState.freeBlocks_eq hr.list hhead
  · rw [freeBlocks, if_pos hnext, hfree]

/-- The block a request is served from: the first free block that fits, in the free list as
it is or as the supplied chunks make it. -/
def chosen (layout : Layout) :
    List Nat → List (Nat × Nat) → Option ((Nat × Nat) × AllocationPlacement)
  | supply, free =>
    match free.findSome? fun b => (fits layout b).map fun p => (b, p) with
    | some found => some found
    | none =>
      match supply with
      | [] => none
      | phys :: supply =>
        if Heap.required layout > CHUNK_SIZE then none
        else chosen layout supply (insertMerge (phys + KERNEL_VMA, CHUNK_SIZE) free)

/-- What a request would leave of the block it is served from is nothing, or large enough
for a block of its own. -/
def NoSliver (head : Nat) (st : HeapState) (layout : Layout) (supply : List Nat) : Prop :=
  ∀ layout' b p, AllocLayout.normalizeLayout layout 8 = some layout' →
    chosen layout' supply (freeBlocks st.mem head) = some (b, p) →
    b.2 = p.usedSize ∨ MIN_FREE_BLOCK_SIZE ≤ b.2 - p.usedSize

theorem chosen_of_no_fit {layout : Layout} {supply : List Nat} {free : List (Nat × Nat)} {phys : Nat}
    (hno : ∀ c ∈ free, fits layout c = none) (hreq : Heap.required layout ≤ CHUNK_SIZE) :
    chosen layout (phys :: supply) free =
      chosen layout supply (insertMerge (phys + KERNEL_VMA, CHUNK_SIZE) free) := by
  have hnone : free.findSome? (fun b => (fits layout b).map fun p => (b, p)) = none := by
    rw [List.findSome?_eq_none_iff]
    intro c hc
    rw [hno c hc]
    rfl
  rw [chosen, hnone]
  simp only [gt_iff_lt, if_neg (Nat.not_lt.mpr hreq)]

theorem chosen_of_fit {layout : Layout} {supply : List Nat} {l₁ l₂ : List (Nat × Nat)}
    {b : Nat × Nat} {p : AllocationPlacement} (hno : ∀ c ∈ l₁, fits layout c = none)
    (hp : fits layout b = some p) : chosen layout supply (l₁ ++ b :: l₂) = some (b, p) := by
  have hsome : (l₁ ++ b :: l₂).findSome? (fun b => (fits layout b).map fun p => (b, p)) =
      some (b, p) := by
    have hnone : l₁.findSome? (fun b => (fits layout b).map fun p => (b, p)) = none := by
      rw [List.findSome?_eq_none_iff]
      intro c hc
      rw [hno c hc]
      rfl
    rw [List.findSome?_append, hnone]
    simp [hp]
  cases supply with
  | nil => simp only [chosen, hsome]
  | cons phys supply => simp only [chosen, hsome]

theorem conserved_allocStep {asked layout : Layout} {supply rest : List Nat} {r : Option Nat}
    {s s' : HeapShape} (hn : AllocLayout.normalizeLayout asked 8 = some layout)
    (h : AllocStep asked layout supply s r s' rest) (hc : s.Conserved)
    (hchosen : ∀ b p, chosen layout supply s.free = some (b, p) →
      b.2 = p.usedSize ∨ MIN_FREE_BLOCK_SIZE ≤ b.2 - p.usedSize) : s'.Conserved := by
  induction h with
  | @fits supply l₁ l₂ s b p hs hno hp =>
    refine hc.take hs (cutFrom_of_fits hn hp) (hchosen b p ?_)
    rw [hs]
    exact chosen_of_fit hno hp
  | fails _ => exact hc
  | @grows supply s phys c r s' rest hno hreq hadd _ ih =>
    refine ih (hc.grow c) fun b p hbp => hchosen b p ?_
    obtain ⟨_, rfl⟩ := Word.add_eq_some.mp hadd
    rw [chosen_of_no_fit hno hreq]
    exact hbp

theorem Reach.conserved {st : HeapState} (hhead : 0 < head) (hlt : head < 2 ^ 64)
    (hr : Reach head (NoSliver head) st) : ∃ s, st.Inv head s ∧ s.Conserved := by
  induction hr with
  | @start m hnext =>
    obtain ⟨s, hs⟩ := (Reach.start hnext : Reach head (NoSliver head) _).inv hhead hlt
    refine ⟨s, hs, ?_⟩
    have h1 := hs.live
    have h2 := hs.chunks
    rcases hs.repr with hrep | ⟨_, h3, _⟩
    · exact absurd hnext (hrep.list.head_links hhead).1
    · constructor
      · simp [HeapShape.chunkExtents, h2]
      · simp [h3, h1, h2, HeapShape.liveExtents]
  | @step st st' _ hstep ih =>
    obtain ⟨s, hs, hc⟩ := ih
    cases hstep with
    | alloc hsup hno he =>
      obtain ⟨layout', hn⟩ := normalize_of_alloc he
      obtain ⟨r, m, rest, s', he', hstep, hinv, _⟩ := hs.alloc hhead hlt hn hsup
      rw [he] at he'
      cases he'
      refine ⟨s', hinv, conserved_allocStep hn hstep hc fun b p hbp => hno layout' b p hn ?_⟩
      rw [hs.freeBlocks_eq hhead]
      exact hbp
    | dealloc ha he =>
      obtain ⟨m, he', hinv, _⟩ := hs.dealloc hhead ha
      rw [he] at he'
      cases he'
      exact ⟨_, hinv, hc.give (by rwa [hs.live])⟩
    | write hw => exact ⟨s, hs.write hw, hc⟩

/-- The extents are, in address order, the maximal contiguous unions of the chunks. -/
structure IsUnions (chunks : List Nat) (l : List (Nat × Nat)) : Prop where
  separated : Separated l
  nonempty : ∀ b ∈ l, 0 < b.2
  covers : ∀ x, Covered l x ↔ ∃ c ∈ chunks, c ≤ x ∧ x < c + CHUNK_SIZE

theorem reach_return (layout : Layout) (ptr : Nat) (free : List (Nat × Nat))
    (hP : P blank layout [0x400000])
    (hrun : ((Heap.alloc blank.fresh 0x1000 layout [0x400000]).bind fun res =>
      (Heap.dealloc { res.2.1 with stores := [] } 0x1000 ptr).map fun m =>
        (res.1, res.2.2, freeBlocks m 0x1000)) = some (some ptr, [], free)) :
    ∃ st, Reach 0x1000 P st ∧ st.live = [] ∧ st.chunks = [0x400000 + KERNEL_VMA] ∧
      freeBlocks st.mem 0x1000 = free := by
  obtain ⟨⟨r, m, rest⟩, halloc, hrun⟩ := Option.bind_eq_some_iff.mp hrun
  obtain ⟨m', hdealloc, heq⟩ := Option.map_eq_some_iff.mp hrun
  obtain ⟨rfl, rfl, hfree⟩ : r = some ptr ∧ rest = [] ∧ freeBlocks m' 0x1000 = free := by
    simpa using heq
  refine ⟨_, (reach_alloc hP halloc).step
    (.dealloc (a := Allocation.recorded m layout ptr) ?_ hdealloc), ?_, rfl, hfree⟩
  · exact List.mem_cons_self
  · simp [afterAlloc, blank]

/-- **Conservation, when no request leaves a sliver.**  On every run in which each request
uses up the block it is served from or leaves enough for another block, whenever nothing
is in use the free list is the list of the maximal unions of the chunks, and its sizes add
up to theirs. -/
theorem heap_conserved {st : HeapState} (hhead : 0 < head) (hlt : head < 2 ^ 64)
    (hr : Reach head (NoSliver head) st) (hnil : st.live = []) :
    IsUnions st.chunks (freeBlocks st.mem head) ∧
      total (freeBlocks st.mem head) = CHUNK_SIZE * st.chunks.length := by
  obtain ⟨s, hs, hc⟩ := hr.conserved hhead hlt
  have hlive : s.liveExtents = [] := by
    rw [HeapShape.liveExtents, hs.live, hnil]
    rfl
  have hchunks : ∀ x, Covered s.chunkExtents x ↔ ∃ c ∈ st.chunks, c ≤ x ∧ x < c + CHUNK_SIZE := by
    intro x
    rw [HeapShape.chunkExtents, hs.chunks]
    simp [Covered, Has]
  have htotal := hc.total
  rw [hlive, total_nil, Nat.add_zero, hs.chunks] at htotal
  rw [hs.freeBlocks_eq hhead]
  refine ⟨⟨hs.wf.separated, fun b hb => HeapShape.pos_of_isBlock (hs.wf.free b hb), fun x => ?_⟩,
    htotal⟩
  rw [← hchunks x]
  constructor
  · intro hx
    exact hs.wf.inside x (.inl hx)
  · intro hx
    rcases hc.covered x hx with hx | hx
    · exact hx
    · rw [hlive] at hx
      exact absurd hx (covered_nil x)

/-- The first request of a run and its return give the whole chunk back. -/
theorem heap_conserved_one_chunk : ∃ st, Reach 0x1000 (NoSliver 0x1000) st ∧ st.live = [] ∧
    st.chunks.length = 1 ∧ total (freeBlocks st.mem 0x1000) = CHUNK_SIZE := by
  have hno : NoSliver 0x1000 blank smallLayout [0x400000] := by
    intro layout' b p hn hc
    have hchosen : (AllocLayout.normalizeLayout smallLayout 8).bind (fun layout' =>
        chosen layout' [0x400000] (freeBlocks blank.mem 0x1000)) =
        some ((0xFFFF800000400000, 4194304), { userPtr := 0xFFFF800000400040, usedSize := 80 }) := by
      decide +kernel
    rw [hn, Option.bind_some, hc] at hchosen
    cases hchosen
    decide
  obtain ⟨st, hreach, hlive, hchunks, _⟩ := reach_return (P := NoSliver 0x1000) smallLayout
    0xFFFF800000400040 [(0xFFFF800000400000, 4194304)] hno (by decide +kernel)
  have htotal := (heap_conserved (by decide) (by decide) hreach hlive).2
  rw [hchunks] at htotal
  exact ⟨st, hreach, hlive, by rw [hchunks]; rfl, htotal⟩

/-- All of a chunk but eight bytes. -/
def sliverLayout : Layout := { size := 4194264, align := 8, align_pow := rfl, fits := by decide }

/-- A request that leaves eight bytes of a chunk loses them for good: after everything was
given back, the free list is eight bytes short. -/
theorem lost_sliver : ¬ ∀ (head : Nat) (st : HeapState), 0 < head → head < 2 ^ 64 →
    Reach head (fun _ _ _ => True) st → st.live = [] →
    IsUnions st.chunks (freeBlocks st.mem head) ∧
      total (freeBlocks st.mem head) = CHUNK_SIZE * st.chunks.length := by
  intro h
  obtain ⟨st, hreach, hlive, hchunks, hfree⟩ := reach_return (P := fun _ _ _ => True) sliverLayout
    0xFFFF800000400020 [(0xFFFF800000400000, 4194296)] trivial (by decide +kernel)
  have htotal := (h 0x1000 st (by decide) (by decide) hreach hlive).2
  rw [hfree, hchunks] at htotal
  exact absurd htotal (by decide +kernel)

end HeapState

end Zeronix
