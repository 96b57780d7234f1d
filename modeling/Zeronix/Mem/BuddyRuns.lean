import Zeronix.Mem.BuddyRegion

/-!
# Runs of the buddy allocator

A `Session` is an allocator together with what its callers hold: the address and order of
every block that was returned and not given back.  `Reach b s` says that `s` is reached
from the fresh allocator `b` by `allocate`, `allocate_below` and `deallocate` calls in
which only live addresses are given back.

Two invariants hold along every run.  `Session.Ledger` ties the callers' list to the
metadata: the live blocks are exactly those tagged not free, and the tagged pages are
the ones that were free at the start.  Read page by page, this is the partition of the
initial pages into live and free blocks.  `Tiling.Coalesced` says that no two free
buddies of one order are left unmerged, which makes the free blocks a function of the
free pages: the history of a run leaves no trace.
-/

namespace Zeronix

open Dyadic

namespace BuddyAllocator

/-- The chain of pages from a list head, at most `fuel` of them. -/
def chainFrom (b : BuddyAllocator) : Nat → Option Nat → List Nat
  | _, none => []
  | 0, some _ => []
  | fuel + 1, some p => p :: chainFrom b fuel (b.metadata[p]?.bind PageInfo.next?)

/-- The free list of an order, read off the links. -/
def freeList (b : BuddyAllocator) (order : Nat) : List Nat :=
  b.chainFrom b.totalPages (b.freeHeads[order]?.bind id)

theorem Inv.freeList_eq {b : BuddyAllocator} {L : Nat → List Nat} (h : Inv b L) {o : Nat}
    (ho : o < MAX_ORDER) : b.freeList o = L o := by
  have chain : ∀ (l : List Nat) (before : Option Nat) (fuel : Nat),
      DList.Seg (fun x => (b.info x).next?) (fun x => (b.info x).prev?) before l none →
      (∀ p ∈ l, p < b.metadata.length) → l.length ≤ fuel → b.chainFrom fuel l.head? = l := by
    intro l
    induction l with
    | nil => intro _ fuel _ _ _; cases fuel <;> rfl
    | cons x l ih =>
      intro before fuel hseg hlt hfuel
      obtain ⟨_, hnx, hseg'⟩ := hseg
      obtain ⟨fuel, rfl⟩ : ∃ f, fuel = f + 1 := ⟨fuel - 1, by simp at hfuel; omega⟩
      rw [List.head?_cons, chainFrom, getElem?_eq_info (hlt x (by simp)), Option.bind_some,
        show (b.info x).next? = l.head? from by simpa using hnx]
      rw [ih (some x) fuel hseg' (fun p hp => hlt p (List.mem_cons_of_mem x hp))
        (by simpa using hfuel)]
  rw [freeList, h.links.heads o ho, Option.bind_some, id]
  refine chain (L o) none b.totalPages (h.links.seg o) (h.links.lt o) ?_
  rw [h.total]
  exact h.links.length_le o

theorem Inv.mem_freeList {b : BuddyAllocator} {L : Nat → List Nat} (h : Inv b L) {o p : Nat}
    (ho : o < MAX_ORDER) : p ∈ b.freeList o ↔ b.tag p = some (o, true) ∧ 2 ^ o ∣ p := by
  rw [h.freeList_eq ho, h.mem o p]

end BuddyAllocator

open BuddyAllocator

/-! ### Sessions -/

inductive BuddyCall where
  | allocate (order : Nat)
  | allocateBelow (order limit : Nat)
  | deallocate (addr : Nat)

structure Session where
  allocator : BuddyAllocator
  live : List (Nat × Nat)

namespace Session

/-- What the callers hold after an allocation of the given order. -/
def record (s : Session) (order : Nat) : Option Nat × BuddyAllocator → Session
  | (some addr, b) => { allocator := b, live := (addr, order) :: s.live }
  | (none, b) => { allocator := b, live := s.live }

/-- One call; `none` when it panics or does not return. -/
def exec (s : Session) : BuddyCall → Option Session
  | .allocate order => (s.allocator.allocate order).map (s.record order)
  | .allocateBelow order limit => (s.allocator.allocateBelow order limit).map (s.record order)
  | .deallocate addr => (s.allocator.deallocate addr).map fun b =>
      { allocator := b, live := s.live.filter fun e => e.1 != addr }

/-- Only live addresses may be given back. -/
def Allowed (s : Session) : BuddyCall → Prop
  | .deallocate addr => ∃ order, (addr, order) ∈ s.live
  | _ => True

/-- The states reached from a fresh allocator. -/
inductive Reach (b : BuddyAllocator) : Session → Prop
  | start : Reach b { allocator := b, live := [] }
  | call {s s' : Session} {c : BuddyCall} : Reach b s → s.Allowed c → s.exec c = some s' → Reach b s'

/-- `x` is a page of the block of the given order at `addr`. -/
def InBlock (addr order x : Nat) : Prop := addr / PAGE_SIZE ≤ x ∧ x < addr / PAGE_SIZE + 2 ^ order

/-- The byte at `x` lies in one of the blocks. -/
def InBlocks (blocks : List (Nat × Nat)) (x : Nat) : Prop :=
  ∃ blk ∈ blocks, InBlock blk.1 blk.2 (x / PAGE_SIZE)

/-- A block of the session: live, or on the free list of its order. -/
inductive Block (s : Session) : Bool × Nat × Nat → Prop
  | live {addr order : Nat} : (addr, order) ∈ s.live → Block s (false, addr, order)
  | free {pfn order : Nat} : order < MAX_ORDER → pfn ∈ s.allocator.freeList order →
      Block s (true, pfn * PAGE_SIZE, order)

/-- The callers' list and the metadata tell the same story, over the pages of `b`. -/
structure Ledger (b : BuddyAllocator) (s : Session) : Prop where
  inv : ∃ L, Inv s.allocator L
  length : s.allocator.metadata.length = b.metadata.length
  pages : ∀ x, (s.allocator.tag x).isSome = (b.tag x).isSome
  nodup : s.live.Nodup
  live : ∀ addr o, (addr, o) ∈ s.live ↔
    ∃ p, addr = p * PAGE_SIZE ∧ s.allocator.tag p = some (o, false) ∧ 2 ^ o ∣ p

theorem Ledger.take {b b' : BuddyAllocator} {s : Session} {L L' : Nat → List Nat}
    (h : Ledger b s) (hI : Inv s.allocator L) {o p order : Nat} (hord : order ≤ o) (hp : p ∈ L o)
    (hI' : Inv b' L') (hlen : b'.metadata.length = s.allocator.metadata.length)
    (htag : b'.tag = s.allocator.tag.overlay o p (pieces p order)) :
    Ledger b { allocator := b', live := (p * PAGE_SIZE, order) :: s.live } := by
  obtain ⟨htp, hd⟩ := (hI.mem o p).mp hp
  have hd' : 2 ^ order ∣ p := (pow_dvd_pow 2 hord).trans hd
  have hpos := Nat.two_pow_pos order
  have hin : ∀ x, x / 2 ^ o = p / 2 ^ o → s.allocator.tag x = some (o, true) := fun x hx =>
    hI.tiles p o true htp x hx
  refine ⟨⟨L', hI'⟩, hlen.trans h.length, fun x => ?_, ?_, fun addr k => ?_⟩
  · rw [← h.pages x]
    show (b'.tag x).isSome = _
    rw [htag]
    by_cases hx : x / 2 ^ o = p / 2 ^ o
    · rw [Tiling.overlay_of_mem hx, hin x hx, pieces]
      split <;> rfl
    · rw [Tiling.overlay_of_not_mem hx]
  · refine List.nodup_cons.mpr ⟨fun hm => ?_, h.nodup⟩
    obtain ⟨q, hq, ht, _⟩ := (h.live _ _).mp hm
    obtain rfl : p = q := Nat.eq_of_mul_eq_mul_right (by decide) hq
    rw [htp] at ht
    simp at ht
  · rw [List.mem_cons, h.live]
    show _ ↔ ∃ q, addr = q * PAGE_SIZE ∧ b'.tag q = some (k, false) ∧ 2 ^ k ∣ q
    rw [htag]
    constructor
    · rintro (he | ⟨q, hq, ht, hdq⟩)
      · obtain ⟨rfl, rfl⟩ := Prod.mk.inj he
        refine ⟨p, rfl, ?_, hd'⟩
        rw [Tiling.overlay_of_mem rfl, pieces, if_pos (by omega)]
      · refine ⟨q, hq, ?_, hdq⟩
        rw [Tiling.overlay_of_not_mem]
        · exact ht
        · intro hx
          rw [hin q hx] at ht
          simp at ht
    · rintro ⟨q, rfl, ht, hdq⟩
      by_cases hx : q / 2 ^ o = p / 2 ^ o
      · -- inside, the only pages not free are those just taken
        rw [Tiling.overlay_of_mem hx] at ht
        unfold pieces at ht
        split at ht
        · rename_i hlt
          simp only [Option.some.injEq, Prod.mk.injEq, and_true] at ht
          subst ht
          obtain ⟨hge, _⟩ := (div_eq_iff hd).mp hx
          have : q = p := eq_of_dvd_of_div_eq hdq hd' ((div_eq_iff hd').mpr ⟨hge, hlt⟩)
          exact Or.inl (by rw [this])
        · simp at ht
      · rw [Tiling.overlay_of_not_mem hx] at ht
        exact Or.inr ⟨q, rfl, ht, hdq⟩

theorem Ledger.give {b b' : BuddyAllocator} {s : Session} {L L' : Nat → List Nat}
    (h : Ledger b s) (hI : Inv s.allocator L) {o p cur k : Nat}
    (hp : s.allocator.tag p = some (o, false)) (hd : 2 ^ o ∣ p)
    (hI' : Inv b' L') (hlen : b'.metadata.length = s.allocator.metadata.length)
    (hpk : p / 2 ^ k = cur / 2 ^ k)
    (htag : b'.tag = s.allocator.tag.overlay k cur (fun _ => some (k, true)))
    (hold : ∀ x, x / 2 ^ k = cur / 2 ^ k →
      x / 2 ^ o = p / 2 ^ o ∨ ∃ o', s.allocator.tag x = some (o', true)) :
    Ledger b { allocator := b', live := s.live.filter fun e => e.1 != p * PAGE_SIZE } := by
  have hin : ∀ x, x / 2 ^ k = cur / 2 ^ k →
      s.allocator.tag x = some (o, false) ∨ ∃ o', s.allocator.tag x = some (o', true) := by
    intro x hx
    rcases hold x hx with hx' | hx'
    · exact Or.inl (hI.tiles p o false hp x hx')
    · exact Or.inr hx'
  refine ⟨⟨L', hI'⟩, hlen.trans h.length, fun x => ?_, h.nodup.filter _, fun addr j => ?_⟩
  · rw [← h.pages x]
    show (b'.tag x).isSome = _
    rw [htag]
    by_cases hx : x / 2 ^ k = cur / 2 ^ k
    · rw [Tiling.overlay_of_mem hx]
      rcases hin x hx with ht | ⟨o', ht⟩ <;> rw [ht] <;> rfl
    · rw [Tiling.overlay_of_not_mem hx]
  · rw [List.mem_filter, h.live]
    show _ ↔ ∃ q, addr = q * PAGE_SIZE ∧ b'.tag q = some (j, false) ∧ 2 ^ j ∣ q
    rw [htag]
    constructor
    · rintro ⟨⟨q, rfl, ht, hdq⟩, hne⟩
      refine ⟨q, rfl, ?_, hdq⟩
      rw [Tiling.overlay_of_not_mem]
      · exact ht
      · intro hx
        rcases hold q hx with hx' | ⟨o', ht'⟩
        · -- a live block inside the merged one is the block given back
          have ht' := hI.tiles p o false hp q hx'
          rw [ht] at ht'
          simp only [Option.some.injEq, Prod.mk.injEq, and_true] at ht'
          subst ht'
          rw [eq_of_dvd_of_div_eq hdq hd hx'] at hne
          simp at hne
        · rw [ht] at ht'
          simp at ht'
    · rintro ⟨q, rfl, ht, hdq⟩
      by_cases hx : q / 2 ^ k = cur / 2 ^ k
      · rw [Tiling.overlay_of_mem hx] at ht
        simp at ht
      · rw [Tiling.overlay_of_not_mem hx] at ht
        refine ⟨⟨q, rfl, ht, hdq⟩, ?_⟩
        simp only [bne_iff_ne, ne_eq]
        intro he
        exact hx (by rw [Nat.eq_of_mul_eq_mul_right (by decide) he, hpk])

theorem Ledger.exec_cases {b : BuddyAllocator} {s : Session} (h : Ledger b s) {L : Nat → List Nat}
    (hI : Inv s.allocator L) {c : BuddyCall} (hc : s.Allowed c) :
    ∃ s', s.exec c = some s' ∧ (s' = s ∨
      (∃ o p order L', order ≤ o ∧ p ∈ L o ∧ Inv s'.allocator L' ∧
        s'.allocator.metadata.length = s.allocator.metadata.length ∧
        s'.allocator.tag = s.allocator.tag.overlay o p (pieces p order) ∧
        s'.live = (p * PAGE_SIZE, order) :: s.live) ∨
      (∃ o p cur k L', s.allocator.tag p = some (o, false) ∧ 2 ^ o ∣ p ∧ Inv s'.allocator L' ∧
        s'.allocator.metadata.length = s.allocator.metadata.length ∧ k < MAX_ORDER ∧
        p / 2 ^ k = cur / 2 ^ k ∧
        s'.allocator.tag = s.allocator.tag.overlay k cur (fun _ => some (k, true)) ∧
        (∀ x, x / 2 ^ k = cur / 2 ^ k →
          x / 2 ^ o = p / 2 ^ o ∨ ∃ o', s.allocator.tag x = some (o', true)) ∧
        (k + 1 < MAX_ORDER → ∀ y, y / 2 ^ k = cur / 2 ^ k ^^^ 1 →
          s.allocator.tag y ≠ some (k, true)) ∧
        s'.live = s.live.filter fun e => e.1 != p * PAGE_SIZE)) := by
  have alloc : ∀ (order : Nat) (pred : Nat → Bool),
      ∃ s', (s.allocator.allocateWhere order pred).map (s.record order) = some s' ∧ (s' = s ∨
        ∃ o p L', order ≤ o ∧ p ∈ L o ∧ Inv s'.allocator L' ∧
          s'.allocator.metadata.length = s.allocator.metadata.length ∧
          s'.allocator.tag = s.allocator.tag.overlay o p (pieces p order) ∧
          s'.live = (p * PAGE_SIZE, order) :: s.live) := by
    intro order pred
    rcases allocateWhere_spec hI order pred with ⟨he, _⟩ | ⟨o, p, b', L', he, hord, hp, _, hI', hl, ht⟩
    · exact ⟨s, by rw [he]; rfl, Or.inl rfl⟩
    · exact ⟨_, by rw [he]; rfl, Or.inr ⟨o, p, L', hord, hp, hI', hl, ht, rfl⟩⟩
  cases c with
  | allocate order =>
    obtain ⟨s', he, hs⟩ := alloc order fun _ => true
    refine ⟨s', he, hs.imp_right fun ⟨o, p, L', hr⟩ => Or.inl ⟨o, p, order, L', hr⟩⟩
  | allocateBelow order limit =>
    obtain ⟨s', he, hs⟩ := alloc order (endsBelow order limit)
    refine ⟨s', he, hs.imp_right fun ⟨o, p, L', hr⟩ => Or.inl ⟨o, p, order, L', hr⟩⟩
  | deallocate addr =>
    obtain ⟨o, hmem⟩ := hc
    obtain ⟨p, rfl, hp, hd⟩ := (h.live addr o).mp hmem
    obtain ⟨b', L', cur, k, he, hI', hlen, _, _, hk, hpk, htag, hold, hmax⟩ := deallocate_spec hI hp hd
    refine ⟨_, by rw [exec, he]; rfl, Or.inr (Or.inr ⟨o, p, cur, k, L', hp, hd, hI', hlen, hk, hpk,
      htag, hold, hmax, rfl⟩)⟩

theorem Ledger.exec {b : BuddyAllocator} {s s' : Session} (h : Ledger b s) {c : BuddyCall}
    (hc : s.Allowed c) (he : s.exec c = some s') : Ledger b s' := by
  obtain ⟨L, hI⟩ := h.inv
  obtain ⟨s'', he', hcases⟩ := h.exec_cases hI hc
  rw [he] at he'
  obtain rfl := Option.some.inj he'
  obtain ⟨b', live'⟩ := s'
  rcases hcases with hs | ⟨o, p, order, L', hord, hp, hI', hlen, htag, hlive⟩ |
    ⟨o, p, cur, k, L', hp, hd, hI', hlen, _, hpk, htag, hold, _, hlive⟩
  · rw [hs]
    exact h
  · simp only at hlive
    rw [hlive]
    exact h.take hI hord hp hI' hlen htag
  · simp only at hlive
    rw [hlive]
    exact h.give hI hp hd hI' hlen hpk htag hold

theorem Ledger.start {b : BuddyAllocator} {L : Nat → List Nat} (hI : Inv b L)
    (hfree : ∀ x o c, b.tag x = some (o, c) → c = true) :
    Ledger b { allocator := b, live := [] } := by
  refine ⟨⟨L, hI⟩, rfl, fun _ => rfl, List.nodup_nil, fun addr o => ?_⟩
  constructor
  · intro hm
    simp at hm
  · rintro ⟨p, _, ht, _⟩
    have := hfree p o false ht
    simp at this

theorem Reach.ledger {b : BuddyAllocator} {L : Nat → List Nat} (hI : Inv b L)
    (hfree : ∀ x o c, b.tag x = some (o, c) → c = true) {s : Session} (h : Reach b s) :
    Ledger b s := by
  induction h with
  | start => exact Ledger.start hI hfree
  | call _ hc he ih => exact ih.exec hc he

/-! ### The partition -/

theorem Ledger.block_iff {b : BuddyAllocator} {s : Session} (h : Ledger b s) {c : Bool}
    {addr o : Nat} : s.Block (c, addr, o) ↔
      ∃ p, addr = p * PAGE_SIZE ∧ s.allocator.tag p = some (o, c) ∧ 2 ^ o ∣ p := by
  obtain ⟨L, hI⟩ := h.inv
  constructor
  · intro hb
    cases hb with
    | live hm => exact (h.live addr o).mp hm
    | @free p _ ho hm => exact ⟨p, rfl, (hI.mem_freeList ho).mp hm⟩
  · rintro ⟨p, rfl, ht, hd⟩
    cases c with
    | false => exact .live ((h.live _ o).mpr ⟨p, rfl, ht, hd⟩)
    | true =>
      have ho := hI.orderLt p o true ht
      exact .free ho ((hI.mem_freeList ho).mpr ⟨ht, hd⟩)

theorem Ledger.block_of_page {b : BuddyAllocator} {s : Session} (h : Ledger b s) {c : Bool}
    {addr o x : Nat} (hb : s.Block (c, addr, o)) (hx : InBlock addr o x) :
    s.allocator.tag x = some (o, c) ∧ addr = x / 2 ^ o * 2 ^ o * PAGE_SIZE := by
  obtain ⟨L, hI⟩ := h.inv
  obtain ⟨p, rfl, ht, hd⟩ := h.block_iff.mp hb
  rw [InBlock, Nat.mul_div_cancel p (by decide : 0 < PAGE_SIZE)] at hx
  have hxp := (div_eq_iff hd).mpr hx
  exact ⟨hI.tiles p o c ht x hxp, by rw [hxp, Nat.div_mul_cancel hd]⟩

/-- **Each initially free page is in exactly one block**, and no other page is in any. -/
theorem Ledger.existsUnique_block {b : BuddyAllocator} {s : Session} (h : Ledger b s) (x : Nat) :
    (b.tag x).isSome = true ↔ ∃! blk : Bool × Nat × Nat, s.Block blk ∧ InBlock blk.2.1 blk.2.2 x := by
  obtain ⟨L, hI⟩ := h.inv
  rw [← h.pages x]
  constructor
  · intro hsome
    obtain ⟨⟨o, c⟩, ht⟩ := Option.isSome_iff_exists.mp hsome
    have hdiv := blockStart_div o x
    refine ⟨(c, x / 2 ^ o * 2 ^ o * PAGE_SIZE, o), ⟨h.block_iff.mpr ⟨_, rfl, ?_, dvd_blockStart o x⟩,
      ?_⟩, ?_⟩
    · exact hI.tiles x o c ht _ hdiv
    · show InBlock _ _ _
      rw [InBlock, Nat.mul_div_cancel _ (by decide : 0 < PAGE_SIZE),
        ← div_eq_iff (dvd_blockStart o x), hdiv]
    · rintro ⟨c', addr, o'⟩ ⟨hb, hin⟩
      obtain ⟨ht', haddr⟩ := h.block_of_page hb hin
      rw [ht] at ht'
      simp only [Option.some.injEq, Prod.mk.injEq] at ht'
      obtain ⟨rfl, rfl⟩ := ht'
      rw [haddr]
  · rintro ⟨⟨c, addr, o⟩, ⟨hb, hin⟩, _⟩
    rw [(h.block_of_page hb hin).1]
    rfl

theorem Ledger.live_spec {b : BuddyAllocator} {s : Session} (h : Ledger b s) {addr o : Nat}
    (hm : (addr, o) ∈ s.live) : ∃ p, addr = p * PAGE_SIZE ∧ 2 ^ o ∣ p ∧
      p + 2 ^ o ≤ b.metadata.length := by
  obtain ⟨L, hI⟩ := h.inv
  obtain ⟨p, rfl, ht, hd⟩ := (h.live addr o).mp hm
  exact ⟨p, rfl, hd, by rw [← h.length]; exact hI.block_le ht hd⟩

theorem Ledger.live_unique {b : BuddyAllocator} {s : Session} (h : Ledger b s)
    {addr addr' o o' x : Nat} (hm : (addr, o) ∈ s.live) (hm' : (addr', o') ∈ s.live)
    (hx : InBlock addr o x) (hx' : InBlock addr' o' x) : addr = addr' ∧ o = o' := by
  obtain ⟨ht, ha⟩ := h.block_of_page (.live hm) hx
  obtain ⟨ht', ha'⟩ := h.block_of_page (.live hm') hx'
  rw [ht] at ht'
  simp only [Option.some.injEq, Prod.mk.injEq, and_true] at ht'
  subst ht'
  exact ⟨ha.trans ha'.symm, rfl⟩

theorem Ledger.length_live_le {b : BuddyAllocator} {s : Session} (h : Ledger b s) :
    s.live.length ≤ b.metadata.length := by
  have hfirst : ∀ {blk}, blk ∈ s.live → InBlock blk.1 blk.2 (blk.1 / PAGE_SIZE) := fun _ =>
    ⟨le_refl _, Nat.lt_add_of_pos_right (Nat.two_pow_pos _)⟩
  have hnd : (s.live.map fun blk => blk.1 / PAGE_SIZE).Nodup := by
    refine List.Nodup.map_on ?_ h.nodup
    intro blk hm blk' hm' heq
    have hsame := h.live_unique hm hm' (hfirst hm) (by rw [heq]; exact hfirst hm')
    exact Prod.ext hsame.1 hsame.2
  have hsub : (s.live.map fun blk => blk.1 / PAGE_SIZE) ⊆ List.range b.metadata.length := by
    intro q hq
    obtain ⟨blk, hm, rfl⟩ := List.mem_map.mp hq
    obtain ⟨p, hp, _, hle⟩ := h.live_spec hm
    have hpos := Nat.two_pow_pos blk.2
    rw [hp, PAGE_SIZE, Nat.mul_div_cancel _ (by decide), List.mem_range]
    omega
  have hle := (List.subperm_of_subset hnd hsub).length_le
  rwa [List.length_map, List.length_range] at hle

theorem Ledger.allocateWhere {b a : BuddyAllocator} {live : List (Nat × Nat)}
    (h : Ledger b { allocator := a, live := live }) (order : Nat) (pred : Nat → Bool) :
    a.allocateWhere order pred = some (none, a) ∨
    ∃ p a', a.allocateWhere order pred = some (some (p * PAGE_SIZE), a') ∧ pred p = true ∧
      Ledger b { allocator := a', live := (p * PAGE_SIZE, order) :: live } := by
  obtain ⟨L, hI⟩ := h.inv
  rcases allocateWhere_spec hI order pred with ⟨he, _⟩ | ⟨o, p, a', L', he, hord, hp, hpred, hI', hl, ht⟩
  · exact Or.inl he
  · exact Or.inr ⟨p, a', he, hpred, h.take hI hord hp hI' hl ht⟩

/-- The usable areas of a map share no byte. -/
def DisjointAreas (memMap : List MemoryArea) : Prop :=
  (memMap.filter (·.usable)).Pairwise fun a a' => ∀ x, ¬ ((a.startAddress.toNat ≤ x ∧
    x < a.endAddress.toNat) ∧ a'.startAddress.toNat ≤ x ∧ x < a'.endAddress.toNat)

theorem DisjointAreas.pages {memMap : List MemoryArea} (h : DisjointAreas memMap) :
    DisjointPages (memMap.filter (·.usable)) := by
  refine List.Pairwise.imp ?_ h
  rintro a a' hx x ⟨⟨h1, h2⟩, h3, h4⟩
  unfold PAGE_SIZE at *
  exact hx (x * 4096) ⟨⟨h1, by omega⟩, h3, by omega⟩

theorem fresh_of_new {metadata : List PageInfo} {memMap : List MemoryArea}
    {reserved : List (Nat × Nat)} {b : BuddyAllocator}
    (hlen : metadata.length ≤ MAX_SUPPORTED_PAGES)
    (hpages : DisjointPages (memMap.filter (·.usable)))
    (hnew : BuddyAllocator.new metadata memMap reserved = some b) :
    ∃ L, Inv b L ∧ b.metadata.length = metadata.length ∧
      (∀ x o c, b.tag x = some (o, c) → c = true) ∧ Tagged reserved (memMap.filter (·.usable)) b := by
  obtain ⟨L, hI, hl, htagged⟩ := new_spec (lt_of_le_of_lt hlen (by decide)) hpages hnew
  exact ⟨L, hI, hl, fun x o c hx => (htagged x o c hx).1, htagged⟩

theorem Reach.ledger_of_new {metadata : List PageInfo} {memMap : List MemoryArea}
    {reserved : List (Nat × Nat)} {b : BuddyAllocator} {s : Session} (hrun : Reach b s)
    (hlen : metadata.length ≤ MAX_SUPPORTED_PAGES) (hareas : DisjointAreas memMap)
    (hnew : BuddyAllocator.new metadata memMap reserved = some b) : Ledger b s := by
  obtain ⟨L, hI, _, hfree, _⟩ := fresh_of_new hlen hareas.pages hnew
  exact hrun.ledger hI hfree

theorem Ledger.unreserved {metadata : List PageInfo} {memMap : List MemoryArea}
    {reserved : List (Nat × Nat)} {b : BuddyAllocator} {s : Session} (h : Ledger b s)
    (hlen : metadata.length ≤ MAX_SUPPORTED_PAGES) (hareas : DisjointAreas memMap)
    (hnew : BuddyAllocator.new metadata memMap reserved = some b) {addr o x : Nat}
    (hm : (addr, o) ∈ s.live) (hx : InBlock addr o (x / PAGE_SIZE)) {r : Nat × Nat}
    (hr : r ∈ reserved) : ¬ (r.1 ≤ x ∧ x < r.2) := by
  obtain ⟨_, _, _, _, hfrom⟩ := fresh_of_new hlen hareas.pages hnew
  have hpage := h.pages (x / PAGE_SIZE)
  rw [(h.block_of_page (.live hm) hx).1, Option.isSome_some, eq_comm,
    Option.isSome_iff_exists] at hpage
  obtain ⟨⟨o', c⟩, htag⟩ := hpage
  obtain ⟨_, q, ⟨a, _, start, _, hplaced⟩, hq⟩ := hfrom _ _ _ htag
  have hdvd := Nat.div_mul_cancel hplaced.dvd
  have hpos := Nat.two_pow_pos o'
  have hlo := Nat.div_mul_le_self (x / PAGE_SIZE) (2 ^ o')
  have hhi := Nat.lt_div_mul_add hpos (a := x / PAGE_SIZE)
  rw [hq, hdvd] at hlo hhi
  refine hplaced.apart hr ?_ ?_
  · exact (Nat.mul_le_mul_right _ hlo).trans (Nat.div_mul_le_self x PAGE_SIZE)
  · exact (Nat.div_lt_iff_lt_mul (by decide)).mp hhi

/-- **No double allocation and no loss.**  On every run from a fresh allocator, live
blocks are aligned, in range and made of initially free pages; different blocks, live or
free, share no page; the initially free pages are exactly the pages of the blocks, each
in one block; and every allowed call returns. -/
theorem buddy_partition {metadata : List PageInfo} {memMap : List MemoryArea}
    {reserved : List (Nat × Nat)} {b : BuddyAllocator} {s : Session}
    (hlen : metadata.length ≤ MAX_SUPPORTED_PAGES) (hareas : DisjointAreas memMap)
    (hnew : BuddyAllocator.new metadata memMap reserved = some b) (hrun : Reach b s) :
    (∀ addr o, (addr, o) ∈ s.live → ∃ p, addr = p * PAGE_SIZE ∧ 2 ^ o ∣ p ∧
      p + 2 ^ o ≤ s.allocator.totalPages ∧
      ∀ x, InBlock addr o x → (b.info x).isFree = true) ∧
    s.live.Nodup ∧
    (∀ blk blk', s.Block blk → s.Block blk' → blk ≠ blk' →
      ∀ x, ¬ (InBlock blk.2.1 blk.2.2 x ∧ InBlock blk'.2.1 blk'.2.2 x)) ∧
    (∀ x, (b.info x).isFree = true ↔
      ∃! blk : Bool × Nat × Nat, s.Block blk ∧ InBlock blk.2.1 blk.2.2 x) ∧
    (∀ c, s.Allowed c → ∃ s', s.exec c = some s') := by
  obtain ⟨L₀, hI₀, hlen₀, hfree, _⟩ := fresh_of_new hlen hareas.pages hnew
  have hled := hrun.ledger hI₀ hfree
  obtain ⟨L, hI⟩ := hled.inv
  have hfree_iff : ∀ x, (b.info x).isFree = true ↔ (b.tag x).isSome = true := by
    intro x
    rw [hI₀.isFree_iff, Option.isSome_iff_exists]
    constructor
    · rintro ⟨o, ho⟩
      exact ⟨_, ho⟩
    · rintro ⟨⟨o, c⟩, ho⟩
      exact ⟨o, by rw [ho, hfree x o c ho]⟩
  refine ⟨fun addr o hm => ?_, hled.nodup, fun blk blk' hb hb' hne x hx => hne ?_, fun x => ?_,
    fun c hc => ?_⟩
  · obtain ⟨p, rfl, ht, hd⟩ := (hled.live addr o).mp hm
    refine ⟨p, rfl, hd, by rw [hI.total]; exact hI.block_le ht hd, fun x hx => ?_⟩
    rw [hfree_iff, ← hled.pages x, (hled.block_of_page (.live hm) hx).1]
    rfl
  · obtain ⟨c, addr, o⟩ := blk
    obtain ⟨c', addr', o'⟩ := blk'
    obtain ⟨ht, ha⟩ := hled.block_of_page hb hx.1
    obtain ⟨ht', ha'⟩ := hled.block_of_page hb' hx.2
    rw [ht] at ht'
    simp only [Option.some.injEq, Prod.mk.injEq] at ht'
    obtain ⟨rfl, rfl⟩ := ht'
    rw [ha, ha']
  · rw [hfree_iff]
    exact hled.existsUnique_block x
  · obtain ⟨s', he, _⟩ := hled.exec_cases hI hc
    exact ⟨s', he⟩

/-- Fifteen usable pages with a hole for page `5`, and a block of two pages taken. -/
theorem buddy_partition_fifteen_pages : ∃ b s,
    BuddyAllocator.new (List.replicate 16 default) [⟨0x1000, 0xF000, 1⟩] [(0x5100, 0x5200)] =
      some b ∧
    Reach b s ∧ s.live = [(0xC000, 1)] ∧
    (∀ x, (b.info x).isFree = true ↔
      ∃! blk : Bool × Nat × Nat, s.Block blk ∧ InBlock blk.2.1 blk.2.2 x) := by
  have hrun : ((BuddyAllocator.new (List.replicate 16 default) [⟨0x1000, 0xF000, 1⟩]
      [(0x5100, 0x5200)]).bind fun b =>
      (exec { allocator := b, live := [] } (.allocate 1)).map (·.live)) =
        some [(0xC000, 1)] := by decide +kernel
  obtain ⟨b, hb, hrun⟩ := Option.bind_eq_some_iff.mp hrun
  obtain ⟨s, hs, hlive⟩ := Option.map_eq_some_iff.mp hrun
  have hreach : Reach b s := .call (c := .allocate 1) .start trivial hs
  have hareas : DisjointAreas [⟨0x1000, 0xF000, 1⟩] := List.pairwise_singleton _ _
  exact ⟨b, s, hb, hreach, hlive, (buddy_partition (by decide) hareas hb hreach).2.2.2.1⟩

/-! ### The free lists -/

/-- **The free lists are well formed.**  On every run from a fresh allocator, the chain of each
order is finite and without duplicates, with `prev` the inverse of `next`; it visits exactly the
pages marked as first pages of free blocks of that order; these blocks are aligned, lie in the
metadata and are marked throughout.  So every search ends, and no call that is allowed reads or
writes beyond the metadata. -/
theorem buddy_free_lists {metadata : List PageInfo} {memMap : List MemoryArea}
    {reserved : List (Nat × Nat)} {b : BuddyAllocator} {s : Session}
    (hlen : metadata.length ≤ MAX_SUPPORTED_PAGES) (hareas : DisjointAreas memMap)
    (hnew : BuddyAllocator.new metadata memMap reserved = some b) (hrun : Reach b s) :
    (∀ o < MAX_ORDER,
      s.allocator.freeHeads[o]? = some (s.allocator.freeList o).head? ∧
      DList.Seg (fun x => (s.allocator.info x).next?) (fun x => (s.allocator.info x).prev?) none
        (s.allocator.freeList o) none ∧
      (s.allocator.freeList o).Nodup ∧
      (∀ p, p ∈ s.allocator.freeList o ↔ (s.allocator.info p).isHead = true ∧
        (s.allocator.info p).isFree = true ∧ (s.allocator.info p).order.toNat = o) ∧
      (∀ p ∈ s.allocator.freeList o, 2 ^ o ∣ p ∧ p + 2 ^ o ≤ s.allocator.totalPages ∧
        ∀ i < 2 ^ o, (s.allocator.info (p + i)).isFree = true ∧
          (s.allocator.info (p + i)).order.toNat = o ∧
          ((s.allocator.info (p + i)).isHead = true ↔ i = 0)) ∧
      ∀ pred, s.allocator.findFree o pred = some ((s.allocator.freeList o).find? pred)) ∧
    s.allocator.totalPages = s.allocator.metadata.length ∧
    ∀ c, s.Allowed c → ∃ s', s.exec c = some s' := by
  have hled := hrun.ledger_of_new hlen hareas hnew
  obtain ⟨L, hI⟩ := hled.inv
  refine ⟨fun o ho => ?_, hI.total, fun c hc => ?_⟩
  · have hmem := fun p => (hI.mem_freeList ho (p := p)).trans (hI.freeHead_iff ho)
    refine ⟨?_, ?_, ?_, hmem, fun p hp => ?_, fun pred => ?_⟩
    · rw [hI.freeList_eq ho]
      exact hI.links.heads o ho
    · rw [hI.freeList_eq ho]
      exact hI.links.seg o
    · rw [hI.freeList_eq ho]
      exact hI.links.nodup o
    · obtain ⟨ht, hd⟩ := (hI.mem_freeList ho).mp hp
      exact ⟨hd, by rw [hI.total]; exact hI.block_le ht hd, fun i hi => hI.block_marks ht hd hi⟩
    · rw [hI.freeList_eq ho]
      exact hI.links.findFree hI.total ho pred
  · obtain ⟨s', he, _⟩ := hled.exec_cases hI hc
    exact ⟨s', he⟩

/-- After one allocation of two pages, the single pages `1`, `4` and `14` are still listed. -/
theorem buddy_free_lists_fifteen_pages : ∃ b s,
    BuddyAllocator.new (List.replicate 16 default) [⟨0x1000, 0xF000, 1⟩] [(0x5100, 0x5200)] =
      some b ∧
    Reach b s ∧ s.allocator.freeList 0 = [14, 4, 1] ∧
    ∀ p, p ∈ s.allocator.freeList 0 ↔ (s.allocator.info p).isHead = true ∧
      (s.allocator.info p).isFree = true ∧ (s.allocator.info p).order.toNat = 0 := by
  have hrun : ((BuddyAllocator.new (List.replicate 16 default) [⟨0x1000, 0xF000, 1⟩]
      [(0x5100, 0x5200)]).bind fun b =>
      (exec { allocator := b, live := [] } (.allocate 1)).map (·.allocator.freeList 0)) =
        some [14, 4, 1] := by decide +kernel
  obtain ⟨b, hb, hrun⟩ := Option.bind_eq_some_iff.mp hrun
  obtain ⟨s, hs, hlist⟩ := Option.map_eq_some_iff.mp hrun
  have hreach : Reach b s := .call (c := .allocate 1) .start trivial hs
  have hareas : DisjointAreas [⟨0x1000, 0xF000, 1⟩] := List.pairwise_singleton _ _
  exact ⟨b, s, hb, hreach, hlist,
    ((buddy_free_lists (by decide) hareas hb hreach).1 0 (by decide)).2.2.2.1⟩

/-! ### Coalescing -/

/-- Pages of different usable areas are neither equal nor neighbours. -/
def SeparatedAreas (memMap : List MemoryArea) : Prop :=
  (memMap.filter (·.usable)).Pairwise fun a a' => ∀ x y, a.HasPage x → a'.HasPage y →
    x + 1 < y ∨ y + 1 < x

theorem SeparatedAreas.pages {memMap : List MemoryArea} (h : SeparatedAreas memMap) :
    DisjointPages (memMap.filter (·.usable)) := by
  refine List.Pairwise.imp ?_ h
  rintro a a' hx x ⟨h1, h2⟩
  have := hx x x h1 h2
  omega

/-- **`new` leaves no two free buddies** when its areas are separated and its reserved
ranges are not empty. -/
theorem new_coalesced {memMap : List MemoryArea} {reserved : List (Nat × Nat)}
    {b : BuddyAllocator} (hareas : SeparatedAreas memMap)
    (hne : ∀ r ∈ reserved, r.1 < r.2)
    (hfrom : ∀ x o c, b.tag x = some (o, c) → c = true ∧
      ∃ q, FromArea reserved (memMap.filter (·.usable)) q o ∧ x / 2 ^ o = q / 2 ^ o) :
    b.tag.Coalesced (MAX_ORDER - 1) true := by
  -- the lower of two buddies, placed at `q`, and the upper one, at `q + 2 ^ o`
  have key : ∀ q o, o < MAX_ORDER - 1 → 2 ^ (o + 1) ∣ q →
      FromArea reserved (memMap.filter (·.usable)) q o →
      FromArea reserved (memMap.filter (·.usable)) (q + 2 ^ o) o → False := by
    intro q o ho hd ⟨a, ha, start, hup, hp⟩ ⟨a', ha', start', hup', hp'⟩
    have hpos := Nat.two_pow_pos o
    by_cases haa : a = a'
    · subst haa
      rw [hup] at hup'
      obtain rfl := Option.some.inj hup'
      exact hp.not_buddies hne hp' (by omega) hd
    · have hsym : ∀ a ∈ memMap.filter (·.usable), ∀ a' ∈ memMap.filter (·.usable), a ≠ a' →
          ∀ x y, a.HasPage x → a'.HasPage y → x + 1 < y ∨ y + 1 < x := by
        intro a ha a' ha' hn
        refine List.Pairwise.forall_of_forall_of_flip (R := fun a a' : MemoryArea => a ≠ a' →
          ∀ x y, a.HasPage x → a'.HasPage y → x + 1 < y ∨ y + 1 < x) ?_ ?_ ?_ ha ha' hn
        · intro a _ hn
          exact absurd rfl hn
        · refine List.Pairwise.imp ?_ hareas
          intro a a' hx _
          exact hx
        · refine List.Pairwise.imp ?_ hareas
          intro a a' hx _ x y h1 h2
          exact (hx y x h2 h1).symm
      have := hsym a ha a' ha' haa (q + (2 ^ o - 1)) (q + 2 ^ o)
        (hp.hasPage hup (div_add_lt hp.dvd (by omega))) (hp'.hasPage hup' rfl)
      omega
  intro x y o ho hxy hx hy
  obtain ⟨_, q, hq, hxq⟩ := hfrom x o true hx
  obtain ⟨_, q', hq', hyq⟩ := hfrom y o true hy
  have hd : 2 ^ o ∣ q := by
    obtain ⟨_, _, _, _, hp⟩ := hq
    exact hp.dvd
  have hd' : 2 ^ o ∣ q' := by
    obtain ⟨_, _, _, _, hp⟩ := hq'
    exact hp.dvd
  rw [hxq, hyq] at hxy
  have hbuddy : q' = q ^^^ 2 ^ o := by
    rw [xor_two_pow_eq hd, ← hxy, Nat.div_mul_cancel hd']
  have hpow : 2 ^ (o + 1) = 2 ^ o * 2 := pow_succ 2 o
  obtain ⟨c, rfl⟩ := hd
  obtain ⟨c', rfl⟩ := hd'
  rw [Nat.mul_div_cancel_left c (Nat.two_pow_pos o),
    Nat.mul_div_cancel_left c' (Nat.two_pow_pos o)] at hxy
  rcases xor_one_cases c with ⟨hm, he⟩ | ⟨hm, he⟩
  · obtain rfl : c' = c + 1 := by omega
    refine key (2 ^ o * c) o ho ?_ hq (by rwa [Nat.mul_succ] at hq')
    rw [hpow]
    exact Nat.mul_dvd_mul_left _ (Nat.dvd_of_mod_eq_zero hm)
  · obtain rfl : c = c' + 1 := by omega
    refine key (2 ^ o * c') o ho ?_ hq' (by rwa [Nat.mul_succ] at hq)
    rw [hpow]
    exact Nat.mul_dvd_mul_left _ (Nat.dvd_of_mod_eq_zero (by omega))

theorem coalesced_pieces {t : Tiling Bool} (h : t.Coalesced (MAX_ORDER - 1) true) {o p order : Nat}
    (hd : 2 ^ o ∣ p) : (t.overlay o p (pieces p order)).Coalesced (MAX_ORDER - 1) true := by
  intro x y k hk hxy hx hy
  have inside : ∀ z, z / 2 ^ o = p / 2 ^ o → pieces p order z = some (k, true) →
      k < o ∧ z / 2 ^ k = (p + 2 ^ k) / 2 ^ k := by
    intro z hz ht
    obtain ⟨_, hzo⟩ := (div_eq_iff hd).mp hz
    unfold pieces at ht
    split at ht
    · simp at ht
    · rename_i hge
      simp only [Option.some.injEq, Prod.mk.injEq, and_true] at ht
      obtain ⟨_, h2, h3, h4⟩ := log2_bounds order (o := o) (p := p) (x := z)
        (by omega) hzo
      rw [ht] at h2 h3 h4
      have hdp : 2 ^ k ∣ p + 2 ^ k :=
        (Nat.dvd_add_right ((pow_dvd_pow 2 (by omega)).trans hd)).mpr dvd_rfl
      rw [pow_succ] at h4
      exact ⟨h2, (div_eq_iff hdp).mpr ⟨h3, by omega⟩⟩
  have hsucc : y / 2 ^ (k + 1) = x / 2 ^ (k + 1) := div_succ_eq_iff.mpr (Or.inr hxy)
  by_cases hxp : x / 2 ^ o = p / 2 ^ o
  · rw [Tiling.overlay_of_mem hxp] at hx
    obtain ⟨hko, hx'⟩ := inside x hxp hx
    have hyp : y / 2 ^ o = p / 2 ^ o := (div_eq_of_le hko hsucc).trans hxp
    rw [Tiling.overlay_of_mem hyp] at hy
    obtain ⟨_, hy'⟩ := inside y hyp hy
    rw [hx', hy'] at hxy
    rcases xor_one_cases ((p + 2 ^ k) / 2 ^ k) with ⟨_, he⟩ | ⟨_, he⟩ <;> omega
  · by_cases hyp : y / 2 ^ o = p / 2 ^ o
    · rw [Tiling.overlay_of_mem hyp] at hy
      obtain ⟨hko, _⟩ := inside y hyp hy
      exact hxp ((div_eq_of_le hko hsucc.symm).trans hyp)
    · rw [Tiling.overlay_of_not_mem hxp] at hx
      rw [Tiling.overlay_of_not_mem hyp] at hy
      exact h x y k hk hxy hx hy

theorem coalesced_merged {t : Tiling Bool} (h : t.Coalesced (MAX_ORDER - 1) true) {k cur : Nat}
    (hmax : k + 1 < MAX_ORDER → ∀ y, y / 2 ^ k = cur / 2 ^ k ^^^ 1 → t y ≠ some (k, true)) :
    (t.overlay k cur fun _ => some (k, true)).Coalesced (MAX_ORDER - 1) true := by
  intro x y j hj hxy hx hy
  by_cases hxc : x / 2 ^ k = cur / 2 ^ k
  · rw [Tiling.overlay_of_mem hxc] at hx
    simp only [Option.some.injEq, Prod.mk.injEq, and_true] at hx
    subst hx
    by_cases hyc : y / 2 ^ k = cur / 2 ^ k
    · rw [hxc, hyc] at hxy
      rcases xor_one_cases (cur / 2 ^ k) with ⟨_, he⟩ | ⟨_, he⟩ <;> omega
    · rw [Tiling.overlay_of_not_mem hyc] at hy
      exact hmax (by omega) y (by rw [hxy, hxc]) hy
  · rw [Tiling.overlay_of_not_mem hxc] at hx
    by_cases hyc : y / 2 ^ k = cur / 2 ^ k
    · rw [Tiling.overlay_of_mem hyc] at hy
      simp only [Option.some.injEq, Prod.mk.injEq, and_true] at hy
      subst hy
      refine hmax (by omega) x ?_ hx
      rw [← hyc, hxy, Nat.xor_assoc, Nat.xor_self, Nat.xor_zero]
    · rw [Tiling.overlay_of_not_mem hyc] at hy
      exact h x y j hj hxy hx hy

theorem Reach.coalesced {b : BuddyAllocator} {L : Nat → List Nat} (hI : Inv b L)
    (hfree : ∀ x o c, b.tag x = some (o, c) → c = true)
    (h₀ : b.tag.Coalesced (MAX_ORDER - 1) true) {s : Session} (h : Reach b s) :
    s.allocator.tag.Coalesced (MAX_ORDER - 1) true := by
  induction h with
  | start => exact h₀
  | @call s s' c hr hc he ih =>
    have hled := hr.ledger hI hfree
    obtain ⟨L', hI'⟩ := hled.inv
    obtain ⟨s'', he', hcases⟩ := hled.exec_cases hI' hc
    rw [he] at he'
    obtain rfl := Option.some.inj he'
    rcases hcases with rfl | ⟨o, p, order, _, _, hp, _, _, htag, _⟩ |
      ⟨o, p, cur, k, _, _, _, _, _, _, _, htag, _, hmax, _⟩
    · exact ih
    · rw [htag]
      exact coalesced_pieces ih ((hI'.mem o p).mp hp).2
    · rw [htag]
      exact coalesced_merged ih hmax

/-- A page some caller holds. -/
def LivePage (s : Session) (x : Nat) : Prop := ∃ addr o, (addr, o) ∈ s.live ∧ InBlock addr o x

theorem Ledger.livePage_iff {b : BuddyAllocator} {s : Session} (h : Ledger b s) {x : Nat} :
    s.LivePage x ↔ ∃ o, s.allocator.tag x = some (o, false) := by
  obtain ⟨L, hI⟩ := h.inv
  constructor
  · rintro ⟨addr, o, hm, hx⟩
    exact ⟨o, (h.block_of_page (.live hm) hx).1⟩
  · rintro ⟨o, ht⟩
    have hdiv := blockStart_div o x
    refine ⟨x / 2 ^ o * 2 ^ o * PAGE_SIZE, o, (h.live _ o).mpr ⟨_, rfl, ?_, dvd_blockStart o x⟩, ?_⟩
    · exact hI.tiles x o false ht _ hdiv
    · rw [InBlock, Nat.mul_div_cancel _ (by decide : 0 < PAGE_SIZE),
        ← div_eq_iff (dvd_blockStart o x), hdiv]

theorem freeList_of_livePage {b : BuddyAllocator} {s₁ s₂ : Session} (h₁ : Ledger b s₁)
    (h₂ : Ledger b s₂) (hc₁ : s₁.allocator.tag.Coalesced (MAX_ORDER - 1) true)
    (hc₂ : s₂.allocator.tag.Coalesced (MAX_ORDER - 1) true)
    (hsame : ∀ x, s₁.LivePage x ↔ s₂.LivePage x) {o : Nat} (ho : o < MAX_ORDER) (p : Nat) :
    p ∈ s₁.allocator.freeList o ↔ p ∈ s₂.allocator.freeList o := by
  obtain ⟨L₁, hI₁⟩ := h₁.inv
  obtain ⟨L₂, hI₂⟩ := h₂.inv
  have half : ∀ {s s' : Session}, Ledger b s → Ledger b s' →
      (∀ x, s'.LivePage x → s.LivePage x) → ∀ x, (∃ o, s.allocator.tag x = some (o, true)) →
      ∃ o, s'.allocator.tag x = some (o, true) := by
    intro s s' hs hs' hlive x ⟨o, hx⟩
    have hsome : (s'.allocator.tag x).isSome = true := by
      rw [hs'.pages x, ← hs.pages x, hx]
      rfl
    obtain ⟨⟨o', c⟩, hx'⟩ := Option.isSome_iff_exists.mp hsome
    cases c with
    | true => exact ⟨o', hx'⟩
    | false =>
      obtain ⟨o'', hx''⟩ := hs.livePage_iff.mp (hlive x (hs'.livePage_iff.mpr ⟨o', hx'⟩))
      rw [hx] at hx''
      simp at hx''
  have htag := Tiling.Coalesced.eq_of_same_support hI₁.tiles hI₂.tiles hc₁ hc₂
    (fun x o hx => by have := hI₁.orderLt x o true hx; omega)
    (fun x o hx => by have := hI₂.orderLt x o true hx; omega)
    (fun x => ⟨half h₁ h₂ (fun x => (hsame x).mpr) x, half h₂ h₁ (fun x => (hsame x).mp) x⟩) p o
  rw [hI₁.mem_freeList ho, hI₂.mem_freeList ho, htag]

/-- **Fully coalescing and history independent.**  On every run from a fresh allocator
over separated areas and non-empty reserved ranges, no two free blocks of one order below
the largest are buddies; two runs that end with the same live pages end with the same
free blocks of every order; and a run that ends with nothing live has the initial ones. -/
theorem buddy_coalesced {metadata : List PageInfo} {memMap : List MemoryArea}
    {reserved : List (Nat × Nat)} {b : BuddyAllocator}
    (hlen : metadata.length ≤ MAX_SUPPORTED_PAGES) (hareas : SeparatedAreas memMap)
    (hne : ∀ r ∈ reserved, r.1 < r.2)
    (hnew : BuddyAllocator.new metadata memMap reserved = some b) :
    (∀ s, Reach b s → ∀ o p, o < MAX_ORDER - 1 → p ∈ s.allocator.freeList o →
      p ^^^ 2 ^ o ∉ s.allocator.freeList o) ∧
    (∀ s₁ s₂, Reach b s₁ → Reach b s₂ → (∀ x, s₁.LivePage x ↔ s₂.LivePage x) →
      ∀ o p, o < MAX_ORDER → (p ∈ s₁.allocator.freeList o ↔ p ∈ s₂.allocator.freeList o)) ∧
    (∀ s, Reach b s → s.live = [] →
      ∀ o p, o < MAX_ORDER → (p ∈ s.allocator.freeList o ↔ p ∈ b.freeList o)) := by
  obtain ⟨L₀, hI₀, hlen₀, hfree, hfrom⟩ := fresh_of_new hlen hareas.pages hnew
  have hco := new_coalesced hareas hne hfrom
  have hind : ∀ s₁ s₂, Reach b s₁ → Reach b s₂ → (∀ x, s₁.LivePage x ↔ s₂.LivePage x) →
      ∀ o p, o < MAX_ORDER →
        (p ∈ s₁.allocator.freeList o ↔ p ∈ s₂.allocator.freeList o) := by
    intro s₁ s₂ h₁ h₂ hsame o p ho
    exact freeList_of_livePage (h₁.ledger hI₀ hfree) (h₂.ledger hI₀ hfree)
      (h₁.coalesced hI₀ hfree hco) (h₂.coalesced hI₀ hfree hco) hsame ho p
  refine ⟨fun s hs o p ho hp hq => ?_, hind, fun s hs hlive o p ho => ?_⟩
  · obtain ⟨L, hI⟩ := (hs.ledger hI₀ hfree).inv
    obtain ⟨htp, hd⟩ := (hI.mem_freeList (by omega)).mp hp
    obtain ⟨htq, _⟩ := (hI.mem_freeList (by omega)).mp hq
    exact hs.coalesced hI₀ hfree hco p _ o ho (xor_two_pow_div hd) htp htq
  · refine hind s { allocator := b, live := [] } hs .start (fun x => ?_) o p ho
    simp [LivePage, hlive]

/-- The same fifteen pages: after a block is taken and given back, the free lists are the
initial ones. -/
theorem buddy_coalesced_fifteen_pages : ∃ b s,
    BuddyAllocator.new (List.replicate 16 default) [⟨0x1000, 0xF000, 1⟩] [(0x5100, 0x5200)] =
      some b ∧
    Reach b s ∧ s.live = [] ∧
    ∀ o p, o < MAX_ORDER → (p ∈ s.allocator.freeList o ↔ p ∈ b.freeList o) := by
  have hrun : ((BuddyAllocator.new (List.replicate 16 default) [⟨0x1000, 0xF000, 1⟩]
      [(0x5100, 0x5200)]).bind fun b =>
      (exec { allocator := b, live := [] } (.allocate 1)).bind fun s =>
        (exec s (.deallocate 0xC000)).map fun s' => (s.live, s'.live)) =
          some ([(0xC000, 1)], []) := by decide +kernel
  obtain ⟨b, hb, hrun⟩ := Option.bind_eq_some_iff.mp hrun
  obtain ⟨s, hs, hrun⟩ := Option.bind_eq_some_iff.mp hrun
  obtain ⟨s', hs', hlive⟩ := Option.map_eq_some_iff.mp hrun
  obtain ⟨h1, h2⟩ := Prod.mk.inj hlive
  have hheld : s.Allowed (.deallocate 0xC000) := ⟨1, by rw [h1]; exact List.mem_singleton_self _⟩
  have hreach : Reach b s' := .call (.call (c := .allocate 1) .start trivial hs) hheld hs'
  have hareas : SeparatedAreas [⟨0x1000, 0xF000, 1⟩] := List.pairwise_singleton _ _
  exact ⟨b, s', hb, hreach, h2,
    (buddy_coalesced (by decide) hareas (by decide) hb).2.2 s' hreach h2⟩

end Session

end Zeronix
