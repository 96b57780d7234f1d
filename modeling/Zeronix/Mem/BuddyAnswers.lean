import Zeronix.Mem.BuddyRuns

/-!
# What the buddy allocator answers

Which pages are free at first (`new_exact`), when an allocation succeeds (`allocate_exact`) and
which addresses can be given back (`deallocate_exact`).

Here the callers may give back any address: a `Call` strikes out the live block at its page, if
`deallocate` returns at all.  It returns on live blocks only, so these runs are those of `Reach`
(`Calls.reach`).
-/

namespace Zeronix

open Dyadic BuddyAllocator

namespace Session

/-! ### The pages that are free at first -/

theorem existsUnique_listed {b : BuddyAllocator} {L : Nat → List Nat} (hI : Inv b L) (p : Nat) :
    (b.info p).isFree = true ↔ ∃! blk : Nat × Nat, blk.2 < MAX_ORDER ∧
      blk.1 ∈ b.freeList blk.2 ∧ blk.1 ≤ p ∧ p < blk.1 + 2 ^ blk.2 := by
  rw [hI.isFree_iff]
  constructor
  · rintro ⟨o, ht⟩
    have ho := hI.orderLt p o true ht
    have hdvd := dvd_blockStart o p
    have hbounds := (div_eq_iff hdvd).mp (blockStart_div o p).symm
    refine ⟨(p / 2 ^ o * 2 ^ o, o), ⟨ho, ?_, hbounds⟩, ?_⟩
    · exact (hI.mem_freeList ho).mpr ⟨hI.tiles p o true ht _ (blockStart_div o p), hdvd⟩
    · rintro ⟨q, o'⟩ ⟨ho', hmem, hin⟩
      obtain ⟨htq, hdq⟩ := (hI.mem_freeList ho').mp hmem
      have hdiv := (div_eq_iff hdq).mpr hin
      have hsame := hI.tiles q o' true htq p hdiv
      rw [ht] at hsame
      simp only [Option.some.injEq, Prod.mk.injEq, and_true] at hsame
      subst hsame
      rw [hdiv, Nat.div_mul_cancel hdq]
  · rintro ⟨⟨q, o⟩, ⟨ho, hmem, hin⟩, -⟩
    obtain ⟨htq, hdq⟩ := (hI.mem_freeList ho).mp hmem
    exact ⟨o, hI.tiles q o true htq p ((div_eq_iff hdq).mpr hin)⟩

theorem page_of_tag {memMap : List MemoryArea} {reserved : List (Nat × Nat)} {b : BuddyAllocator}
    {p o : Nat} {c : Bool} (htagged : Tagged reserved (memMap.filter (·.usable)) b)
    (ht : b.tag p = some (o, c)) :
    (∃ a ∈ memMap, a.usable = true ∧ a.HasPage p) ∧ Clear reserved p := by
  obtain ⟨-, q, ⟨a, ha, start, hup, hplaced⟩, hq⟩ := htagged p o c ht
  obtain ⟨ha, husable⟩ := List.mem_filter.mp ha
  obtain ⟨hge, hlt⟩ := (div_eq_iff hplaced.dvd).mp hq
  refine ⟨⟨a, ha, husable, hplaced.hasPage hup hq⟩, ?_⟩
  intro r hr y hy hy'
  refine hplaced.apart hr (le_trans (Nat.mul_le_mul_right _ hge) hy) (lt_of_lt_of_le hy' ?_)
  exact Nat.mul_le_mul_right _ hlt

theorem new_free {metadata : List PageInfo} {memMap : List MemoryArea}
    {reserved : List (Nat × Nat)} (hareas : DisjointPages (memMap.filter (·.usable)))
    (hne : ∀ r ∈ reserved, r.1 < r.2)
    (hstart : ∀ a ∈ memMap, a.usable = true → a.startAddress.toNat + PAGE_SIZE < Word.modulus)
    (hround : ∀ r ∈ reserved, r.2 + PAGE_SIZE < Word.modulus)
    (hlen : metadata.length = kernelPages memMap) :
    ∃ b L, BuddyAllocator.new metadata memMap reserved = some b ∧ Inv b L ∧
      ∀ p, (b.info p).isFree = true ↔ p < metadata.length ∧
        (∃ a ∈ memMap, a.usable = true ∧ a.HasPage p) ∧ Clear reserved p := by
  have hsmall : metadata.length < 2 ^ 32 := by
    rw [hlen]
    exact lt_of_le_of_lt (Nat.min_le_right _ _) (by decide)
  have hblank : (blankState metadata.length).metadata.length = metadata.length := by
    simp [blankState]
  obtain ⟨b, hb, hall⟩ := addRegions_complete (memMap.filter (·.usable)) hne hround []
    (blankState_inv hsmall) (blankState_tagged _) hareas fun a ha => by
      obtain ⟨ha, husable⟩ := List.mem_filter.mp ha
      rw [hblank, hlen]
      exact ⟨hstart a ha husable, kernelPages_covers ha⟩
  rw [← new_eq] at hb
  rw [hblank] at hall
  obtain ⟨L, hI, hl, htagged⟩ := new_spec hsmall hareas hb
  refine ⟨b, L, hb, hI, fun p => ?_⟩
  rw [hI.isFree_iff]
  constructor
  · rintro ⟨o, ht⟩
    exact ⟨by rw [← hl]; exact lt_of_tag ht, page_of_tag htagged ht⟩
  · rintro ⟨hp, ⟨a, ha, husable, hpage⟩, hclear⟩
    have hsome := hall a (List.mem_filter.mpr ⟨ha, husable⟩) p hpage hp hclear
    obtain ⟨⟨o, c⟩, ht⟩ := Option.isSome_iff_exists.mp hsome
    obtain ⟨rfl, -⟩ := htagged p o c ht
    exact ⟨o, ht⟩

/-- **The free pages of a fresh allocator** are the pages of the metadata that lie in a usable area
and have no byte of a reserved range, each in one block. -/
theorem new_exact {metadata : List PageInfo} {memMap : List MemoryArea}
    {reserved : List (Nat × Nat)} (hareas : DisjointAreas memMap)
    (hne : ∀ r ∈ reserved, r.1 < r.2)
    (hstart : ∀ a ∈ memMap, a.usable = true → a.startAddress.toNat + PAGE_SIZE < Word.modulus)
    (hround : ∀ r ∈ reserved, r.2 + PAGE_SIZE < Word.modulus)
    (hlen : metadata.length = kernelPages memMap) :
    ∃ b, BuddyAllocator.new metadata memMap reserved = some b ∧
      (∀ p, (b.info p).isFree = true ↔ p < metadata.length ∧
        (∃ a ∈ memMap, a.usable = true ∧ a.HasPage p) ∧ Clear reserved p) ∧
      ∀ p, (b.info p).isFree = true ↔ ∃! blk : Nat × Nat, blk.2 < MAX_ORDER ∧
        blk.1 ∈ b.freeList blk.2 ∧ blk.1 ≤ p ∧ p < blk.1 + 2 ^ blk.2 := by
  obtain ⟨b, L, hb, hI, hfree⟩ := new_free hareas.pages hne hstart hround hlen
  exact ⟨b, hb, hfree, existsUnique_listed hI⟩

/-- Fourteen usable pages, one of them with reserved bytes. -/
theorem new_exact_fourteen_pages : ∃ b,
    BuddyAllocator.new (List.replicate 15 default) [⟨0x1000, 0xF000, 1⟩] [(0x5100, 0x5200)] =
      some b ∧ (b.info 5).isFree = false ∧ (b.info 6).isFree = true := by
  have hareas : DisjointAreas [⟨0x1000, 0xF000, 1⟩] := List.pairwise_singleton _ _
  have hne : ∀ r ∈ [(0x5100, 0x5200)], r.1 < r.2 := by decide
  have hlen : (List.replicate 15 (default : PageInfo)).length =
    kernelPages [⟨0x1000, 0xF000, 1⟩] := by decide
  obtain ⟨b, hb, hfree, -⟩ := new_exact hareas hne (by decide) (by decide) hlen
  have hpage : MemoryArea.HasPage ⟨0x1000, 0xF000, 1⟩ 6 := ⟨by decide, by decide⟩
  refine ⟨b, hb, ?_, (hfree 6).mpr ⟨by decide, ⟨_, List.mem_singleton_self _, rfl, hpage⟩, ?_⟩⟩
  · rw [Bool.eq_false_iff, ne_eq, hfree 5]
    rintro ⟨-, -, hclear⟩
    exact hclear (0x5100, 0x5200) (by decide) 0x5100 (by decide) (by decide) (by decide)
  · intro r hr y hy _ hin
    obtain rfl := List.mem_singleton.mp hr
    exact absurd (lt_of_le_of_lt hy hin.2) (by decide)

/-! ### Runs with any address -/

/-- One call, in which any address may be given back. -/
def call (s : Session) : BuddyCall → Option Session
  | .deallocate addr => (s.allocator.deallocate addr).map fun b =>
      { allocator := b, live := s.live.filter fun e => e.1 / PAGE_SIZE != addr / PAGE_SIZE }
  | c => s.exec c

/-- The states reached by calls that return. -/
inductive Calls (b : BuddyAllocator) : Session → Prop
  | start : Calls b { allocator := b, live := [] }
  | call {s s' : Session} {c : BuddyCall} : Calls b s → s.call c = some s' → Calls b s'

/-- The checks of `deallocate`: the index is in range, and both assertions hold. -/
def PassesChecks (b : BuddyAllocator) (addr : Nat) : Prop :=
  ∃ info, b.metadata[addr / PAGE_SIZE]? = some info ∧ info.isHead = true ∧ info.isFree = false

theorem deallocate_of_not {b : BuddyAllocator} {addr : Nat} (h : ¬ PassesChecks b addr) :
    b.deallocate addr = none := by
  unfold deallocate
  dsimp only
  cases hinfo : b.metadata[addr / PAGE_SIZE]? with
  | none => rfl
  | some info =>
    rw [Option.bind_eq_bind, Option.bind_some]
    split
    · rfl
    case isFalse hhead =>
      split
      · rfl
      case isFalse hfree =>
        exact absurd ⟨info, hinfo, by simpa using hhead, by simpa using hfree⟩ h

theorem deallocate_page (b : BuddyAllocator) (addr : Nat) :
    b.deallocate (addr / PAGE_SIZE * PAGE_SIZE) = b.deallocate addr := by
  unfold deallocate
  rw [Nat.mul_div_cancel _ (by decide : 0 < PAGE_SIZE)]

theorem Ledger.passesChecks_iff {b : BuddyAllocator} {s : Session} (h : Ledger b s) {addr : Nat} :
    PassesChecks s.allocator addr ↔ ∃ o, (addr / PAGE_SIZE * PAGE_SIZE, o) ∈ s.live := by
  obtain ⟨L, hI⟩ := h.inv
  constructor
  · rintro ⟨info, hinfo, hhead, hfree⟩
    have hlt := (List.getElem?_eq_some_iff.mp hinfo).1
    rw [getElem?_eq_info hlt] at hinfo
    obtain rfl := Option.some.inj hinfo
    cases ht : s.allocator.tag (addr / PAGE_SIZE) with
    | none =>
      rw [(hI.bare _ ht).1] at hhead
      cases hhead
    | some oc =>
      obtain ⟨o, c⟩ := oc
      rw [isFree_of_tag ht] at hfree
      subst hfree
      exact ⟨o, (h.live _ o).mpr ⟨_, rfl, ht, (hI.head _ o false ht).mp hhead⟩⟩
  · rintro ⟨o, hm⟩
    obtain ⟨p, hp, ht, hd⟩ := (h.live _ o).mp hm
    obtain rfl : addr / PAGE_SIZE = p := Nat.eq_of_mul_eq_mul_right (by decide) hp
    refine ⟨_, getElem?_eq_info (lt_of_tag ht), (hI.head _ o false ht).mpr hd, isFree_of_tag ht⟩

theorem Ledger.deallocate_isSome {b : BuddyAllocator} {s : Session} (h : Ledger b s) {addr : Nat} :
    (∃ b', s.allocator.deallocate addr = some b') ↔ PassesChecks s.allocator addr := by
  constructor
  · rintro ⟨b', hb'⟩
    by_contra hno
    rw [deallocate_of_not hno] at hb'
    cases hb'
  · intro hpass
    obtain ⟨L, hI⟩ := h.inv
    obtain ⟨o, hm⟩ := h.passesChecks_iff.mp hpass
    obtain ⟨p, hp, ht, hd⟩ := (h.live _ o).mp hm
    obtain ⟨b', _, _, _, he, _⟩ := deallocate_spec hI ht hd
    rw [← hp, deallocate_page] at he
    exact ⟨b', he⟩

theorem Ledger.call {b : BuddyAllocator} {s s' : Session} (h : Ledger b s) {c : BuddyCall}
    (hc : s.call c = some s') : ∃ c', s.Allowed c' ∧ s.exec c' = some s' := by
  cases c with
  | allocate order => exact ⟨.allocate order, trivial, hc⟩
  | allocateBelow order limit => exact ⟨.allocateBelow order limit, trivial, hc⟩
  | deallocate addr =>
    obtain ⟨b', hb', rfl⟩ := Option.map_eq_some_iff.mp hc
    obtain ⟨o, hm⟩ := h.passesChecks_iff.mp (h.deallocate_isSome.mp ⟨b', hb'⟩)
    refine ⟨.deallocate (addr / PAGE_SIZE * PAGE_SIZE), ⟨o, hm⟩, ?_⟩
    rw [Session.exec, deallocate_page, hb', Option.map_some]
    congr 2
    refine List.filter_congr fun e he => ?_
    obtain ⟨p, hp, -, -⟩ := (h.live e.1 e.2).mp he
    rw [hp, Nat.mul_div_cancel _ (by decide : 0 < PAGE_SIZE), Bool.eq_iff_iff, bne_iff_ne,
      bne_iff_ne, ne_eq, ne_eq, Nat.mul_left_inj (by decide)]

theorem Calls.reach {b : BuddyAllocator} {L : Nat → List Nat} (hI : Inv b L)
    (hfree : ∀ x o c, b.tag x = some (o, c) → c = true) {s : Session} (h : Calls b s) :
    Reach b s := by
  induction h with
  | start => exact .start
  | call _ hc ih =>
    obtain ⟨c', hallowed, he⟩ := (ih.ledger hI hfree).call hc
    exact .call ih hallowed he

/-! ### Giving back -/

/-- **What `deallocate` accepts.**  On every run, its checks hold at the first page of a live block
and nowhere else: not inside a block, not at a free page, and not at a reserved one.  It panics
when the checks fail, before it writes, and returns when they hold. -/
theorem deallocate_exact {metadata : List PageInfo} {memMap : List MemoryArea}
    {reserved : List (Nat × Nat)} {b : BuddyAllocator} {s : Session}
    (hlen : metadata.length ≤ MAX_SUPPORTED_PAGES) (hareas : DisjointAreas memMap)
    (hnew : BuddyAllocator.new metadata memMap reserved = some b) (hrun : Calls b s) (addr : Nat) :
    (PassesChecks s.allocator addr ↔ ∃ o, (addr / PAGE_SIZE * PAGE_SIZE, o) ∈ s.live) ∧
    (PassesChecks s.allocator addr → ∃ b', s.allocator.deallocate addr = some b') ∧
    (¬ PassesChecks s.allocator addr → s.allocator.deallocate addr = none) ∧
    (∀ a o, (a, o) ∈ s.live → InBlock a o (addr / PAGE_SIZE) → a / PAGE_SIZE ≠ addr / PAGE_SIZE →
      ¬ PassesChecks s.allocator addr) ∧
    ((s.allocator.info (addr / PAGE_SIZE)).isFree = true → ¬ PassesChecks s.allocator addr) ∧
    (¬ Clear reserved (addr / PAGE_SIZE) → ¬ PassesChecks s.allocator addr) := by
  obtain ⟨L₀, hI₀, -, hfree, hfrom⟩ := fresh_of_new hlen hareas.pages hnew
  have hled := (hrun.reach hI₀ hfree).ledger hI₀ hfree
  have hfirst : ∀ o, InBlock (addr / PAGE_SIZE * PAGE_SIZE) o (addr / PAGE_SIZE) := by
    intro o
    rw [InBlock, Nat.mul_div_cancel _ (by decide : 0 < PAGE_SIZE)]
    exact ⟨Nat.le_refl _, Nat.lt_add_of_pos_right (Nat.two_pow_pos o)⟩
  refine ⟨hled.passesChecks_iff, hled.deallocate_isSome.mpr, deallocate_of_not, ?_, ?_, ?_⟩
  · intro a o hm hin hne hpass
    obtain ⟨o', hm'⟩ := hled.passesChecks_iff.mp hpass
    obtain ⟨rfl, -⟩ := hled.live_unique hm hm' hin (hfirst o')
    exact hne (Nat.mul_div_cancel _ (by decide))
  · intro hisFree hpass
    obtain ⟨o, hm⟩ := hled.passesChecks_iff.mp hpass
    rw [isFree_of_tag (hled.block_of_page (.live hm) (hfirst o)).1] at hisFree
    cases hisFree
  · intro hreserved hpass
    obtain ⟨o, hm⟩ := hled.passesChecks_iff.mp hpass
    refine hreserved fun r hr y hy hy' => ?_
    refine hled.unreserved hlen hareas hnew hm ?_ hr
    have hpage : y / PAGE_SIZE = addr / PAGE_SIZE := Nat.div_eq_of_lt_le hy hy'
    rw [hpage]
    exact hfirst o

/-- Of a block of two pages, the first can be given back, with any offset in it, and the second
cannot. -/
theorem deallocate_exact_two_pages : ∃ b s,
    BuddyAllocator.new (List.replicate 16 default) [⟨0x1000, 0xF000, 1⟩] [(0x5100, 0x5200)] =
      some b ∧ Calls b s ∧ s.live = [(0xC000, 1)] ∧ PassesChecks s.allocator 0xC123 ∧
      s.allocator.deallocate 0xD000 = none := by
  have hrun : ((BuddyAllocator.new (List.replicate 16 default) [⟨0x1000, 0xF000, 1⟩]
      [(0x5100, 0x5200)]).bind fun b =>
      (call { allocator := b, live := [] } (.allocate 1)).map (·.live)) =
        some [(0xC000, 1)] := by decide +kernel
  obtain ⟨b, hb, hrun⟩ := Option.bind_eq_some_iff.mp hrun
  obtain ⟨s, hs, hlive⟩ := Option.map_eq_some_iff.mp hrun
  have hcalls : Calls b s := .call (c := .allocate 1) .start hs
  have hareas : DisjointAreas [⟨0x1000, 0xF000, 1⟩] := List.pairwise_singleton _ _
  have hexact := deallocate_exact (by decide) hareas hb hcalls
  refine ⟨b, s, hb, hcalls, hlive, (hexact 0xC123).1.mpr ⟨1, ?_⟩, (hexact 0xD000).2.2.1 ?_⟩
  · rw [hlive]
    decide
  · refine (hexact 0xD000).2.2.2.1 0xC000 1 (by rw [hlive]; decide) ?_ (by decide)
    exact ⟨by decide, by decide⟩

/-! ### Taking -/

/-- The `2 ^ order` pages from `q` on are free and `q` is a multiple of their number. -/
def FreeRun (b : BuddyAllocator) (order q : Nat) : Prop :=
  2 ^ order ∣ q ∧ ∀ x, q ≤ x → x < q + 2 ^ order → (b.info x).isFree = true

theorem freeRun_of_mem {b : BuddyAllocator} {L : Nat → List Nat} (hI : Inv b L) {o p order : Nat}
    (hord : order ≤ o) (hp : p ∈ L o) : FreeRun b order p := by
  obtain ⟨ht, hd⟩ := (hI.mem o p).mp hp
  have hpow : 2 ^ order ≤ 2 ^ o := Nat.pow_le_pow_right (by decide) hord
  refine ⟨(pow_dvd_pow 2 hord).trans hd, fun x hge hlt => ?_⟩
  exact isFree_of_tag (hI.tiles p o true ht x ((div_eq_iff hd).mpr ⟨hge, by omega⟩))

theorem FreeRun.block {b : BuddyAllocator} {L : Nat → List Nat} (hI : Inv b L)
    (hco : b.tag.Coalesced (MAX_ORDER - 1) true) {order q : Nat} (hord : order < MAX_ORDER)
    (h : FreeRun b order q) : ∃ o p, order ≤ o ∧ p ∈ L o ∧ p ≤ q := by
  obtain ⟨hd, hrun⟩ := h
  obtain ⟨o, hle, ht⟩ := hco.le_order hI.tiles (k := order) (x := q) (by omega) fun y hy => by
    obtain ⟨hge, hlt⟩ := (div_eq_iff hd).mp hy
    exact hI.isFree_iff.mp (hrun y hge hlt)
  refine ⟨o, q / 2 ^ o * 2 ^ o, hle, (hI.mem _ _).mpr ⟨?_, dvd_blockStart o q⟩,
    Nat.div_mul_le_self _ _⟩
  exact hI.tiles q o true ht _ (blockStart_div o q)

theorem allocateWhere_exact {b : BuddyAllocator} {L : Nat → List Nat} (hI : Inv b L)
    (hco : b.tag.Coalesced (MAX_ORDER - 1) true) {order : Nat} (hord : order < MAX_ORDER)
    (pred : Nat → Bool) (hpred : ∀ p q, p ≤ q → pred q = true → pred p = true) :
    ∃ answer b', b.allocateWhere order pred = some (answer, b') ∧
      (answer.isSome = true ↔ ∃ q, FreeRun b order q ∧ pred q = true) ∧
      ∀ addr, answer = some addr → ∃ q, addr = q * PAGE_SIZE ∧ FreeRun b order q ∧
        pred q = true := by
  rcases allocateWhere_spec hI order pred with ⟨he, hnone⟩ |
    ⟨o, p, b', L', he, hle, hp, hpp, -, -, -⟩
  · refine ⟨none, b, he, iff_of_false (by simp) ?_, nofun⟩
    rintro ⟨q, hrun, hq⟩
    obtain ⟨o, p, hle, hp, hpq⟩ := hrun.block hI hco hord
    have hfalse := hnone hord o hle p hp
    rw [hpred p q hpq hq] at hfalse
    cases hfalse
  · have hrun := freeRun_of_mem hI hle hp
    refine ⟨some (p * PAGE_SIZE), b', he, iff_of_true rfl ⟨p, hrun, hpp⟩, fun addr haddr => ?_⟩
    exact ⟨p, (Option.some.inj haddr).symm, hrun, hpp⟩

theorem FreeRun.le_length {b : BuddyAllocator} {L : Nat → List Nat} (hI : Inv b L) {order q : Nat}
    (h : FreeRun b order q) : q + 2 ^ order ≤ b.metadata.length := by
  have hpos := Nat.two_pow_pos order
  obtain ⟨o, ht⟩ := hI.isFree_iff.mp (h.2 (q + (2 ^ order - 1)) (by omega) (by omega))
  have := lt_of_tag ht
  omega

theorem endsBelow_mono {order limit p q : Nat} (hle : p ≤ q)
    (h : endsBelow order limit q = true) : endsBelow order limit p = true := by
  have hmul : p * PAGE_SIZE ≤ q * PAGE_SIZE := Nat.mul_le_mul_right _ hle
  unfold endsBelow Word.add at h ⊢
  split at h
  case h_1 stop heq =>
    split at heq
    case isTrue hlt =>
      obtain rfl := Option.some.inj heq
      rw [if_pos (by omega)]
      simp only [decide_eq_true_eq] at h ⊢
      omega
    · cases heq
  · cases h

theorem endsBelow_iff {order limit q : Nat} (h : (q + 2 ^ order) * PAGE_SIZE < Word.modulus) :
    endsBelow order limit q = true ↔ (q + 2 ^ order) * PAGE_SIZE ≤ limit := by
  rw [Nat.add_mul] at h ⊢
  rw [endsBelow, Nat.one_shiftLeft, Word.add, if_pos h]
  exact decide_eq_true_iff

/-- **When an allocation succeeds.**  On every run over separated areas and non-empty reserved
ranges, `allocate_below` answers an aligned run of free pages that ends at the limit or before if
there is one, and nothing otherwise; so does `allocate`, without the limit; and an order that is
too large changes nothing. -/
theorem allocate_exact {metadata : List PageInfo} {memMap : List MemoryArea}
    {reserved : List (Nat × Nat)} {b : BuddyAllocator} {s : Session}
    (hlen : metadata.length ≤ MAX_SUPPORTED_PAGES) (hareas : SeparatedAreas memMap)
    (hne : ∀ r ∈ reserved, r.1 < r.2)
    (hnew : BuddyAllocator.new metadata memMap reserved = some b) (hrun : Calls b s) (order : Nat) :
    (order < MAX_ORDER → ∀ limit, ∃ answer b',
      s.allocator.allocateBelow order limit = some (answer, b') ∧
      (answer.isSome = true ↔ ∃ q, FreeRun s.allocator order q ∧
        (q + 2 ^ order) * PAGE_SIZE ≤ limit) ∧
      ∀ addr, answer = some addr → ∃ q, addr = q * PAGE_SIZE ∧ FreeRun s.allocator order q ∧
        (q + 2 ^ order) * PAGE_SIZE ≤ limit) ∧
    (order < MAX_ORDER → ∃ answer b', s.allocator.allocate order = some (answer, b') ∧
      (answer.isSome = true ↔ ∃ q, FreeRun s.allocator order q) ∧
      ∀ addr, answer = some addr → ∃ q, addr = q * PAGE_SIZE ∧ FreeRun s.allocator order q) ∧
    (MAX_ORDER ≤ order → s.allocator.allocate order = some (none, s.allocator) ∧
      ∀ limit, s.allocator.allocateBelow order limit = some (none, s.allocator)) := by
  obtain ⟨L₀, hI₀, hlen₀, hfree, hfrom⟩ := fresh_of_new hlen hareas.pages hnew
  have hreach := hrun.reach hI₀ hfree
  have hled := hreach.ledger hI₀ hfree
  have hco := hreach.coalesced hI₀ hfree (new_coalesced hareas hne hfrom)
  obtain ⟨L, hI⟩ := hled.inv
  refine ⟨fun hord limit => ?_, fun hord => ?_, fun hord => ⟨if_pos hord, fun limit => if_pos hord⟩⟩
  · have hends : ∀ q, FreeRun s.allocator order q → (endsBelow order limit q = true ↔
        (q + 2 ^ order) * PAGE_SIZE ≤ limit) := by
      intro q hq
      have hle := hq.le_length hI
      rw [hled.length, hlen₀] at hle
      refine endsBelow_iff (lt_of_le_of_lt (Nat.mul_le_mul_right _ (hle.trans hlen)) (by decide))
    obtain ⟨answer, b', he, hiff, hblock⟩ := allocateWhere_exact hI hco hord
      (endsBelow order limit) (fun p q => endsBelow_mono)
    refine ⟨answer, b', he, hiff.trans ?_, fun addr haddr => ?_⟩
    · exact exists_congr fun q => and_congr_right fun hq => hends q hq
    · obtain ⟨q, hq, hrunq, hpredq⟩ := hblock addr haddr
      exact ⟨q, hq, hrunq, (hends q hrunq).mp hpredq⟩
  · obtain ⟨answer, b', he, hiff, hblock⟩ := allocateWhere_exact hI hco hord
      (fun _ => true) (fun _ _ _ _ => rfl)
    refine ⟨answer, b', he, hiff.trans ?_, fun addr haddr => ?_⟩
    · exact exists_congr fun q => and_iff_left rfl
    · obtain ⟨q, hq, hrunq, -⟩ := hblock addr haddr
      exact ⟨q, hq, hrunq⟩

/-- Four pages that end at the limit are found. -/
theorem allocate_exact_four_pages : ∃ b,
    BuddyAllocator.new (List.replicate 16 default) [⟨0x1000, 0xF000, 1⟩] [(0x5100, 0x5200)] =
      some b ∧ ∃ answer b', b.allocateBelow 2 0xC000 = some (answer, b') ∧
        answer.isSome = true := by
  have hrun : (BuddyAllocator.new (List.replicate 16 default) [⟨0x1000, 0xF000, 1⟩]
      [(0x5100, 0x5200)]).map (fun b => (List.range 4).all fun x => (b.info (8 + x)).isFree) =
        some true := by decide +kernel
  obtain ⟨b, hb, hpages⟩ := Option.map_eq_some_iff.mp hrun
  have hareas : SeparatedAreas [⟨0x1000, 0xF000, 1⟩] := List.pairwise_singleton _ _
  have hfree : FreeRun b 2 8 := by
    refine ⟨by decide, fun x hge hlt => ?_⟩
    have hx := List.all_eq_true.mp hpages (x - 8) (List.mem_range.mpr (by omega))
    rwa [Nat.add_sub_cancel' hge] at hx
  obtain ⟨answer, b', he, hiff, -⟩ :=
    (allocate_exact (by decide) hareas (by decide) hb .start 2).1 (by decide) 0xC000
  exact ⟨b, hb, answer, b', he, hiff.mpr ⟨8, hfree, by decide⟩⟩

end Session

end Zeronix
