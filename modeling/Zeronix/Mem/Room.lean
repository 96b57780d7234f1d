import Mathlib.Data.Finset.Card
import Zeronix.Mem.BuddyAnswers
import Zeronix.Mem.PageTables

/-!
# Room for more

Which pages are free after a run of requests, and when there is room for the next one.  `Room`
counts runs of free pages below `EARLY_PAGE_TABLE_LIMIT`, all of one order.  A block of that order
or a smaller one meets at most one of them, so with `n + 1` of them such a request is answered, and
`n` are left (`Room.request`).  Frames for page tables are requests of this kind
(`Room.takeFrames`).
-/

namespace Zeronix

open Dyadic BuddyAllocator Mapper

/-! ### Free pages -/

namespace Session

variable {b a a' : BuddyAllocator} {live new : List (Nat × Nat)} {x : Nat}

theorem Ledger.isFree_iff (h : Ledger b { allocator := a, live := live }) (x : Nat) :
    (a.info x).isFree = true ↔ (b.tag x).isSome = true ∧ ∀ blk ∈ live, ¬ InBlock blk.1 blk.2 x := by
  obtain ⟨L, hI⟩ := h.inv
  have hpages : (a.tag x).isSome = (b.tag x).isSome := h.pages x
  rw [hI.isFree_iff, ← hpages]
  constructor
  · rintro ⟨o, ht⟩
    refine ⟨by rw [show a.tag x = some (o, true) from ht]; rfl, fun blk hm hin => ?_⟩
    have hheld : a.tag x = some (blk.2, false) := (h.block_of_page (.live hm) hin).1
    rw [show a.tag x = some (o, true) from ht] at hheld
    simp at hheld
  · rintro ⟨hsome, hno⟩
    obtain ⟨⟨o, c⟩, ht⟩ := Option.isSome_iff_exists.mp hsome
    cases c with
    | true => exact ⟨o, ht⟩
    | false =>
      -- the block of the page would be held
      exfalso
      have hm : (x / 2 ^ o * 2 ^ o * PAGE_SIZE, o) ∈ live :=
        (h.live _ o).mpr ⟨_, rfl, hI.tiles x o false ht _ (Dyadic.blockStart_div o x),
          Dyadic.dvd_blockStart o x⟩
      refine hno _ hm ?_
      rw [InBlock, Nat.mul_div_cancel _ (by decide : 0 < PAGE_SIZE),
        ← Dyadic.div_eq_iff (Dyadic.dvd_blockStart o x), Dyadic.blockStart_div]

/-- **Taking blocks** makes their pages, which were free, the only ones that are not any more. -/
theorem Ledger.taken (h : Ledger b { allocator := a, live := live })
    (h' : Ledger b { allocator := a', live := new ++ live }) :
    (∀ blk ∈ new, ∀ x, InBlock blk.1 blk.2 x → (a.info x).isFree = true) ∧
    ∀ x, (a'.info x).isFree = true ↔
      (a.info x).isFree = true ∧ ∀ blk ∈ new, ¬ InBlock blk.1 blk.2 x := by
  refine ⟨fun blk hm x hin => ?_, fun x => ?_⟩
  · have hmem : blk ∈ new ++ live := List.mem_append_left _ hm
    have ht := (h'.block_of_page (.live hmem) hin).1
    refine (h.isFree_iff x).mpr ⟨?_, fun blk' hm' hin' => ?_⟩
    · rw [← h'.pages x, ht]
      rfl
    · obtain ⟨h₁, h₂⟩ := h'.live_unique hmem (List.mem_append_right _ hm') hin hin'
      exact (List.nodup_append.mp h'.nodup).2.2 blk hm blk' hm' (Prod.ext h₁ h₂)
  · rw [h.isFree_iff, h'.isFree_iff]
    constructor
    · rintro ⟨hsome, hno⟩
      exact ⟨⟨hsome, fun blk hm => hno blk (List.mem_append_right _ hm)⟩,
        fun blk hm => hno blk (List.mem_append_left _ hm)⟩
    · rintro ⟨⟨hsome, hlive⟩, hnew⟩
      exact ⟨hsome, fun blk hm => (List.mem_append.mp hm).elim (hnew blk) (hlive blk)⟩

/-- Taking one block. -/
theorem Ledger.taken_one {q o : Nat} (h : Ledger b { allocator := a, live := live })
    (h' : Ledger b { allocator := a', live := (q * PAGE_SIZE, o) :: live }) (x : Nat) :
    (a'.info x).isFree = true ↔ (a.info x).isFree = true ∧ ¬ (q ≤ x ∧ x < q + 2 ^ o) := by
  have htaken : (a'.info x).isFree = true ↔ (a.info x).isFree = true ∧
      ∀ blk ∈ [(q * PAGE_SIZE, o)], ¬ InBlock blk.1 blk.2 x := (h.taken h').2 x
  rw [htaken, List.forall_mem_singleton, InBlock, Nat.mul_div_cancel _ (by decide : 0 < PAGE_SIZE)]

theorem Ledger.exists_lost (h : Ledger b { allocator := a, live := live })
    (h' : Ledger b { allocator := a', live := new ++ live }) (hne : new ≠ []) :
    ∃ x, (a.info x).isFree = true ∧ (a'.info x).isFree ≠ true := by
  obtain ⟨hfree, hiff⟩ := h.taken h'
  obtain ⟨blk, hm⟩ := List.exists_mem_of_ne_nil new hne
  have hin : InBlock blk.1 blk.2 (blk.1 / PAGE_SIZE) :=
    ⟨le_refl _, Nat.lt_add_of_pos_right (Nat.two_pow_pos _)⟩
  exact ⟨_, hfree blk hm _ hin, fun hx => ((hiff _).mp hx).2 blk hm hin⟩

end Session

/-! ### Runs of free pages -/

namespace Session

variable {b a a' : BuddyAllocator} {live : List (Nat × Nat)} {order o n k q : Nat}

/-- `n` runs of `2 ^ order` free pages below the limit for page tables. -/
structure Room (b a : BuddyAllocator) (order n : Nat) : Prop where
  ledger : ∃ live, Ledger b { allocator := a, live := live }
  coalesced : a.tag.Coalesced (MAX_ORDER - 1) true
  runs : ∃ S : Finset Nat, n ≤ S.card ∧ ∀ q ∈ S, FreeRun a order q ∧
    (q + 2 ^ order) * PAGE_SIZE ≤ EARLY_PAGE_TABLE_LIMIT

theorem Room.mono (h : Room b a order n) (hk : k ≤ n) : Room b a order k := by
  obtain ⟨S, hn, hS⟩ := h.runs
  exact ⟨h.ledger, h.coalesced, S, hk.trans hn, hS⟩

theorem FreeRun.weaken (h : FreeRun a order q) (ho : o ≤ order) : FreeRun a o q := by
  have hpow : 2 ^ o ≤ 2 ^ order := Nat.pow_le_pow_right (by decide) ho
  exact ⟨(pow_dvd_pow 2 ho).trans h.1, fun x hge hlt => h.2 x hge (by omega)⟩

theorem coalesced_allocateWhere {pred : Nat → Bool} {answer : Option Nat}
    (h : Ledger b { allocator := a, live := live })
    (hco : a.tag.Coalesced (MAX_ORDER - 1) true)
    (he : a.allocateWhere o pred = some (answer, a')) : a'.tag.Coalesced (MAX_ORDER - 1) true := by
  obtain ⟨L, hI⟩ := h.inv
  rcases allocateWhere_spec hI o pred with ⟨hnone, _⟩ | ⟨k, p, a₁, L₁, hsome, _, hp, _, _, _, htag⟩
  · obtain ⟨_, rfl⟩ := Prod.mk.inj (Option.some.inj (hnone.symm.trans he))
    exact hco
  · obtain ⟨_, rfl⟩ := Prod.mk.inj (Option.some.inj (hsome.symm.trans he))
    rw [htag]
    exact coalesced_pieces hco ((hI.mem k p).mp hp).2

theorem Room.take (h : Room b a order (n + 1)) (hled : Ledger b { allocator := a, live := live })
    (hled' : Ledger b { allocator := a', live := (q * PAGE_SIZE, o) :: live })
    (hco : a'.tag.Coalesced (MAX_ORDER - 1) true) (ho : o ≤ order) : Room b a' order n := by
  obtain ⟨S, hn, hS⟩ := h.runs
  obtain ⟨p, hp, hd, _⟩ := hled'.live_spec List.mem_cons_self
  obtain rfl : q = p := Nat.eq_of_mul_eq_mul_right (by decide) hp
  refine ⟨⟨_, hled'⟩, hco, S.erase (q / 2 ^ order * 2 ^ order), ?_, fun r hr => ?_⟩
  · exact Nat.le_sub_of_add_le hn |>.trans Finset.pred_card_le_card_erase
  obtain ⟨hne, hr⟩ := Finset.mem_erase.mp hr
  obtain ⟨⟨hdvd, hrun⟩, hlimit⟩ := hS r hr
  refine ⟨⟨hdvd, fun x hge hlt =>
    (hled.taken_one hled' x).mpr ⟨hrun x hge hlt, fun hin => hne ?_⟩⟩, hlimit⟩
  -- the page lies in the block and in the run, so both lie in the same run
  have hblock : x / 2 ^ order = q / 2 ^ order := div_eq_of_le ho ((div_eq_iff hd).mpr hin)
  have hsame : x / 2 ^ order = r / 2 ^ order := (div_eq_iff hdvd).mpr ⟨hge, hlt⟩
  rw [← hblock, hsame, Nat.div_mul_cancel hdvd]

theorem Room.take_above (h : Room b a order n) (hled : Ledger b { allocator := a, live := live })
    (hled' : Ledger b { allocator := a', live := (q * PAGE_SIZE, o) :: live })
    (hco : a'.tag.Coalesced (MAX_ORDER - 1) true) (hq : EARLY_PAGE_TABLE_LIMIT ≤ q * PAGE_SIZE) :
    Room b a' order n := by
  obtain ⟨S, hn, hS⟩ := h.runs
  refine ⟨⟨_, hled'⟩, hco, S, hn, fun r hr => ?_⟩
  obtain ⟨⟨hdvd, hrun⟩, hlimit⟩ := hS r hr
  refine ⟨⟨hdvd, fun x hge hlt =>
    (hled.taken_one hled' x).mpr ⟨hrun x hge hlt, fun hin => ?_⟩⟩, hlimit⟩
  have hle := hlimit.trans hq
  have hlt' := Nat.lt_of_lt_of_le hlt (Nat.le_of_mul_le_mul_right hle (by decide))
  omega

/-- **A request is answered** while there is room for it. -/
theorem Room.request (pred : Nat → Bool) (h : Room b a order (n + 1)) (hord : order < MAX_ORDER) (ho : o ≤ order)
    (hpred : ∀ p q, p ≤ q → pred q = true → pred p = true)
    (hlow : ∀ q, (q + 2 ^ order) * PAGE_SIZE ≤ EARLY_PAGE_TABLE_LIMIT → pred q = true) :
    ∃ q a', a.allocateWhere o pred = some (some (q * PAGE_SIZE), a') ∧ pred q = true ∧
      Room b a' order n := by
  obtain ⟨live, hled⟩ := h.ledger
  obtain ⟨L, hI⟩ : ∃ L, Inv a L := hled.inv
  obtain ⟨S, hn, hS⟩ := h.runs
  obtain ⟨r, hr⟩ := Finset.card_pos.mp (Nat.lt_of_lt_of_le (Nat.succ_pos n) hn)
  obtain ⟨hrun, hlimit⟩ := hS r hr
  obtain ⟨answer, a', he, hiff, _⟩ := allocateWhere_exact hI h.coalesced
    (Nat.lt_of_le_of_lt ho hord) pred hpred
  have hsome := hiff.mpr ⟨r, hrun.weaken ho, hlow r hlimit⟩
  rcases hled.allocateWhere o pred with hnone | ⟨q, a₁, he₁, hpq, hled₁⟩
  · obtain ⟨rfl, _⟩ := Prod.mk.inj (Option.some.inj (hnone.symm.trans he))
    simp at hsome
  · exact ⟨q, a₁, he₁, hpq, h.take hled hled₁ (coalesced_allocateWhere hled h.coalesced he₁) ho⟩

theorem endsBelow_of_run (ho : o ≤ order)
    (h : (q + 2 ^ order) * PAGE_SIZE ≤ EARLY_PAGE_TABLE_LIMIT) :
    endsBelow o EARLY_PAGE_TABLE_LIMIT q = true := by
  have hpow : 2 ^ o ≤ 2 ^ order := Nat.pow_le_pow_right (by decide) ho
  have hle : (q + 2 ^ o) * PAGE_SIZE ≤ EARLY_PAGE_TABLE_LIMIT :=
    (Nat.mul_le_mul_right _ (Nat.add_le_add_left hpow q)).trans h
  exact (endsBelow_iff (Nat.lt_of_le_of_lt hle (by decide))).mpr hle

theorem Room.takeFrame (h : Room b a order (n + 1)) (hord : order < MAX_ORDER) :
    ∃ a', a.takeFrame = some a' ∧ Room b a' order n := by
  obtain ⟨q, a', he, _, h'⟩ := h.request _ hord (Nat.zero_le order) (fun _ _ => endsBelow_mono)
    fun _ => endsBelow_of_run (Nat.zero_le order)
  refine ⟨a', ?_, h'⟩
  rw [BuddyAllocator.takeFrame, allocateBelow, he]

/-- **Frames for page tables.** -/
theorem Room.takeFrames (hord : order < MAX_ORDER) : ∀ {k n : Nat}, Room b a order (n + k) →
    ∃ a', a.takeFrames k = some a' ∧ Room b a' order n := by
  intro k
  induction k with
  | zero => exact fun h => ⟨a, rfl, h⟩
  | succ k ih =>
    intro n h
    obtain ⟨a₁, htake, h₁⟩ := ih (n := n + 1) (h.mono (by omega))
    obtain ⟨a₂, he, h₂⟩ := h₁.takeFrame hord
    exact ⟨a₂, by rw [BuddyAllocator.takeFrames, htake]; exact he, h₂⟩

/-! ### Pages above the limit -/

theorem Ledger.takeFrames_above : ∀ {k : Nat} {a' : BuddyAllocator} {live : List (Nat × Nat)},
    Ledger b { allocator := a, live := live } → a.takeFrames k = some a' →
    (∃ live', Ledger b { allocator := a', live := live' }) ∧
      ∀ x, EARLY_PAGE_TABLE_LIMIT ≤ x * PAGE_SIZE → (a.info x).isFree = true →
        (a'.info x).isFree = true := by
  intro k
  induction k with
  | zero =>
    intro a' live h he
    obtain rfl := Option.some.inj he
    exact ⟨⟨live, h⟩, fun _ _ hx => hx⟩
  | succ k ih =>
    intro a' live h he
    obtain ⟨a₁, h₁, he⟩ := Option.bind_eq_some_iff.mp he
    obtain ⟨⟨live₁, hled₁⟩, hkeep⟩ := ih h h₁
    rcases hled₁.allocateWhere 0 (endsBelow 0 EARLY_PAGE_TABLE_LIMIT) with
      hnone | ⟨q, a₂, hsome, hpred, hled₂⟩
    · rw [BuddyAllocator.takeFrame, allocateBelow, hnone] at he
      simp at he
    · rw [BuddyAllocator.takeFrame, allocateBelow, hsome] at he
      obtain rfl := Option.some.inj he
      refine ⟨⟨_, hled₂⟩, fun x hx hf =>
        (hled₁.taken_one hled₂ x).mpr ⟨hkeep x hx hf, fun hin => ?_⟩⟩
      have hend := endsBelow_limit hpred
      obtain rfl : x = q := Nat.le_antisymm (Nat.le_of_lt_succ hin.2) hin.1
      unfold PAGE_SIZE at *
      omega

end Session

end Zeronix
