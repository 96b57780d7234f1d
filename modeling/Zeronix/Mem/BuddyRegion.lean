import Zeronix.Mem.BuddyOps

/-!
# Building the allocator

`add_region` cuts a usable area into blocks from below.  Where a block starts and how
large it is depends on the page number alone: `Placed` is what a block in the region
satisfies, and `addRegionLoop_spec` says that the loop tags untagged pages only, in
placed blocks.

A placed block is as large as its alignment and the next reserved boundary allow, so
when the reserved ranges are not empty, two placed blocks of one region that are
buddies are not of the same order below the largest (`Placed.not_buddies`).
-/

namespace Zeronix

open Dyadic

/-! ### Rounding -/

theorem alignUp_spec {a s : Nat} (h : alignUp a PAGE_SIZE = some s) :
    a ≤ s ∧ s < a + PAGE_SIZE ∧ PAGE_SIZE ∣ s ∧ s < Word.modulus := by
  unfold alignUp at h
  simp only [Option.bind_eq_bind, Option.bind_eq_some_iff, Word.add_eq_some] at h
  obtain ⟨t, ⟨ht, rfl⟩, hs⟩ := h
  have hs' : s = (a + PAGE_SIZE - 1) &&& Word.not (2 ^ 12 - 1) := (Option.some.inj hs).symm
  rw [Word.and_not_two_pow (by unfold PAGE_SIZE at *; omega) (by omega)] at hs'
  unfold PAGE_SIZE at *
  subst hs'
  refine ⟨by omega, by omega, Dvd.intro_left _ rfl, by omega⟩

theorem alignUp_some {a : Nat} (h : a + PAGE_SIZE < Word.modulus) :
    ∃ s, alignUp a PAGE_SIZE = some s := by
  rw [alignUp, Word.add, if_pos h]
  exact ⟨_, rfl⟩

theorem alignDown_spec {a : Nat} (h : a < Word.modulus) :
    alignDown a PAGE_SIZE = a / PAGE_SIZE * PAGE_SIZE :=
  Word.and_not_two_pow h (show 12 ≤ 64 by omega)

/-- Page `x` lies entirely inside the area. -/
def MemoryArea.HasPage (a : MemoryArea) (x : Nat) : Prop :=
  a.startAddress.toNat ≤ x * PAGE_SIZE ∧ (x + 1) * PAGE_SIZE ≤ a.endAddress.toNat

namespace BuddyAllocator

/-! ### The next boundary -/

theorem nextBoundary_le (reserved : List (Nat × Nat)) (start stop : Nat) :
    nextBoundary reserved start stop ≤ stop := Nat.min_le_right _ _

theorem nextBoundary_le_of_mem {reserved : List (Nat × Nat)} {start : Nat} {r : Nat × Nat}
    (hr : r ∈ reserved) (h : start < r.1) (stop : Nat) : nextBoundary reserved start stop ≤ r.1 := by
  refine le_trans (Nat.min_le_left _ _) (List.min?_getD_le_of_mem ?_)
  exact List.mem_map.mpr ⟨r, List.mem_filter.mpr ⟨hr, by simpa using h⟩, rfl⟩

theorem nextBoundary_cases (reserved : List (Nat × Nat)) (start stop : Nat) :
    nextBoundary reserved start stop = stop ∨
      ∃ r ∈ reserved, start < r.1 ∧ nextBoundary reserved start stop = r.1 := by
  unfold nextBoundary
  cases hm : ((reserved.filter fun r => start < r.1).map Prod.fst).min? with
  | none => exact Or.inl (by simp)
  | some m =>
    rw [Option.getD_some]
    rcases Nat.le_total m stop with h | h
    · obtain ⟨r, hr, rfl⟩ := List.mem_map.mp (List.min?_mem hm)
      obtain ⟨hr, hlt⟩ := List.mem_filter.mp hr
      exact Or.inr ⟨r, hr, by simpa using hlt, Nat.min_eq_left h⟩
    · exact Or.inl (Nat.min_eq_right h)

/-! ### Placed blocks -/

/-- The reserved range `add_region` finds `start` in. -/
def reservedAt (reserved : List (Nat × Nat)) (start : Nat) : Option (Nat × Nat) :=
  reserved.find? fun r => decide (r.1 ≤ start) && decide (start < r.2)

/-- The pages from `start` to the next boundary. -/
def regionPages (reserved : List (Nat × Nat)) (start stop : Nat) : Nat :=
  (nextBoundary reserved start stop - start) >>> PAGE_SHIFT

/-- A block `add_region` makes in the region from `start` to `stop`. -/
structure Placed (reserved : List (Nat × Nat)) (start stop q o : Nat) : Prop where
  above : start ≤ q * PAGE_SIZE
  clear : reservedAt reserved (q * PAGE_SIZE) = none
  pages : regionPages reserved (q * PAGE_SIZE) stop ≠ 0
  order : o = regionOrder (q * PAGE_SIZE) (regionPages reserved (q * PAGE_SIZE) stop)

theorem regionOrder_eq {q pages : Nat} (hp : pages ≠ 0) :
    regionOrder (q * PAGE_SIZE) pages =
      min (Word.trailingZeros (q * PAGE_SIZE) - 12) (min (Nat.log2 pages) 10) := by
  simp only [regionOrder, PAGE_SHIFT, MAX_ORDER, Word.leadingZeros, if_neg hp]
  omega

theorem le_trailingZeros_page {q k : Nat} (hk : k ≤ 52) :
    k ≤ Word.trailingZeros (q * PAGE_SIZE) - 12 ↔ 2 ^ k ∣ q := by
  have h : k + 12 ≤ Word.trailingZeros (q * PAGE_SIZE) ↔ 2 ^ (k + 12) ∣ q * PAGE_SIZE :=
    Word.le_trailingZeros (by omega)
  have hpow : 2 ^ (k + 12) ∣ q * PAGE_SIZE ↔ 2 ^ k ∣ q := by
    rw [pow_add, show PAGE_SIZE = 2 ^ 12 from rfl]
    exact Nat.mul_dvd_mul_iff_right (by omega)
  rw [← hpow, ← h]
  have h12 : 12 ≤ Word.trailingZeros (q * PAGE_SIZE) :=
    (Word.le_trailingZeros (by omega)).mpr (Dvd.intro_left q rfl)
  omega

variable {reserved : List (Nat × Nat)} {start stop q o : Nat}

theorem Placed.orderLt (h : Placed reserved start stop q o) : o < MAX_ORDER := by
  rw [h.order, regionOrder_eq h.pages]
  unfold MAX_ORDER
  omega

theorem Placed.dvd (h : Placed reserved start stop q o) : 2 ^ o ∣ q := by
  have ho := h.orderLt
  unfold MAX_ORDER at ho
  rw [← le_trailingZeros_page (by omega)]
  have := h.order
  rw [regionOrder_eq h.pages] at this
  omega

theorem Placed.fits (h : Placed reserved start stop q o) :
    (q + 2 ^ o) * PAGE_SIZE ≤ nextBoundary reserved (q * PAGE_SIZE) stop := by
  have hord := h.order
  rw [regionOrder_eq h.pages] at hord
  have hlog : 2 ^ o ≤ regionPages reserved (q * PAGE_SIZE) stop :=
    (Nat.le_log2 h.pages).mp (by omega)
  have hpos := Nat.two_pow_pos o
  unfold regionPages PAGE_SHIFT at hlog
  rw [Nat.shiftRight_eq_div_pow] at hlog
  unfold PAGE_SIZE at *
  rw [Nat.add_mul]
  omega

theorem Placed.le_stop (h : Placed reserved start stop q o) : (q + 2 ^ o) * PAGE_SIZE ≤ stop :=
  le_trans h.fits (nextBoundary_le _ _ _)

theorem Placed.boundary_lt (h : Placed reserved start stop q o) (ho : o + 1 < MAX_ORDER)
    (hd : 2 ^ (o + 1) ∣ q) :
    nextBoundary reserved (q * PAGE_SIZE) stop < (q + 2 ^ (o + 1)) * PAGE_SIZE := by
  unfold MAX_ORDER at ho
  have halign := (le_trailingZeros_page (q := q) (k := o + 1) (by omega)).mpr hd
  have hord := h.order
  rw [regionOrder_eq h.pages] at hord
  have hlog : regionPages reserved (q * PAGE_SIZE) stop < 2 ^ (o + 1) :=
    (Nat.log2_lt h.pages).mp (by omega)
  unfold regionPages PAGE_SHIFT at hlog
  rw [Nat.shiftRight_eq_div_pow] at hlog
  unfold PAGE_SIZE at *
  rw [Nat.add_mul]
  omega

/-- **Two buddies of one region are not placed with the same order** below the largest:
the lower one would have been placed with the next order. -/
theorem Placed.not_buddies (hne : ∀ r ∈ reserved, r.1 < r.2)
    (h : Placed reserved start stop q o) (h' : Placed reserved start stop (q + 2 ^ o) o)
    (ho : o + 1 < MAX_ORDER) (hd : 2 ^ (o + 1) ∣ q) : False := by
  have hlt := h.boundary_lt ho hd
  have hfit := h'.fits
  have hge := h.fits
  have hpow : q + 2 ^ (o + 1) = q + 2 ^ o + 2 ^ o := by
    rw [pow_succ]
    omega
  rw [hpow] at hlt
  rcases nextBoundary_cases reserved (q * PAGE_SIZE) stop with hstop | ⟨r, hr, _, hbound⟩
  · have := nextBoundary_le reserved ((q + 2 ^ o) * PAGE_SIZE) stop
    omega
  · rcases Nat.lt_or_ge ((q + 2 ^ o) * PAGE_SIZE) r.1 with hgt | hle
    · have : nextBoundary _ _ stop ≤ r.1 := nextBoundary_le_of_mem hr hgt stop
      omega
    · -- the reserved range starts where the upper block would
      have hnone := List.find?_eq_none.mp h'.clear r hr
      have := hne r hr
      simp only [Bool.and_eq_true, decide_eq_true_eq, not_and, Nat.not_lt] at hnone
      have := hnone hle
      omega

/-! ### The loop -/

theorem Inv.place {b : BuddyAllocator} {L : Nat → List Nat} (h : Inv b L) {p o : Nat}
    (ho : o < MAX_ORDER) (hd : 2 ^ o ∣ p) (hle : p + 2 ^ o ≤ b.metadata.length)
    (hfree : ∀ x, x / 2 ^ o = p / 2 ^ o → b.tag x = none) {f : Nat → PageInfo → PageInfo}
    (hf : ∀ i q, (f i q).marks = (UInt8.ofNat o, i == 0, true)) :
    ∃ b' L', (b.updateRange p f (2 ^ o)).bind (·.pushFree p o) = some b' ∧ Inv b' L' ∧
      b'.metadata.length = b.metadata.length ∧
      b'.tag = b.tag.overlay o p (fun _ => some (o, true)) := by
  refine Holding.free ⟨h.links, hd, ho, hle, fun x hx o' c hx' => ?_, fun k x => ?_⟩ h.toMarked hf
  · rw [hfree x hx] at hx'
    simp at hx'
  · rw [h.mem k x]
    refine ⟨fun hm => ⟨hm.1, hm.2, fun hx => ?_⟩, fun hm => ⟨hm.1, hm.2.1⟩⟩
    rw [hfree x hx] at hm
    simp at hm

/-- The tag of a page after a region was added: as before, or that of a placed block. -/
def Grows (reserved : List (Nat × Nat)) (start stop : Nat) (b b' : BuddyAllocator) : Prop :=
  ∀ x, b'.tag x = b.tag x ∨ (b.tag x = none ∧ ∃ q o, b'.tag x = some (o, true) ∧
    Placed reserved start stop q o ∧ x / 2 ^ o = q / 2 ^ o)

theorem Grows.mono {start' : Nat} {b b' : BuddyAllocator} (h : Grows reserved start' stop b b')
    (hs : start ≤ start') : Grows reserved start stop b b' := by
  intro x
  rcases h x with hx | ⟨hx, q, o, ht, hp, hq⟩
  · exact Or.inl hx
  · exact Or.inr ⟨hx, q, o, ht, ⟨le_trans hs hp.above, hp.clear, hp.pages, hp.order⟩, hq⟩

theorem Grows.isSome {b b' : BuddyAllocator} (h : Grows reserved start stop b b') {x : Nat}
    (hx : (b.tag x).isSome = true) : (b'.tag x).isSome = true := by
  rcases h x with he | ⟨hnone, _⟩
  · rwa [he]
  · rw [hnone] at hx
    cases hx

theorem addRegionLoop_cases (reserved : List (Nat × Nat)) (hdvd : PAGE_SIZE ∣ stop)
    (hstop : stop < Word.modulus) (fuel : Nat) {b : BuddyAllocator} {L : Nat → List Nat} (h : Inv b L) {q : Nat} (hlt : q * PAGE_SIZE < stop)
    (hfree : ∀ x, q * PAGE_SIZE ≤ x * PAGE_SIZE → x * PAGE_SIZE < stop → b.tag x = none) :
    (∃ r ∈ reserved, r.1 ≤ q * PAGE_SIZE ∧ q * PAGE_SIZE < r.2 ∧
      addRegionLoop reserved stop (fuel + 1) b (q * PAGE_SIZE) =
        (alignUp r.2 PAGE_SIZE).bind (addRegionLoop reserved stop fuel b)) ∨
    (∃ r ∈ reserved, q * PAGE_SIZE < r.1 ∧ r.1 < (q + 1) * PAGE_SIZE ∧
      addRegionLoop reserved stop (fuel + 1) b (q * PAGE_SIZE) =
        addRegionLoop reserved stop fuel b ((q + 1) * PAGE_SIZE)) ∨
    (∃ o, Placed reserved (q * PAGE_SIZE) stop q o ∧ b.metadata.length < q + 2 ^ o ∧
      addRegionLoop reserved stop (fuel + 1) b (q * PAGE_SIZE) = some b) ∨
    (∃ o b₁ L₁, Placed reserved (q * PAGE_SIZE) stop q o ∧ Inv b₁ L₁ ∧
      b₁.metadata.length = b.metadata.length ∧
      b₁.tag = b.tag.overlay o q (fun _ => some (o, true)) ∧
      (∀ x, x / 2 ^ o = q / 2 ^ o → b.tag x = none) ∧
      addRegionLoop reserved stop (fuel + 1) b (q * PAGE_SIZE) =
        addRegionLoop reserved stop fuel b₁ ((q + 2 ^ o) * PAGE_SIZE)) := by
  rw [addRegionLoop, if_pos hlt]
  cases hclear : reservedAt reserved (q * PAGE_SIZE) with
  | some r =>
    have hin := List.find?_some hclear
    simp only [Bool.and_eq_true, decide_eq_true_eq] at hin
    refine Or.inl ⟨r, List.mem_of_find?_eq_some hclear, hin.1, hin.2, ?_⟩
    rw [reservedAt] at hclear
    rw [hclear]
    rfl
  | none =>
    have hfind := hclear
    rw [reservedAt] at hfind
    rw [hfind]
    dsimp only
    rw [show (nextBoundary reserved (q * PAGE_SIZE) stop - q * PAGE_SIZE) >>> PAGE_SHIFT =
      regionPages reserved (q * PAGE_SIZE) stop from rfl]
    by_cases hpages : regionPages reserved (q * PAGE_SIZE) stop = 0
    · -- a boundary inside the page
      refine Or.inr (Or.inl ?_)
      have hnext : Word.saturatingAdd (q * PAGE_SIZE) PAGE_SIZE = (q + 1) * PAGE_SIZE := by
        obtain ⟨e, rfl⟩ := hdvd
        unfold Word.saturatingAdd PAGE_SIZE at *
        omega
      have hbound : nextBoundary reserved (q * PAGE_SIZE) stop < (q + 1) * PAGE_SIZE := by
        unfold regionPages PAGE_SHIFT at hpages
        rw [Nat.shiftRight_eq_div_pow] at hpages
        unfold PAGE_SIZE at *
        omega
      have hfits : (q + 1) * PAGE_SIZE ≤ stop := by
        obtain ⟨e, rfl⟩ := hdvd
        unfold PAGE_SIZE at *
        omega
      rw [if_pos hpages, hnext]
      rcases nextBoundary_cases reserved (q * PAGE_SIZE) stop with he | ⟨r, hr, hgt, he⟩
      · omega
      · exact ⟨r, hr, hgt, by omega, rfl⟩
    · have hplaced : Placed reserved (q * PAGE_SIZE) stop q
          (regionOrder (q * PAGE_SIZE) (regionPages reserved (q * PAGE_SIZE) stop)) :=
        ⟨Nat.le_refl _, hclear, hpages, rfl⟩
      have hpfn : (q * PAGE_SIZE) >>> PAGE_SHIFT = q := by
        unfold PAGE_SIZE PAGE_SHIFT
        rw [Nat.shiftRight_eq_div_pow]
        omega
      rw [if_neg hpages]
      simp only [Nat.one_shiftLeft, hpfn]
      generalize regionOrder (q * PAGE_SIZE) (regionPages reserved (q * PAGE_SIZE) stop) = o
        at hplaced
      by_cases hfits : q + 2 ^ o > b.totalPages
      · rw [if_pos hfits]
        exact Or.inr (Or.inr (Or.inl ⟨o, hplaced, by rw [h.total] at hfits; omega, rfl⟩))
      · have hle_stop := hplaced.le_stop
        have hblock : ∀ x, x / 2 ^ o = q / 2 ^ o → b.tag x = none := by
          intro x hx
          obtain ⟨h1, h2⟩ := (div_eq_iff hplaced.dvd).mp hx
          refine hfree x (Nat.mul_le_mul_right _ h1) ?_
          exact lt_of_lt_of_le (Nat.mul_lt_mul_of_pos_right h2 (by decide)) hle_stop
        obtain ⟨b₁, L₁, e₁, hI₁, hlen₁, htag₁⟩ := h.place hplaced.orderLt hplaced.dvd
          (by rw [h.total] at hfits; omega) hblock
          (f := fun i p =>
            ((((p.setOrder o).setHead (i == 0)).setFree true).setNext none).setPrev none)
          (fun i p => by simp [PageInfo.marks])
        have hadd : Word.add (q * PAGE_SIZE) (2 ^ o * PAGE_SIZE) = some ((q + 2 ^ o) * PAGE_SIZE) := by
          rw [Word.add_eq_some, ← Nat.add_mul]
          exact ⟨by omega, rfl⟩
        refine Or.inr (Or.inr (Or.inr ⟨o, b₁, L₁, hplaced, hI₁, hlen₁, htag₁, hblock, ?_⟩))
        rw [if_neg hfits, Option.bind_eq_bind, Option.bind_eq_bind]
        simp only [hadd, Option.bind_some]
        rw [← Option.bind_assoc, e₁, Option.bind_some]

theorem exists_page {start : Nat} (h : PAGE_SIZE ∣ start) : ∃ q, start = q * PAGE_SIZE :=
  ⟨start / PAGE_SIZE, (Nat.div_mul_cancel h).symm⟩

theorem untagged_behind {b b₁ : BuddyAllocator} (hplaced : Placed reserved start stop q o)
    (htag : b₁.tag = b.tag.overlay o q (fun _ => some (o, true)))
    (hfree : ∀ x, q * PAGE_SIZE ≤ x * PAGE_SIZE → x * PAGE_SIZE < stop → b.tag x = none) :
    ∀ x, (q + 2 ^ o) * PAGE_SIZE ≤ x * PAGE_SIZE → x * PAGE_SIZE < stop → b₁.tag x = none := by
  intro x hx hx'
  have hle := Nat.le_of_mul_le_mul_right hx (by decide)
  have hpos := Nat.two_pow_pos o
  rw [htag, Tiling.overlay_of_not_mem]
  · exact hfree x (Nat.mul_le_mul_right _ (by omega)) hx'
  · rw [div_eq_iff hplaced.dvd]
    omega

/-- **The loop of `add_region`** keeps the invariant and tags untagged pages only. -/
theorem addRegionLoop_spec (hdvd : PAGE_SIZE ∣ stop) (hstop : stop < Word.modulus) :
    ∀ (fuel : Nat) {b b' : BuddyAllocator} {L : Nat → List Nat} {start : Nat}, Inv b L →
      PAGE_SIZE ∣ start →
      (∀ x, start ≤ x * PAGE_SIZE → x * PAGE_SIZE < stop → b.tag x = none) →
      addRegionLoop reserved stop fuel b start = some b' →
      ∃ L', Inv b' L' ∧ b'.metadata.length = b.metadata.length ∧
        Grows reserved start stop b b' := by
  intro fuel
  induction fuel with
  | zero =>
    intro b b' L start h _ _ he
    rw [addRegionLoop] at he
    split at he
    · simp at he
    · obtain rfl := Option.some.inj he
      exact ⟨L, h, rfl, fun x => Or.inl rfl⟩
  | succ fuel ih =>
    intro b b' L start h hs hfree he
    obtain ⟨q, rfl⟩ := exists_page hs
    by_cases hlt : q * PAGE_SIZE < stop
    swap
    · rw [addRegionLoop, if_neg hlt] at he
      obtain rfl := Option.some.inj he
      exact ⟨L, h, rfl, fun x => Or.inl rfl⟩
    rcases addRegionLoop_cases reserved hdvd hstop fuel h hlt hfree with
      ⟨r, hr, hlo, hhi, hloop⟩ | ⟨r, hr, hlo, hhi, hloop⟩ | ⟨o, hplaced, hend, hloop⟩ |
      ⟨o, b₁, L₁, hplaced, hI₁, hlen₁, htag₁, hblock, hloop⟩ <;> rw [hloop] at he
    · obtain ⟨start', hup, he⟩ := Option.bind_eq_some_iff.mp he
      obtain ⟨hge, _, hdvd', _⟩ := alignUp_spec hup
      obtain ⟨L', hI, hlen, hg⟩ := ih h hdvd' (fun x hx => hfree x (by omega)) he
      exact ⟨L', hI, hlen, hg.mono (by omega)⟩
    · have hmono : q * PAGE_SIZE ≤ (q + 1) * PAGE_SIZE := Nat.mul_le_mul_right _ (Nat.le_succ q)
      obtain ⟨L', hI, hlen, hg⟩ := ih h (Nat.dvd_mul_left PAGE_SIZE (q + 1))
        (fun x hx => hfree x (le_trans hmono hx)) he
      exact ⟨L', hI, hlen, hg.mono hmono⟩
    · obtain rfl := Option.some.inj he
      exact ⟨L, h, rfl, fun x => Or.inl rfl⟩
    · have hmono : q * PAGE_SIZE ≤ (q + 2 ^ o) * PAGE_SIZE :=
        Nat.mul_le_mul_right _ (Nat.le_add_right q _)
      obtain ⟨L', hI, hlen, hg⟩ := ih hI₁ (Nat.dvd_mul_left PAGE_SIZE (q + 2 ^ o))
        (untagged_behind hplaced htag₁ hfree) he
      refine ⟨L', hI, hlen.trans hlen₁, fun x => ?_⟩
      by_cases hx : x / 2 ^ o = q / 2 ^ o
      · -- the block just made keeps its tag
        have ht₁ : b₁.tag x = some (o, true) := by rw [htag₁, Tiling.overlay_of_mem hx]
        rcases hg x with hgx | ⟨hgx, _⟩
        · exact Or.inr ⟨hblock x hx, q, o, hgx.trans ht₁, hplaced, hx⟩
        · rw [ht₁] at hgx
          simp at hgx
      · have ht₁ : b₁.tag x = b.tag x := by rw [htag₁, Tiling.overlay_of_not_mem hx]
        have hgx := hg.mono hmono x
        rw [ht₁] at hgx
        exact hgx

/-! ### No page is left out -/

/-- The page has no byte of a reserved range. -/
def Clear (reserved : List (Nat × Nat)) (x : Nat) : Prop :=
  ∀ r ∈ reserved, ∀ y, x * PAGE_SIZE ≤ y → y < (x + 1) * PAGE_SIZE → ¬ (r.1 ≤ y ∧ y < r.2)

/-- The metadata ends behind the region, or at a multiple of the largest block. -/
def Covers (pages stop : Nat) : Prop := stop ≤ pages * PAGE_SIZE ∨ 2 ^ (MAX_ORDER - 1) ∣ pages

theorem Placed.behind {pages : Nat} (h : Placed reserved start stop q o)
    (hcovers : Covers pages stop) (hend : pages < q + 2 ^ o) : pages ≤ q := by
  rcases hcovers with hstop | hdvd
  · have hle := le_trans h.le_stop hstop
    have := Nat.le_of_mul_le_mul_right hle (by decide)
    omega
  · -- both are multiples of the size of the block
    have ho := h.orderLt
    obtain ⟨m, rfl⟩ := (pow_dvd_pow 2 (by omega : o ≤ MAX_ORDER - 1)).trans hdvd
    obtain ⟨n, rfl⟩ := h.dvd
    have hlt : 2 ^ o * m < 2 ^ o * (n + 1) := by rwa [Nat.mul_succ]
    exact Nat.mul_le_mul_left _ (Nat.le_of_lt_succ (Nat.lt_of_mul_lt_mul_left hlt))

theorem pages_left {fuel m : Nat} (h : (stop - q * PAGE_SIZE) / PAGE_SIZE ≤ fuel + 1)
    (hlt : q < m) : (stop - m * PAGE_SIZE) / PAGE_SIZE ≤ fuel := by
  rw [Nat.mul_comm, Nat.sub_mul_div] at h ⊢
  omega

theorem page_lt_of_lt {m x y : Nat} (h : x * PAGE_SIZE < m * PAGE_SIZE)
    (hy : m * PAGE_SIZE < y + PAGE_SIZE) : x * PAGE_SIZE < y := by
  have hle : (x + 1) * PAGE_SIZE ≤ m * PAGE_SIZE :=
    Nat.mul_le_mul_right _ (Nat.lt_of_mul_lt_mul_right h)
  rw [Nat.succ_mul] at hle
  omega

theorem le_page_of_le {m x y : Nat} (h : y ≤ x * PAGE_SIZE) (hy : m * PAGE_SIZE < y + PAGE_SIZE) :
    m * PAGE_SIZE ≤ x * PAGE_SIZE := by
  by_contra hlt
  have := page_lt_of_lt (Nat.lt_of_not_le hlt) hy
  omega

/-- **The loop tags every page it can**: with non-empty reserved ranges whose ends can be rounded,
it returns, and the clear pages of the region that the metadata has are in blocks. -/
theorem addRegionLoop_complete (hdvd : PAGE_SIZE ∣ stop) (hstop : stop < Word.modulus)
    (hne : ∀ r ∈ reserved, r.1 < r.2) (hround : ∀ r ∈ reserved, r.2 + PAGE_SIZE < Word.modulus) :
    ∀ (fuel : Nat) {b : BuddyAllocator} {L : Nat → List Nat} {start : Nat}, Inv b L →
      PAGE_SIZE ∣ start → (stop - start) / PAGE_SIZE ≤ fuel → Covers b.metadata.length stop →
      (∀ x, start ≤ x * PAGE_SIZE → x * PAGE_SIZE < stop → b.tag x = none) →
      ∃ b', addRegionLoop reserved stop fuel b start = some b' ∧
        ∀ x, start ≤ x * PAGE_SIZE → x * PAGE_SIZE < stop → x < b.metadata.length →
          Clear reserved x → (b'.tag x).isSome = true := by
  intro fuel
  induction fuel with
  | zero =>
    intro b L start _ hs hfuel _ _
    have hge : ¬ start < stop := by
      obtain ⟨m, rfl⟩ := hs
      obtain ⟨n, rfl⟩ := hdvd
      unfold PAGE_SIZE at *
      omega
    exact ⟨b, by rw [addRegionLoop, if_neg hge], fun x h1 h2 => by omega⟩
  | succ fuel ih =>
    intro b L start h hs hfuel hcovers hfree
    obtain ⟨q, rfl⟩ := exists_page hs
    by_cases hlt : q * PAGE_SIZE < stop
    swap
    · exact ⟨b, by rw [addRegionLoop, if_neg hlt], fun x h1 h2 => by omega⟩
    rcases addRegionLoop_cases reserved hdvd hstop fuel h hlt hfree with
      ⟨r, hr, hlo, hhi, hloop⟩ | ⟨r, hr, hlo, hhi, hloop⟩ | ⟨o, hplaced, hend, hloop⟩ |
      ⟨o, b₁, L₁, hplaced, hI₁, hlen₁, htag₁, hblock, hloop⟩ <;> rw [hloop]
    · -- the pages that are skipped start in the reserved range
      obtain ⟨start', hup⟩ := alignUp_some (hround r hr)
      obtain ⟨hge, hlt', hdvd', _⟩ := alignUp_spec hup
      obtain ⟨m, rfl⟩ := exists_page hdvd'
      have hqm : q < m := Nat.lt_of_mul_lt_mul_right (lt_of_lt_of_le hhi hge)
      obtain ⟨b', he, hall⟩ := ih h hdvd' (pages_left hfuel hqm) hcovers
        (fun x hx => hfree x (by omega))
      refine ⟨b', by rw [hup]; exact he, fun x h1 h2 h3 hclear => ?_⟩
      by_cases hx : m * PAGE_SIZE ≤ x * PAGE_SIZE
      · exact hall x hx h2 h3 hclear
      · have hin : x * PAGE_SIZE < r.2 := page_lt_of_lt (Nat.lt_of_not_le hx) hlt'
        have hpage : x * PAGE_SIZE < (x + 1) * PAGE_SIZE :=
          Nat.mul_lt_mul_of_pos_right (Nat.lt_succ_self x) (by decide)
        exact absurd ⟨by omega, hin⟩ (hclear r hr (x * PAGE_SIZE) (Nat.le_refl _) hpage)
    · -- the page that is skipped has the first byte of the range
      have hmono : q * PAGE_SIZE ≤ (q + 1) * PAGE_SIZE := Nat.mul_le_mul_right _ (Nat.le_succ q)
      obtain ⟨b', he, hall⟩ := ih h (Nat.dvd_mul_left PAGE_SIZE (q + 1))
        (pages_left hfuel (Nat.lt_succ_self q)) hcovers (fun x hx => hfree x (le_trans hmono hx))
      refine ⟨b', he, fun x h1 h2 h3 hclear => ?_⟩
      by_cases hx : x = q
      · subst hx
        exact absurd ⟨Nat.le_refl _, hne r hr⟩ (hclear r hr r.1 (Nat.le_of_lt hlo) hhi)
      · have hle := Nat.le_of_mul_le_mul_right h1 (by decide)
        exact hall x (Nat.mul_le_mul_right _ (by omega)) h2 h3 hclear
    · have hbehind := hplaced.behind hcovers hend
      refine ⟨b, rfl, fun x h1 _ h3 => ?_⟩
      have := Nat.le_of_mul_le_mul_right h1 (by decide)
      omega
    · have hpos := Nat.two_pow_pos o
      have hbehind := untagged_behind hplaced htag₁ hfree
      obtain ⟨b', he, hall⟩ := ih hI₁ (Nat.dvd_mul_left PAGE_SIZE (q + 2 ^ o))
        (pages_left hfuel (by omega)) (by rw [hlen₁]; exact hcovers) hbehind
      refine ⟨b', he, fun x h1 h2 h3 hclear => ?_⟩
      by_cases hx : x / 2 ^ o = q / 2 ^ o
      · obtain ⟨_, _, _, hgrows⟩ := addRegionLoop_spec hdvd hstop fuel hI₁
          (Nat.dvd_mul_left PAGE_SIZE (q + 2 ^ o)) hbehind he
        have ht₁ : (b₁.tag x).isSome = true := by
          rw [htag₁, Tiling.overlay_of_mem hx]
          rfl
        exact hgrows.isSome ht₁
      · have hle := Nat.le_of_mul_le_mul_right h1 (by decide)
        rw [div_eq_iff hplaced.dvd] at hx
        exact hall x (Nat.mul_le_mul_right _ (by omega)) h2 (by rw [hlen₁]; exact h3) hclear

/-! ### The whole map -/

/-- No page lies entirely inside two areas. -/
def DisjointPages (areas : List MemoryArea) : Prop :=
  areas.Pairwise fun a a' => ∀ x, ¬ (a.HasPage x ∧ a'.HasPage x)

/-- Where a block of order `o` at `q` comes from: it is placed in a usable area. -/
def FromArea (reserved : List (Nat × Nat)) (areas : List MemoryArea) (q o : Nat) : Prop :=
  ∃ a ∈ areas, ∃ start, alignUp a.startAddress.toNat PAGE_SIZE = some start ∧
    Placed reserved start (alignDown a.endAddress.toNat PAGE_SIZE) q o

theorem Placed.apart (h : Placed reserved start stop q o) {r : Nat × Nat} (hr : r ∈ reserved) {x : Nat}
    (h₁ : q * PAGE_SIZE ≤ x) (h₂ : x < (q + 2 ^ o) * PAGE_SIZE) : ¬ (r.1 ≤ x ∧ x < r.2) := by
  rintro ⟨hlo, hhi⟩
  rcases Nat.lt_or_ge (q * PAGE_SIZE) r.1 with hlt | hge
  · have hbound := nextBoundary_le_of_mem hr hlt stop
    have hfits := h.fits
    omega
  · have hclear := h.clear
    rw [reservedAt, List.find?_eq_none] at hclear
    have hno := hclear r hr
    simp only [Bool.and_eq_true, decide_eq_true_eq, not_and, not_lt] at hno
    have hle := hno hge
    omega

theorem hasPage_of_rounded {a : MemoryArea} {start x : Nat}
    (hup : alignUp a.startAddress.toNat PAGE_SIZE = some start) (h1 : start ≤ x * PAGE_SIZE)
    (h2 : x * PAGE_SIZE < alignDown a.endAddress.toNat PAGE_SIZE) : a.HasPage x := by
  obtain ⟨hge, _, _, _⟩ := alignUp_spec hup
  rw [alignDown_spec a.endAddress.toNat_lt] at h2
  have hle := Nat.div_mul_le_self a.endAddress.toNat PAGE_SIZE
  have hlt : x < a.endAddress.toNat / PAGE_SIZE := Nat.lt_of_mul_lt_mul_right h2
  exact ⟨by omega, le_trans (Nat.mul_le_mul_right _ hlt) hle⟩

theorem Placed.hasPage {a : MemoryArea} {start q o x : Nat}
    (hup : alignUp a.startAddress.toNat PAGE_SIZE = some start)
    (hp : Placed reserved start (alignDown a.endAddress.toNat PAGE_SIZE) q o)
    (hx : x / 2 ^ o = q / 2 ^ o) : a.HasPage x := by
  obtain ⟨h3, h4⟩ := (div_eq_iff hp.dvd).mp hx
  refine hasPage_of_rounded hup (le_trans hp.above (Nat.mul_le_mul_right _ h3)) ?_
  exact lt_of_lt_of_le (Nat.mul_lt_mul_of_pos_right h4 (by decide)) hp.le_stop

/-- The state before the first region is added. -/
def blankState (pages : Nat) : BuddyAllocator :=
  { metadata := List.replicate pages PageInfo.blank
    freeHeads := List.replicate MAX_ORDER none
    totalPages := pages }

theorem blankState_info (pages x : Nat) : (blankState pages).info x = PageInfo.blank := by
  simp only [info, blankState, List.getD_eq_getElem?_getD, List.getElem?_replicate]
  split <;> rfl

theorem blankState_tag (pages x : Nat) : (blankState pages).tag x = none := by
  rw [tag, blankState_info]
  rfl

theorem blankState_inv {pages : Nat} (h : pages < 2 ^ 32) : Inv (blankState pages) (fun _ => []) where
  total := by simp [blankState]
  tiles := by
    intro x o c hx
    rw [blankState_tag] at hx
    simp at hx
  orderLt := by
    intro x o c hx
    rw [blankState_tag] at hx
    simp at hx
  head := by
    intro x o c hx
    rw [blankState_tag] at hx
    simp at hx
  bare := by
    intro x _
    rw [blankState_info]
    exact ⟨rfl, rfl⟩
  links :=
    { small := by simpa [blankState] using h
      headsLength := by simp [blankState]
      heads := by
        intro o ho
        simp [blankState, ho]
      top := fun _ _ => rfl
      seg := fun _ => trivial
      nodup := fun _ => List.nodup_nil
      lt := fun _ p hp => by simp at hp
      disjoint := fun _ _ p hp => by simp at hp }
  mem := by
    intro o p
    rw [blankState_tag]
    simp

/-- Every block is free and placed in one of the areas. -/
def Tagged (reserved : List (Nat × Nat)) (areas : List MemoryArea) (b : BuddyAllocator) : Prop :=
  ∀ x o c, b.tag x = some (o, c) → c = true ∧
    ∃ q, FromArea reserved areas q o ∧ x / 2 ^ o = q / 2 ^ o

theorem Tagged.untagged {done : List MemoryArea} {a : MemoryArea} {b : BuddyAllocator} {start : Nat}
    (h : Tagged reserved done b) (hdis : DisjointPages (done ++ [a]))
    (hup : alignUp a.startAddress.toNat PAGE_SIZE = some start) : ∀ x, start ≤ x * PAGE_SIZE →
      x * PAGE_SIZE < alignDown a.endAddress.toNat PAGE_SIZE → b.tag x = none := by
  intro x h1 h2
  cases ht : b.tag x with
  | none => rfl
  | some oc =>
    exfalso
    obtain ⟨o, c⟩ := oc
    obtain ⟨_, q, ⟨a', ha', start', hup', hp⟩, hq⟩ := h x o c ht
    exact (List.pairwise_append.mp hdis).2.2 a' ha' a (by simp) x
      ⟨hp.hasPage hup' hq, hasPage_of_rounded hup h1 h2⟩

theorem alignDown_dvd (a : MemoryArea) : PAGE_SIZE ∣ alignDown a.endAddress.toNat PAGE_SIZE := by
  rw [alignDown_spec a.endAddress.toNat_lt]
  exact Nat.dvd_mul_left _ _

theorem alignDown_le (a : MemoryArea) :
    alignDown a.endAddress.toNat PAGE_SIZE ≤ a.endAddress.toNat := by
  rw [alignDown_spec a.endAddress.toNat_lt]
  exact Nat.div_mul_le_self _ _

theorem alignDown_lt (a : MemoryArea) :
    alignDown a.endAddress.toNat PAGE_SIZE < Word.modulus :=
  lt_of_le_of_lt (alignDown_le a) a.endAddress.toNat_lt

theorem addRegion_spec {done : List MemoryArea} {a : MemoryArea} {b b' : BuddyAllocator}
    {L : Nat → List Nat} (hI : Inv b L) (htagged : Tagged reserved done b)
    (hdis : DisjointPages (done ++ [a]))
    (h : b.addRegion a.startAddress.toNat a.endAddress.toNat reserved = some b') :
    ∃ L', Inv b' L' ∧ b'.metadata.length = b.metadata.length ∧
      Tagged reserved (done ++ [a]) b' ∧
      ∀ x, (b.tag x).isSome = true → (b'.tag x).isSome = true := by
  unfold addRegion at h
  simp only [Option.bind_eq_bind, Option.bind_eq_some_iff] at h
  obtain ⟨start, hup, h⟩ := h
  obtain ⟨_, _, hdvd, _⟩ := alignUp_spec hup
  obtain ⟨L', hI', hlen, hg⟩ := addRegionLoop_spec (alignDown_dvd a) (alignDown_lt a) _ hI hdvd
    (htagged.untagged hdis hup) h
  refine ⟨L', hI', hlen, fun x o c hx => ?_, fun x => hg.isSome⟩
  rcases hg x with hgx | ⟨_, q, o', ht, hp, hq⟩
  · rw [hgx] at hx
    obtain ⟨hc, q, ⟨a', ha', hfa⟩, hq⟩ := htagged x o c hx
    exact ⟨hc, q, ⟨a', List.mem_append_left _ ha', hfa⟩, hq⟩
  · rw [ht] at hx
    simp only [Option.some.injEq, Prod.mk.injEq] at hx
    obtain ⟨rfl, rfl⟩ := hx
    exact ⟨rfl, q, ⟨a, by simp, start, hup, hp⟩, hq⟩

/-- The areas one after the other. -/
def addRegions (areas : List MemoryArea) (reserved : List (Nat × Nat)) (b : BuddyAllocator) :
    Option BuddyAllocator :=
  areas.foldlM (fun b area =>
    b.addRegion area.startAddress.toNat area.endAddress.toNat reserved) b

theorem new_eq (metadata : List PageInfo) (memMap : List MemoryArea)
    (reserved : List (Nat × Nat)) : new metadata memMap reserved =
      addRegions (memMap.filter (·.usable)) reserved (blankState metadata.length) := by
  rw [new, addRegions, blankState, List.map_const']

theorem addRegions_cons {a : MemoryArea} {areas : List MemoryArea} {b : BuddyAllocator} :
    addRegions (a :: areas) reserved b =
      (b.addRegion a.startAddress.toNat a.endAddress.toNat reserved).bind
        (addRegions areas reserved) := by
  rw [addRegions, List.foldlM_cons, Option.bind_eq_bind]
  rfl

theorem addRegions_spec {todo : List MemoryArea} :
    ∀ (done : List MemoryArea) {b b' : BuddyAllocator} {L : Nat → List Nat}, Inv b L →
      Tagged reserved done b → DisjointPages (done ++ todo) →
      addRegions todo reserved b = some b' →
      ∃ L', Inv b' L' ∧ b'.metadata.length = b.metadata.length ∧
        Tagged reserved (done ++ todo) b' ∧
        ∀ x, (b.tag x).isSome = true → (b'.tag x).isSome = true := by
  induction todo with
  | nil =>
    intro done b b' L hI htagged _ h
    obtain rfl := Option.some.inj h
    rw [List.append_nil]
    exact ⟨L, hI, rfl, htagged, fun x hx => hx⟩
  | cons a todo ih =>
    intro done b b' L hI htagged hdis h
    rw [List.append_cons] at hdis ⊢
    rw [addRegions_cons] at h
    obtain ⟨b₁, hadd, h⟩ := Option.bind_eq_some_iff.mp h
    obtain ⟨L₁, hI₁, hlen₁, htagged₁, hkeep₁⟩ :=
      addRegion_spec hI htagged (List.pairwise_append.mp hdis).1 hadd
    obtain ⟨L', hI', hlen', htagged', hkeep'⟩ := ih (done ++ [a]) hI₁ htagged₁ hdis h
    exact ⟨L', hI', hlen'.trans hlen₁, htagged', fun x hx => hkeep' x (hkeep₁ x hx)⟩

theorem blankState_tagged (pages : Nat) : Tagged reserved [] (blankState pages) := by
  intro x o c hx
  rw [blankState_tag] at hx
  simp at hx

/-- **What `new` builds**: a well-formed state whose blocks are all free and all placed in
a usable area. -/
theorem new_spec {metadata : List PageInfo} {memMap : List MemoryArea} {b : BuddyAllocator}
    (hlen : metadata.length < 2 ^ 32) (hdisj : DisjointPages (memMap.filter (·.usable)))
    (h : new metadata memMap reserved = some b) :
    ∃ L, Inv b L ∧ b.metadata.length = metadata.length ∧
      ∀ x o c, b.tag x = some (o, c) → c = true ∧
        ∃ q, FromArea reserved (memMap.filter (·.usable)) q o ∧ x / 2 ^ o = q / 2 ^ o := by
  rw [new_eq] at h
  obtain ⟨L, hI, hl, htagged, _⟩ := addRegions_spec [] (blankState_inv hlen)
    (blankState_tagged _) hdisj h
  exact ⟨L, hI, by rw [hl]; simp [blankState], htagged⟩

/-! ### The pages that are free at first -/

theorem addRegion_complete {done : List MemoryArea} {a : MemoryArea} {b : BuddyAllocator}
    {L : Nat → List Nat} (hne : ∀ r ∈ reserved, r.1 < r.2)
    (hround : ∀ r ∈ reserved, r.2 + PAGE_SIZE < Word.modulus) (hI : Inv b L)
    (htagged : Tagged reserved done b) (hdis : DisjointPages (done ++ [a]))
    (hstart : a.startAddress.toNat + PAGE_SIZE < Word.modulus)
    (hcovers : Covers b.metadata.length (alignDown a.endAddress.toNat PAGE_SIZE)) :
    ∃ b', b.addRegion a.startAddress.toNat a.endAddress.toNat reserved = some b' ∧
      ∀ x, a.HasPage x → x < b.metadata.length → Clear reserved x →
        (b'.tag x).isSome = true := by
  obtain ⟨start, hup⟩ := alignUp_some hstart
  obtain ⟨_, hlt, hdvd, _⟩ := alignUp_spec hup
  obtain ⟨b', he, hall⟩ := addRegionLoop_complete (alignDown_dvd a) (alignDown_lt a) hne hround _ hI
    hdvd (Nat.le_refl _) hcovers (htagged.untagged hdis hup)
  refine ⟨b', ?_, fun x hx hlen hclear => hall x ?_ ?_ hlen hclear⟩
  · rw [addRegion, hup]
    exact he
  · obtain ⟨m, rfl⟩ := exists_page hdvd
    exact le_page_of_le hx.1 hlt
  · rw [alignDown_spec a.endAddress.toNat_lt]
    exact Nat.mul_lt_mul_of_pos_right ((Nat.le_div_iff_mul_le (by decide)).mpr hx.2) (by decide)

theorem addRegions_complete (todo : List MemoryArea) (hne : ∀ r ∈ reserved, r.1 < r.2)
    (hround : ∀ r ∈ reserved, r.2 + PAGE_SIZE < Word.modulus) :
    ∀ (done : List MemoryArea) {b : BuddyAllocator} {L : Nat → List Nat}, Inv b L →
      Tagged reserved done b → DisjointPages (done ++ todo) →
      (∀ a ∈ todo, a.startAddress.toNat + PAGE_SIZE < Word.modulus ∧
        Covers b.metadata.length (alignDown a.endAddress.toNat PAGE_SIZE)) →
      ∃ b', addRegions todo reserved b = some b' ∧
        ∀ a ∈ todo, ∀ x, a.HasPage x → x < b.metadata.length → Clear reserved x →
          (b'.tag x).isSome = true := by
  induction todo with
  | nil => exact fun done b L _ _ _ _ => ⟨b, rfl, fun a ha => absurd ha List.not_mem_nil⟩
  | cons a todo ih =>
    intro done b L hI htagged hdis hareas
    rw [List.append_cons] at hdis
    have hdis₁ := (List.pairwise_append.mp hdis).1
    obtain ⟨hstart, hcovers⟩ := hareas a List.mem_cons_self
    obtain ⟨b₁, hadd, hall₁⟩ :=
      addRegion_complete hne hround hI htagged hdis₁ hstart hcovers
    obtain ⟨L₁, hI₁, hlen₁, htagged₁, _⟩ := addRegion_spec hI htagged hdis₁ hadd
    obtain ⟨b', he, hall⟩ := ih (done ++ [a]) hI₁ htagged₁ hdis fun a' ha' => by
      rw [hlen₁]
      exact hareas a' (List.mem_cons_of_mem a ha')
    refine ⟨b', by rw [addRegions_cons, hadd]; exact he, fun a' ha' x hx hlen hclear => ?_⟩
    rcases List.mem_cons.mp ha' with rfl | ha'
    · -- what the first area got stays
      obtain ⟨_, _, _, _, hkeep⟩ := addRegions_spec (done ++ [a']) hI₁ htagged₁ hdis he
      exact hkeep x (hall₁ x hx hlen hclear)
    · exact hall a' ha' x hx (by rw [hlen₁]; exact hlen) hclear

/-- The number of pages that `kernel_main` keeps metadata for. -/
def kernelPages (memMap : List MemoryArea) : Nat :=
  let maxPhys := (memMap.map fun a => a.endAddress.toNat).max?.getD 0
  min ((maxPhys + (PAGE_SIZE - 1)) / PAGE_SIZE) MAX_SUPPORTED_PAGES

theorem kernelPages_covers {memMap : List MemoryArea} {a : MemoryArea} (ha : a ∈ memMap) :
    Covers (kernelPages memMap) (alignDown a.endAddress.toNat PAGE_SIZE) := by
  have hmax : a.endAddress.toNat ≤ (memMap.map fun a => a.endAddress.toNat).max?.getD 0 :=
    List.le_max?_getD_of_mem (List.mem_map_of_mem ha)
  have hdown := alignDown_le a
  unfold kernelPages
  dsimp only
  rcases Nat.le_total (((memMap.map fun a => a.endAddress.toNat).max?.getD 0 + (PAGE_SIZE - 1)) /
    PAGE_SIZE) MAX_SUPPORTED_PAGES with hle | hle
  · rw [Nat.min_eq_left hle]
    refine Or.inl ?_
    unfold PAGE_SIZE at *
    omega
  · rw [Nat.min_eq_right hle]
    exact Or.inr (by decide)

end BuddyAllocator

end Zeronix
