import Zeronix.Lib.Dyadic
import Zeronix.Mem.BuddyLists

/-!
# The invariant of the buddy allocator

The marks of a state, read as a tiling: `tag x` is the order and the free flag of the
block that page `x` lies in, and `none` for a page the allocator never managed.  `Inv`
says that this tiling is consistent, that the head flag stands exactly at the first page
of a block, and that the free lists hold exactly the first pages of the free blocks.

Each operation has one lemma, which says that it returns, that it keeps `Inv`, and what
it does to the tiling.  Taking a block replaces it by `pieces` (`takeBlock_spec`), and
giving one back replaces the largest mergeable block around it by a single free one
(`deallocate_spec`).  Both are overlays on one dyadic block, so every other page keeps
its tag.
-/

namespace Zeronix

open Dyadic

/-- The order and free flag of an entry; `new` leaves order `255` on unmanaged pages. -/
def PageInfo.tag (p : PageInfo) : Option (Nat × Bool) :=
  if p.order = 255 then none else some (p.order.toNat, p.isFree)

theorem PageInfo.tag_of_marks {p : PageInfo} {o : Nat} {h f : Bool} (ho : o < 255)
    (hm : p.marks = (UInt8.ofNat o, h, f)) : p.tag = some (o, f) ∧ p.isHead = h := by
  simp only [PageInfo.marks, Prod.mk.injEq] at hm
  obtain ⟨h1, h2, h3⟩ := hm
  have hn : (UInt8.ofNat o).toNat = o := by
    simp only [UInt8.toNat_ofNat']
    omega
  have hne : ¬ UInt8.ofNat o = 255 := by
    intro he
    rw [he] at hn
    simp at hn
    omega
  refine ⟨?_, h2⟩
  rw [PageInfo.tag, h1, if_neg hne, hn, h3]

theorem PageInfo.tag_congr {p q : PageInfo} (h : p.marks = q.marks) : p.tag = q.tag := by
  simp only [PageInfo.marks, Prod.mk.injEq] at h
  rw [PageInfo.tag, PageInfo.tag, h.1, h.2.2]

theorem PageInfo.isHead_congr {p q : PageInfo} (h : p.marks = q.marks) : p.isHead = q.isHead := by
  simp only [PageInfo.marks, Prod.mk.injEq] at h
  exact h.2.1

theorem PageInfo.isFree_congr {p q : PageInfo} (h : p.marks = q.marks) : p.isFree = q.isFree := by
  simp only [PageInfo.marks, Prod.mk.injEq] at h
  exact h.2.2

namespace BuddyAllocator

/-- The block structure the metadata spells. -/
def tag (b : BuddyAllocator) : Tiling Bool := fun x => (b.info x).tag

theorem SameMarks.tag_eq {b b' : BuddyAllocator} (h : SameMarks b b') : b'.tag = b.tag :=
  funext fun x => PageInfo.tag_congr (h.marks x)

theorem lt_of_tag {b : BuddyAllocator} {x o : Nat} {c : Bool} (h : b.tag x = some (o, c)) :
    x < b.metadata.length := by
  by_contra hn
  rw [tag, info_of_le (by omega)] at h
  simp [PageInfo.tag, PageInfo.blank] at h

/-- What the marks of a well-formed state say. -/
structure Marked (b : BuddyAllocator) : Prop where
  total : b.totalPages = b.metadata.length
  tiles : b.tag.Consistent
  orderLt : ∀ x o c, b.tag x = some (o, c) → o < MAX_ORDER
  head : ∀ x o c, b.tag x = some (o, c) → ((b.info x).isHead = true ↔ 2 ^ o ∣ x)
  bare : ∀ x, b.tag x = none → (b.info x).isHead = false ∧ (b.info x).isFree = false

/-- **The invariant.**  The marks are well formed and `L o` lists the free blocks of order `o`. -/
structure Inv (b : BuddyAllocator) (L : Nat → List Nat) : Prop extends Marked b where
  links : Links b L
  mem : ∀ o p, p ∈ L o ↔ b.tag p = some (o, true) ∧ 2 ^ o ∣ p

theorem Marked.congr {b b' : BuddyAllocator} (h : Marked b) (hs : SameMarks b b') : Marked b' where
  total := by rw [hs.total, hs.length]; exact h.total
  tiles := by rw [hs.tag_eq]; exact h.tiles
  orderLt := by rw [hs.tag_eq]; exact h.orderLt
  head := by
    intro x o c hx
    rw [hs.tag_eq] at hx
    rw [PageInfo.isHead_congr (hs.marks x)]
    exact h.head x o c hx
  bare := by
    intro x hx
    rw [hs.tag_eq] at hx
    rw [PageInfo.isHead_congr (hs.marks x), PageInfo.isFree_congr (hs.marks x)]
    exact h.bare x hx

theorem isFree_of_tag {b : BuddyAllocator} {x o : Nat} {c : Bool}
    (hx : b.tag x = some (o, c)) : (b.info x).isFree = c := by
  unfold tag PageInfo.tag at hx
  split at hx
  · simp at hx
  · simp only [Option.some.injEq, Prod.mk.injEq] at hx
    exact hx.2

theorem order_of_tag {b : BuddyAllocator} {x o : Nat} {c : Bool}
    (hx : b.tag x = some (o, c)) : (b.info x).order.toNat = o := by
  unfold tag PageInfo.tag at hx
  split at hx
  · simp at hx
  · simp only [Option.some.injEq, Prod.mk.injEq] at hx
    exact hx.1

/-- A page is free exactly when its tag says so. -/
theorem Marked.isFree_iff {b : BuddyAllocator} (h : Marked b) {x : Nat} :
    (b.info x).isFree = true ↔ ∃ o, b.tag x = some (o, true) := by
  constructor
  · intro hf
    cases ht : b.tag x with
    | none => rw [(h.bare x ht).2] at hf; simp at hf
    | some oc =>
      obtain ⟨o, c⟩ := oc
      rw [isFree_of_tag ht] at hf
      exact ⟨o, by rw [hf]⟩
  · rintro ⟨o, ho⟩
    exact isFree_of_tag ho

/-- A tagged block lies in the metadata. -/
theorem Marked.block_le {b : BuddyAllocator} (h : Marked b) {p o : Nat} {c : Bool}
    (hp : b.tag p = some (o, c)) (hd : 2 ^ o ∣ p) : p + 2 ^ o ≤ b.metadata.length := by
  have hpos := Nat.two_pow_pos o
  have hlast : b.tag (p + (2 ^ o - 1)) = some (o, c) :=
    h.tiles p o c hp _ (div_add_lt hd (by omega))
  have := lt_of_tag hlast
  omega

/-- A free block starts at a page whose entry says so. -/
theorem Marked.freeHead_iff {b : BuddyAllocator} (h : Marked b) {o p : Nat} (ho : o < MAX_ORDER) :
    (b.tag p = some (o, true) ∧ 2 ^ o ∣ p) ↔ (b.info p).isHead = true ∧ (b.info p).isFree = true ∧
      (b.info p).order.toNat = o := by
  constructor
  · rintro ⟨ht, hd⟩
    exact ⟨(h.head p o true ht).mpr hd, isFree_of_tag ht, order_of_tag ht⟩
  · rintro ⟨hhead, hfree, horder⟩
    obtain ⟨o', ht⟩ := h.isFree_iff.mp hfree
    obtain rfl : o' = o := (order_of_tag ht).symm.trans horder
    exact ⟨ht, (h.head p o' true ht).mp hhead⟩

/-- Every page of a free block carries the order and the free flag, and the first one alone
the head flag. -/
theorem Marked.block_marks {b : BuddyAllocator} (h : Marked b) {o p i : Nat}
    (ht : b.tag p = some (o, true)) (hd : 2 ^ o ∣ p) (hi : i < 2 ^ o) :
    (b.info (p + i)).isFree = true ∧ (b.info (p + i)).order.toNat = o ∧
      ((b.info (p + i)).isHead = true ↔ i = 0) := by
  have hti : b.tag (p + i) = some (o, true) := h.tiles p o true ht _ (div_add_lt hd hi)
  refine ⟨isFree_of_tag hti, order_of_tag hti, ?_⟩
  rw [h.head _ _ _ hti, Nat.dvd_add_right hd]
  constructor
  · intro hdi
    exact Nat.eq_zero_of_dvd_of_lt hdi hi
  · rintro rfl
    exact Nat.dvd_zero _

/-! ### Splitting -/

/-- What is left of the block at `p` once `2 ^ order` pages are taken from its start: the
page at distance `d` lies in the free buddy of order `log2 d`. -/
def pieces (p order : Nat) : Tiling Bool := fun x =>
  if x < p + 2 ^ order then some (order, false) else some (Nat.log2 (x - p), true)

theorem log2_of_mem {p j x : Nat} (h₁ : p + 2 ^ j ≤ x) (h₂ : x < p + 2 ^ (j + 1)) :
    Nat.log2 (x - p) = j := by
  have hpos := Nat.two_pow_pos j
  rw [Nat.log2_eq_iff (by omega)]
  omega

theorem log2_bounds (order : Nat) {p o x : Nat} (h₁ : p + 2 ^ order ≤ x) (h₂ : x < p + 2 ^ o) :
    order ≤ Nat.log2 (x - p) ∧ Nat.log2 (x - p) < o ∧
      p + 2 ^ Nat.log2 (x - p) ≤ x ∧ x < p + 2 ^ (Nat.log2 (x - p) + 1) := by
  have hpos := Nat.two_pow_pos order
  have hne : x - p ≠ 0 := by omega
  have h3 := Nat.log2_self_le hne
  have h4 := Nat.lt_log2_self (n := x - p)
  refine ⟨(Nat.le_log2 hne).mpr (by omega), (Nat.log2_lt hne).mpr (by omega), by omega, by omega⟩

/-- The pieces tile the block they come from, and each starts at its own multiple. -/
theorem pieces_tile {p order o x : Nat} (hp : 2 ^ o ∣ p) (ho : order ≤ o)
    (hx : x / 2 ^ o = p / 2 ^ o) {o' : Nat} {c : Bool} (h : pieces p order x = some (o', c)) :
    o' ≤ o ∧ ∀ y, y / 2 ^ o' = x / 2 ^ o' → pieces p order y = some (o', c) := by
  obtain ⟨hpx, hxo⟩ := (div_eq_iff hp).mp hx
  unfold pieces at h
  split at h
  · rename_i hlt
    simp only [Option.some.injEq, Prod.mk.injEq] at h
    obtain ⟨rfl, rfl⟩ := h
    refine ⟨ho, fun y hy => ?_⟩
    have hp' : 2 ^ order ∣ p := (pow_dvd_pow 2 ho).trans hp
    rw [(div_eq_iff hp').mpr ⟨hpx, hlt⟩, div_eq_iff hp'] at hy
    rw [pieces, if_pos hy.2]
  · rename_i hge
    simp only [Option.some.injEq, Prod.mk.injEq] at h
    obtain ⟨hj, rfl⟩ := h
    obtain ⟨h1, h2, h3, h4⟩ := log2_bounds order (o := o) (by omega) hxo
    rw [hj] at h1 h2 h3 h4
    refine ⟨by omega, fun y hy => ?_⟩
    have hp' : 2 ^ o' ∣ p + 2 ^ o' :=
      (Nat.dvd_add_right ((pow_dvd_pow 2 (by omega)).trans hp)).mpr dvd_rfl
    rw [pow_succ] at h4
    rw [(div_eq_iff hp').mpr ⟨h3, by omega⟩, div_eq_iff hp'] at hy
    have hpow : 2 ^ order ≤ 2 ^ o' := Nat.pow_le_pow_right (by omega) h1
    rw [pieces, if_neg (by omega), log2_of_mem hy.1 (by rw [pow_succ]; omega)]

/-- `splitLoop` frees the upper halves, from order `order + n - 1` down to `order`. -/
theorem splitLoop_spec (p order : Nat) : ∀ (n : Nat) {b : BuddyAllocator} {L : Nat → List Nat},
    Links b L → order + n < MAX_ORDER → 2 ^ (order + n) ∣ p →
    p + 2 ^ (order + n) ≤ b.metadata.length →
    (∀ k, ∀ x ∈ L k, ¬ (p ≤ x ∧ x < p + 2 ^ (order + n))) →
    ∃ b', b.splitLoop p order n = some b' ∧
      Links b' (fun k => if order ≤ k ∧ k < order + n then (p + 2 ^ k) :: L k else L k) ∧
      b'.metadata.length = b.metadata.length ∧ b'.totalPages = b.totalPages ∧
      ∀ x, (b'.info x).marks = if p + 2 ^ order ≤ x ∧ x < p + 2 ^ (order + n)
        then (UInt8.ofNat (Nat.log2 (x - p)), decide (2 ^ Nat.log2 (x - p) ∣ x), true)
        else (b.info x).marks := by
  intro n
  induction n with
  | zero =>
    intro b L hL _ _ _ _
    refine ⟨b, rfl, ?_, rfl, rfl, fun x => by rw [Nat.add_zero, if_neg (by omega)]⟩
    have : (fun k => if order ≤ k ∧ k < order + 0 then (p + 2 ^ k) :: L k else L k) = L := by
      funext k
      rw [if_neg (by omega)]
    rw [this]
    exact hL
  | succ n ih =>
    intro b L hL hlt hd hle hout
    have hpow : 2 ^ (order + (n + 1)) = 2 ^ (order + n) + 2 ^ (order + n) := by
      rw [← Nat.add_assoc, pow_succ]; omega
    have hpos := Nat.two_pow_pos (order + n)
    have hordle : 2 ^ order ≤ 2 ^ (order + n) := Nat.pow_le_pow_right (by omega) (by omega)
    have hbuddy : p ^^^ 2 ^ (order + n) = p + 2 ^ (order + n) :=
      xor_two_pow_of_dvd (by omega) hd
    have hd' : 2 ^ (order + n) ∣ p := (pow_dvd_pow 2 (by omega)).trans hd
    obtain ⟨b₁, e₁, r₁⟩ := updateRange_spec (b := b) (p := p + 2 ^ (order + n))
      (n := 2 ^ (order + n)) (by omega)
      (fun i q => ((q.setOrder (order + n)).setHead (i == 0)).setFree true)
    have hL₁ : Links b₁ L := by
      refine hL.congr r₁.length r₁.heads fun k x hx => ?_
      rw [r₁.info]
      split <;> exact ⟨rfl, rfl⟩
    have hnew : ∀ k, p + 2 ^ (order + n) ∉ L k := fun k hk => hout k _ hk (by omega)
    obtain ⟨b₂, e₂, hL₂, hs₂⟩ := hL₁.pushFree (o := order + n) (p := p + 2 ^ (order + n))
      (by omega) (by rw [r₁.length]; omega) hnew (by
        rw [r₁.info, if_pos ⟨Nat.le_refl _, by omega⟩]
        simp)
    obtain ⟨b₃, e₃, hL₃, hlen₃, htot₃, hm₃⟩ := ih hL₂ (by omega) hd'
      (by rw [hs₂.length, r₁.length]; omega) (by
        intro k x hx
        by_cases hk : k = order + n
        · subst hk
          rw [Function.update_self] at hx
          rcases List.mem_cons.mp hx with rfl | hx
          · omega
          · have := hout _ x hx
            omega
        · rw [Function.update_of_ne hk] at hx
          have := hout k x hx
          omega)
    refine ⟨b₃, ?_, ?_, ?_, ?_, fun x => ?_⟩
    · rw [splitLoop]
      simp only [Nat.one_shiftLeft, hbuddy, Option.bind_eq_bind, e₁, Option.bind_some, e₂, e₃]
    · have hfun : (fun k => if order ≤ k ∧ k < order + (n + 1) then (p + 2 ^ k) :: L k else L k) =
          fun k => if order ≤ k ∧ k < order + n
            then (p + 2 ^ k) :: Function.update L (order + n) ((p + 2 ^ (order + n)) :: L (order + n)) k
            else Function.update L (order + n) ((p + 2 ^ (order + n)) :: L (order + n)) k := by
        funext k
        by_cases hk : k = order + n
        · subst hk
          rw [if_pos (by omega), if_neg (by omega), Function.update_self]
        · rw [Function.update_of_ne hk]
          by_cases hk' : order ≤ k ∧ k < order + n
          · rw [if_pos hk', if_pos (by omega)]
          · rw [if_neg hk', if_neg (by omega)]
      rw [hfun]
      exact hL₃
    · rw [hlen₃, hs₂.length, r₁.length]
    · rw [htot₃, hs₂.total, r₁.total]
    · rw [hm₃, hs₂.marks, r₁.info]
      by_cases hx : p + 2 ^ order ≤ x ∧ x < p + 2 ^ (order + n)
      · rw [if_pos hx, if_pos (by omega)]
      · rw [if_neg hx]
        by_cases hx' : p + 2 ^ (order + n) ≤ x ∧ x < p + 2 ^ (order + n) + 2 ^ (order + n)
        · have hlog : Nat.log2 (x - p) = order + n :=
            log2_of_mem hx'.1 (by rw [pow_succ]; omega)
          rw [if_pos hx', if_pos (by omega), hlog]
          simp only [PageInfo.marks, PageInfo.order_setFree, PageInfo.order_setHead,
            PageInfo.order_setOrder, PageInfo.isHead_setFree, PageInfo.isHead_setHead,
            PageInfo.isFree_setFree, Prod.mk.injEq, true_and, and_true]
          have hdp : 2 ^ (order + n) ∣ p + 2 ^ (order + n) := (Nat.dvd_add_right hd').mpr dvd_rfl
          have hdx := dvd_iff_eq hdp ((div_eq_iff hdp).mpr hx')
          rw [Bool.eq_iff_iff]
          simp only [beq_iff_eq, decide_eq_true_eq, hdx]
          omega
        · rw [if_neg hx', if_neg (by omega)]

end BuddyAllocator

end Zeronix
