import Zeronix.Mem.BuddyInv

/-!
# Allocating and freeing keep the invariant

`takeBlock_spec` and `deallocate_spec` carry the two operations from one state of `Inv`
to the next; `allocateWhere_spec` adds the search.  Every one of them begins with
`Marked.overlay`: marks that are rewritten on one dyadic block, and tile it, are again
well formed.
-/

namespace Zeronix

open Dyadic

namespace BuddyAllocator

/-- **Rewriting the marks of one block.**  New marks that tile the block of order `o` at
`p`, which no old block crosses, leave the state well formed. -/
theorem Marked.overlay {b b' : BuddyAllocator} (hb : Marked b) {o p : Nat} {u : Tiling Bool}
    (ho : o < MAX_ORDER) (hlen : b'.metadata.length = b.metadata.length)
    (htot : b'.totalPages = b.totalPages)
    (hin : ∀ x, x / 2 ^ o = p / 2 ^ o → ∀ o' c, b.tag x = some (o', c) → o' ≤ o)
    (hu : ∀ x, x / 2 ^ o = p / 2 ^ o → ∀ o' c, u x = some (o', c) →
      o' ≤ o ∧ ∀ y, y / 2 ^ o' = x / 2 ^ o' → u y = some (o', c))
    (hmarksIn : ∀ x, x / 2 ^ o = p / 2 ^ o → ∃ o' c, u x = some (o', c) ∧
      (b'.info x).marks = (UInt8.ofNat o', decide (2 ^ o' ∣ x), c))
    (hmarksOut : ∀ x, ¬ x / 2 ^ o = p / 2 ^ o → (b'.info x).marks = (b.info x).marks) :
    Marked b' ∧ b'.tag = b.tag.overlay o p u := by
  have hinside : ∀ x, x / 2 ^ o = p / 2 ^ o → ∃ o' c, o' < MAX_ORDER ∧ u x = some (o', c) ∧
      b'.tag x = some (o', c) ∧ (b'.info x).isHead = decide (2 ^ o' ∣ x) := by
    intro x hx
    obtain ⟨o', c, hux, hm⟩ := hmarksIn x hx
    have ho' : o' < MAX_ORDER := lt_of_le_of_lt (hu x hx o' c hux).1 ho
    obtain ⟨h1, h2⟩ := PageInfo.tag_of_marks (show o' < 255 by unfold MAX_ORDER at ho'; omega) hm
    exact ⟨o', c, ho', hux, h1, h2⟩
  have htag : b'.tag = b.tag.overlay o p u := by
    funext x
    by_cases hx : x / 2 ^ o = p / 2 ^ o
    · obtain ⟨o', c, _, hux, ht, _⟩ := hinside x hx
      rw [Tiling.overlay_of_mem hx, ht, hux]
    · rw [Tiling.overlay_of_not_mem hx]
      exact PageInfo.tag_congr (hmarksOut x hx)
  refine ⟨⟨by rw [htot, hlen]; exact hb.total, ?_, ?_, ?_, ?_⟩, htag⟩
  · rw [htag]
    exact hb.tiles.overlay hin hu
  · intro x o' c hx
    by_cases hxp : x / 2 ^ o = p / 2 ^ o
    · obtain ⟨o'', c', ho'', _, ht, _⟩ := hinside x hxp
      rw [ht] at hx
      simp only [Option.some.injEq, Prod.mk.injEq] at hx
      omega
    · rw [htag, Tiling.overlay_of_not_mem hxp] at hx
      exact hb.orderLt x o' c hx
  · intro x o' c hx
    by_cases hxp : x / 2 ^ o = p / 2 ^ o
    · obtain ⟨o'', c', _, _, ht, hh⟩ := hinside x hxp
      rw [ht] at hx
      simp only [Option.some.injEq, Prod.mk.injEq] at hx
      rw [hh, hx.1, decide_eq_true_eq]
    · rw [htag, Tiling.overlay_of_not_mem hxp] at hx
      rw [PageInfo.isHead_congr (hmarksOut x hxp)]
      exact hb.head x o' c hx
  · intro x hx
    by_cases hxp : x / 2 ^ o = p / 2 ^ o
    · obtain ⟨o'', c', _, _, ht, _⟩ := hinside x hxp
      rw [ht] at hx
      simp at hx
    · rw [htag, Tiling.overlay_of_not_mem hxp] at hx
      rw [PageInfo.isHead_congr (hmarksOut x hxp), PageInfo.isFree_congr (hmarksOut x hxp)]
      exact hb.bare x hx

theorem Inv.eq_of_mem_block {b : BuddyAllocator} {L : Nat → List Nat} (h : Inv b L) {o p k x : Nat}
    (hp : b.tag p = some (o, true)) (hd : 2 ^ o ∣ p) (hx : x ∈ L k)
    (hin : x / 2 ^ o = p / 2 ^ o) : k = o ∧ x = p := by
  obtain ⟨htx, hdx⟩ := (h.mem k x).mp hx
  have := h.tiles p o true hp x hin
  rw [htx] at this
  simp only [Option.some.injEq, Prod.mk.injEq, and_true] at this
  subst this
  exact ⟨rfl, eq_of_dvd_of_div_eq hdx hd hin⟩

/-! ### Taking a block -/

theorem Inv.mem_erase {b : BuddyAllocator} {L : Nat → List Nat} (h : Inv b L) {o p : Nat}
    (hp : p ∈ L o) (k x : Nat) :
    x ∈ Function.update L o ((L o).erase p) k ↔ x ∈ L k ∧ ¬ x / 2 ^ o = p / 2 ^ o := by
  obtain ⟨htp, hd⟩ := (h.mem o p).mp hp
  rw [mem_update_erase (h.links.nodup o)]
  constructor
  · rintro ⟨hx, hne⟩
    exact ⟨hx, fun hin => hne (h.eq_of_mem_block htp hd hx hin)⟩
  · rintro ⟨hx, hout⟩
    exact ⟨hx, fun he => hout (by rw [he.2])⟩

theorem detach_spec {b : BuddyAllocator} {p : Nat} (hp : p < b.metadata.length) :
    ∃ b', ((b.modify p (·.setFree false)).bind fun b₁ =>
        (b₁.modify p (·.setNext none)).bind fun b₂ => b₂.modify p (·.setPrev none)) = some b' ∧
      b'.metadata.length = b.metadata.length ∧ b'.freeHeads = b.freeHeads ∧
      b'.totalPages = b.totalPages ∧ ∀ x, x ≠ p → b'.info x = b.info x := by
  obtain ⟨b₁, e₁, r₁⟩ := modify_spec hp (·.setFree false)
  obtain ⟨b₂, e₂, r₂⟩ := modify_spec (b := b₁) (by rw [r₁.length]; exact hp) (·.setNext none)
  have r := r₁.trans r₂
  obtain ⟨b₃, e₃, r₃⟩ := modify_spec (b := b₂) (by rw [r.length]; exact hp) (·.setPrev none)
  have r' := r.trans r₃
  refine ⟨b₃, by rw [e₁, Option.bind_some, e₂, Option.bind_some, e₃], r'.length, r'.heads, r'.total,
    fun x hx => ?_⟩
  rw [r'.info]
  simp only [hx, if_false]

theorem pieces_head {p order o k x : Nat} (hd : 2 ^ o ∣ p) (hx : x / 2 ^ o = p / 2 ^ o) :
    pieces p order x = some (k, true) ∧ 2 ^ k ∣ x ↔ (order ≤ k ∧ k < o) ∧ x = p + 2 ^ k := by
  obtain ⟨hpx, hxo⟩ := (div_eq_iff hd).mp hx
  have hdp : k < o → 2 ^ k ∣ p + 2 ^ k := fun hk =>
    (Nat.dvd_add_right ((pow_dvd_pow 2 hk.le).trans hd)).mpr dvd_rfl
  constructor
  · rintro ⟨ht, hdx⟩
    unfold pieces at ht
    split at ht
    · simp at ht
    · rename_i hge
      simp only [Option.some.injEq, Prod.mk.injEq, and_true] at ht
      obtain ⟨h1, h2, h3, h4⟩ := log2_bounds order (o := o) (p := p) (x := x) (by omega) hxo
      rw [ht] at h1 h2 h3 h4
      refine ⟨⟨h1, h2⟩, ?_⟩
      refine eq_of_dvd_of_div_eq hdx (hdp h2) ((div_eq_iff (hdp h2)).mpr ⟨h3, ?_⟩)
      rw [pow_succ] at h4
      omega
  · rintro ⟨⟨hk₁, hk₂⟩, rfl⟩
    have hkle : 2 ^ order ≤ 2 ^ k := Nat.pow_le_pow_right (by omega) hk₁
    have hkpos := Nat.two_pow_pos k
    refine ⟨?_, hdp hk₂⟩
    rw [pieces, if_neg (by omega), log2_of_mem (Nat.le_refl _) (by rw [pow_succ]; omega)]

theorem mem_halves {L : Nat → List Nat} {p order o k x : Nat} :
    x ∈ (if order ≤ k ∧ k < o then (p + 2 ^ k) :: L k else L k) ↔
      ((order ≤ k ∧ k < o) ∧ x = p + 2 ^ k) ∨ x ∈ L k := by
  by_cases hk : order ≤ k ∧ k < o
  · rw [if_pos hk, List.mem_cons]
    simp [hk]
  · rw [if_neg hk]
    simp [hk]

/-- **`takeBlock` replaces a free block by its pieces.** -/
theorem takeBlock_spec {b : BuddyAllocator} {L : Nat → List Nat} (h : Inv b L) {o p order : Nat}
    (hp : p ∈ L o) (hord : order ≤ o) :
    ∃ b' L', b.takeBlock p o order = some b' ∧ Inv b' L' ∧
      b'.metadata.length = b.metadata.length ∧
      b'.tag = b.tag.overlay o p (pieces p order) := by
  obtain ⟨htp, hd⟩ := (h.mem o p).mp hp
  have ho := h.orderLt p o true htp
  have hle := h.block_le htp hd
  have hpos := Nat.two_pow_pos o
  have hordle : 2 ^ order ≤ 2 ^ o := Nat.pow_le_pow_right (by omega) hord
  have hpos' := Nat.two_pow_pos order
  obtain ⟨b₁, e₁, hL₁, hs₁⟩ := h.links.removeFromFree hp
  have hmem₁ := h.mem_erase hp
  set L₁ := Function.update L o ((L o).erase p) with hL₁def
  obtain ⟨b₂, e₂, hlen₂, hheads₂, htot₂, hinfo₂⟩ := detach_spec (b := b₁) (p := p)
    (by rw [hs₁.length]; omega)
  have hL₂ : Links b₂ L₁ := by
    refine hL₁.congr hlen₂ hheads₂ fun k x hx => ?_
    have hxp : x ≠ p := fun he => ((hmem₁ k x).mp hx).2 (by rw [he])
    rw [hinfo₂ x hxp]
    exact ⟨rfl, rfl⟩
  rw [hs₁.length] at hlen₂
  have hoe : order + (o - order) = o := by omega
  obtain ⟨b₃, e₃, hL₃, hlen₃, htot₃, hm₃⟩ := splitLoop_spec p order (o - order)
    hL₂ (by omega) (by rw [hoe]; exact hd) (by rw [hoe, hlen₂]; exact hle) (by
      intro k x hx
      rw [hoe, ← div_eq_iff hd]
      exact ((hmem₁ k x).mp hx).2)
  rw [hoe] at hL₃ hm₃
  obtain ⟨b₄, e₄, r₄⟩ := updateRange_spec (b := b₃) (p := p) (n := 2 ^ order)
    (by rw [hlen₃, hlen₂]; omega)
    (fun i q => ((q.setOrder order).setFree false).setHead (i == 0))
  set L₄ := fun k => if order ≤ k ∧ k < o then (p + 2 ^ k) :: L₁ k else L₁ k with hL₄def
  have hL₄ : Links b₄ L₄ := by
    refine hL₃.congr r₄.length r₄.heads fun k x hx => ?_
    rw [r₄.info]
    split <;> exact ⟨rfl, rfl⟩
  have hmarksIn : ∀ x, x / 2 ^ o = p / 2 ^ o → ∃ o' c, pieces p order x = some (o', c) ∧
      (b₄.info x).marks = (UInt8.ofNat o', decide (2 ^ o' ∣ x), c) := by
    intro x hx
    obtain ⟨hpx, hxo⟩ := (div_eq_iff hd).mp hx
    rw [r₄.info]
    by_cases hx' : x < p + 2 ^ order
    · refine ⟨order, false, by rw [pieces, if_pos hx'], ?_⟩
      rw [if_pos ⟨hpx, hx'⟩]
      have hd' : 2 ^ order ∣ p := (pow_dvd_pow 2 hord).trans hd
      have hdx := dvd_iff_eq hd' ((div_eq_iff hd').mpr ⟨hpx, hx'⟩)
      simp only [PageInfo.marks, PageInfo.order_setFree, PageInfo.order_setHead,
        PageInfo.order_setOrder, PageInfo.isHead_setHead, PageInfo.isFree_setHead,
        PageInfo.isFree_setFree, Prod.mk.injEq, true_and, and_true]
      rw [Bool.eq_iff_iff, beq_iff_eq, decide_eq_true_eq, hdx]
      omega
    · refine ⟨Nat.log2 (x - p), true, by rw [pieces, if_neg hx'], ?_⟩
      rw [if_neg (by omega), hm₃, if_pos (by omega)]
  have hmarksOut : ∀ x, ¬ x / 2 ^ o = p / 2 ^ o → (b₄.info x).marks = (b.info x).marks := by
    intro x hx
    rw [div_eq_iff hd] at hx
    rw [r₄.info, if_neg (by omega), hm₃, if_neg (by omega), hinfo₂ x (by omega), hs₁.marks]
  have hlen₄ : b₄.metadata.length = b.metadata.length := by rw [r₄.length, hlen₃, hlen₂]
  obtain ⟨hmk, htag⟩ := h.toMarked.overlay (u := pieces p order) ho hlen₄
    (by rw [r₄.total, htot₃, htot₂, hs₁.total])
    (fun x hx o' c hx' => by
      rw [h.tiles p o true htp x hx] at hx'
      simp only [Option.some.injEq, Prod.mk.injEq] at hx'
      omega)
    (fun x hx o' c => pieces_tile hd hord hx) hmarksIn hmarksOut
  refine ⟨b₄, L₄, ?_, ⟨hmk, hL₄, fun k x => ?_⟩, hlen₄, htag⟩
  · rw [takeBlock]
    simp only [Option.bind_eq_bind, Option.bind_eq_some_iff] at e₂ ⊢
    obtain ⟨c₁, f₁, c₂, f₂, f₃⟩ := e₂
    exact ⟨b₁, e₁, c₁, f₁, c₂, f₂, b₂, f₃, b₃, e₃, by rw [Nat.one_shiftLeft]; exact e₄⟩
  · rw [htag, hL₄def]
    simp only [mem_halves]
    by_cases hx : x / 2 ^ o = p / 2 ^ o
    · -- inside the block the free pages that start a block are the upper halves
      have hnot : x ∉ L₁ k := fun hm => ((hmem₁ k x).mp hm).2 hx
      rw [Tiling.overlay_of_mem hx, pieces_head hd hx]
      exact ⟨fun hm => hm.resolve_right hnot, Or.inl⟩
    · have hhalf : ¬ ((order ≤ k ∧ k < o) ∧ x = p + 2 ^ k) := by
        rintro ⟨⟨_, hk⟩, rfl⟩
        rw [div_eq_iff hd] at hx
        have hpow : 2 ^ k < 2 ^ o := Nat.pow_lt_pow_right (by omega) hk
        have hkpos := Nat.two_pow_pos k
        omega
      rw [Tiling.overlay_of_not_mem hx, ← h.mem k x, hmem₁]
      exact ⟨fun hm => (hm.resolve_left hhalf).1, fun hm => Or.inr ⟨hm, hx⟩⟩

/-- **`allocate_where` returns.**  It fails only when no listed block of a large enough
order satisfies `pred`, and otherwise takes the first `2 ^ order` pages of one that does. -/
theorem allocateWhere_spec {b : BuddyAllocator} {L : Nat → List Nat} (h : Inv b L) (order : Nat)
    (pred : Nat → Bool) :
    (b.allocateWhere order pred = some (none, b) ∧
      (order < MAX_ORDER → ∀ o, order ≤ o → ∀ p ∈ L o, pred p = false)) ∨
    ∃ o p b' L', b.allocateWhere order pred = some (some (p * PAGE_SIZE), b') ∧
      order ≤ o ∧ p ∈ L o ∧ pred p = true ∧ Inv b' L' ∧
      b'.metadata.length = b.metadata.length ∧
      b'.tag = b.tag.overlay o p (pieces p order) := by
  -- the orders not yet tried are `MAX_ORDER - n` and up
  have search : ∀ n, n ≤ MAX_ORDER → order ≤ MAX_ORDER - n →
      (b.allocateFrom order pred n = some (none, b) ∧
        ∀ o, MAX_ORDER - n ≤ o → ∀ p ∈ L o, pred p = false) ∨
      ∃ o p b' L', b.allocateFrom order pred n = some (some (p * PAGE_SIZE), b') ∧
        order ≤ o ∧ p ∈ L o ∧ pred p = true ∧ Inv b' L' ∧
        b'.metadata.length = b.metadata.length ∧
        b'.tag = b.tag.overlay o p (pieces p order) := by
    intro n
    induction n with
    | zero =>
      intro _ _
      refine Or.inl ⟨rfl, fun o ho p hp => ?_⟩
      rw [h.links.top o ho] at hp
      simp at hp
    | succ n ih =>
      intro hn hord
      have hfind := h.links.findFree h.total (o := MAX_ORDER - (n + 1)) (by omega) pred
      rw [allocateFrom]
      simp only [Option.bind_eq_bind, hfind, Option.bind_some]
      cases hf : (L (MAX_ORDER - (n + 1))).find? pred with
      | none =>
        rcases ih (by omega) (by omega) with ⟨he, hnone⟩ | hsome
        · refine Or.inl ⟨he, fun o ho p hp => ?_⟩
          rcases Nat.lt_or_ge o (MAX_ORDER - n) with hlt | hge
          · obtain rfl : o = MAX_ORDER - (n + 1) := by omega
            simpa using List.find?_eq_none.mp hf p hp
          · exact hnone o hge p hp
        · exact Or.inr hsome
      | some p =>
        have hmem := List.mem_of_find?_eq_some hf
        obtain ⟨b', L', e, hI, hlen, htag⟩ := takeBlock_spec h hmem hord
        refine Or.inr ⟨_, p, b', L', ?_, hord, hmem, List.find?_some hf, hI, hlen, htag⟩
        simp only [e, Option.bind_some]
        rfl
  unfold allocateWhere
  split
  · rename_i hge
    exact Or.inl ⟨rfl, fun hlt => absurd hlt (by omega)⟩
  · rename_i hlt
    rcases search (MAX_ORDER - order) (by omega) (by omega) with ⟨he, hnone⟩ | hsome
    · exact Or.inl ⟨he, fun _ o ho p hp => hnone o (by omega) p hp⟩
    · exact Or.inr hsome

/-! ### Giving a block back -/

/-- The state inside the merging loop: the block of order `order` at `cur` is in hand, so
its pages are off the lists, and no block of the tiling crosses its border. -/
structure Holding (b : BuddyAllocator) (L : Nat → List Nat) (cur order : Nat) : Prop where
  links : Links b L
  dvd : 2 ^ order ∣ cur
  orderLt : order < MAX_ORDER
  le : cur + 2 ^ order ≤ b.metadata.length
  inside : ∀ x, x / 2 ^ order = cur / 2 ^ order → ∀ o c, b.tag x = some (o, c) → o ≤ order
  mem : ∀ k p, p ∈ L k ↔ b.tag p = some (k, true) ∧ 2 ^ k ∣ p ∧ ¬ p / 2 ^ order = cur / 2 ^ order

theorem Holding.merge {b : BuddyAllocator} {L : Nat → List Nat} {cur order : Nat}
    (h : Holding b L cur order) (hb : Marked b) (hlt : order + 1 < MAX_ORDER)
    (hbud : b.tag (cur ^^^ 2 ^ order) = some (order, true)) :
    ∃ b' L', b.removeFromFree (cur ^^^ 2 ^ order) order = some b' ∧ SameMarks b b' ∧
      Holding b' L' (min cur (cur ^^^ 2 ^ order)) (order + 1) := by
  have hdq : 2 ^ order ∣ cur ^^^ 2 ^ order := dvd_xor_two_pow h.dvd
  have hqdiv : (cur ^^^ 2 ^ order) / 2 ^ order = cur / 2 ^ order ^^^ 1 := xor_two_pow_div h.dvd
  have hcur : min cur (cur ^^^ 2 ^ order) / 2 ^ (order + 1) = cur / 2 ^ (order + 1) := by
    rw [min_xor_two_pow h.dvd, blockStart_div]
  have hne : ¬ (cur ^^^ 2 ^ order) / 2 ^ order = cur / 2 ^ order := by
    rw [hqdiv]
    rcases xor_one_cases (cur / 2 ^ order) with ⟨_, he⟩ | ⟨_, he⟩
    · omega
    · omega
  have hqmem : cur ^^^ 2 ^ order ∈ L order := (h.mem order _).mpr ⟨hbud, hdq, hne⟩
  obtain ⟨b', e, hL', hs⟩ := h.links.removeFromFree hqmem
  refine ⟨b', _, e, hs, ⟨hL', ?_, hlt, ?_, ?_, ?_⟩⟩
  · rw [min_xor_two_pow h.dvd]
    exact dvd_blockStart (order + 1) cur
  · have hle₁ := h.le
    have hle₂ := hb.block_le hbud hdq
    have hbuddies := xor_two_pow_cases h.dvd
    rw [hs.length, pow_succ]
    omega
  · intro x hx o c hxo
    rw [hcur, div_succ_eq_iff] at hx
    rw [hs.tag_eq] at hxo
    rcases hx with hx | hx
    · have := h.inside x hx o c hxo
      omega
    · rw [hb.tiles _ order true hbud x (hx.trans hqdiv.symm)] at hxo
      simp only [Option.some.injEq, Prod.mk.injEq] at hxo
      omega
  · intro k p
    rw [hs.tag_eq, hcur, div_succ_eq_iff, ← hqdiv]
    rw [mem_update_erase (h.links.nodup order), h.mem k p]
    constructor
    · rintro ⟨⟨ht, hd, hout⟩, hnq⟩
      refine ⟨ht, hd, fun hin => hin.elim hout fun hin => hnq ?_⟩
      -- a free page that starts a block inside the buddy is the buddy itself
      have hpt := hb.tiles _ order true hbud p hin
      rw [ht] at hpt
      simp only [Option.some.injEq, Prod.mk.injEq, and_true] at hpt
      subst hpt
      exact ⟨rfl, eq_of_dvd_of_div_eq hd hdq hin⟩
    · rintro ⟨ht, hd, hout⟩
      refine ⟨⟨ht, hd, fun hin => hout (Or.inl hin)⟩, fun hn => hout (Or.inr ?_)⟩
      rw [hn.2]

/-- **The merging loop** ends with a block that contains the one it started with, whose
other pages were free, and whose buddy is no free block of the same order. -/
theorem mergeLoop_spec : ∀ (fuel : Nat) {b : BuddyAllocator} {L : Nat → List Nat} {cur order : Nat},
    Marked b → Holding b L cur order → MAX_ORDER ≤ order + fuel → 0 < fuel →
    ∃ b' L' cur' order', mergeLoop fuel b cur order = some (b', cur', order') ∧
      SameMarks b b' ∧ Holding b' L' cur' order' ∧ order ≤ order' ∧
      cur / 2 ^ order' = cur' / 2 ^ order' ∧
      (∀ x, x / 2 ^ order' = cur' / 2 ^ order' →
        x / 2 ^ order = cur / 2 ^ order ∨ ∃ o, b.tag x = some (o, true)) ∧
      (order' + 1 < MAX_ORDER → ∀ y, y / 2 ^ order' = cur' / 2 ^ order' ^^^ 1 →
        b.tag y ≠ some (order', true)) := by
  intro fuel
  induction fuel with
  | zero => intro _ _ _ _ _ _ _ h; omega
  | succ fuel ih =>
    intro b L cur order hb hh hfuel _
    have hself : ∀ x, x / 2 ^ order = cur / 2 ^ order →
        x / 2 ^ order = cur / 2 ^ order ∨ ∃ o, b.tag x = some (o, true) := fun x hx => Or.inl hx
    have hrefl : SameMarks b b := ⟨rfl, rfl, fun _ => rfl⟩
    -- the first page of the buddy speaks for all of its pages
    have hstop : b.tag (cur ^^^ 2 ^ order) ≠ some (order, true) →
        ∀ y, y / 2 ^ order = cur / 2 ^ order ^^^ 1 → b.tag y ≠ some (order, true) := by
      intro hn y hy hty
      refine hn (hb.tiles y order true hty _ ?_)
      rw [xor_two_pow_div hh.dvd, hy]
    rw [mergeLoop]
    simp only [Nat.one_shiftLeft]
    split
    · rename_i hge
      exact ⟨b, L, cur, order, rfl, hrefl, hh, Nat.le_refl _, rfl, hself, fun hlt => by omega⟩
    rename_i hlt
    split
    · rename_i hge
      refine ⟨b, L, cur, order, rfl, hrefl, hh, Nat.le_refl _, rfl, hself, fun _ => hstop ?_⟩
      intro ht
      have := lt_of_tag ht
      rw [hb.total] at hge
      omega
    rename_i hin
    rw [hb.total] at hin
    rw [getElem?_eq_info (by omega)]
    simp only [Option.bind_eq_bind, Option.bind_some]
    split
    · rename_i hcond
      refine ⟨b, L, cur, order, rfl, hrefl, hh, Nat.le_refl _, rfl, hself, fun _ => hstop ?_⟩
      intro ht
      have hf := isFree_of_tag ht
      have ho := order_of_tag ht
      have hd := (hb.head _ order true ht).mpr (dvd_xor_two_pow hh.dvd)
      simp [hf, ho, hd] at hcond
    · rename_i hcond
      simp only [Bool.or_eq_true, Bool.not_eq_true', bne_iff_ne, ne_eq, not_or,
        Bool.not_eq_false, Decidable.not_not] at hcond
      obtain ⟨⟨hfree, hord⟩, _⟩ := hcond
      have ht : b.tag (cur ^^^ 2 ^ order) = some (order, true) := by
        obtain ⟨o, ho⟩ := hb.isFree_iff.mp hfree
        rw [ho, ← hord, order_of_tag ho]
      obtain ⟨b₁, L₁, e₁, hs₁, hh₁⟩ := hh.merge hb (by omega) ht
      obtain ⟨b₂, L₂, cur₂, order₂, e₂, hs₂, hh₂, hle, hdiv, hold, hmax⟩ :=
        ih (hb.congr hs₁) hh₁ (by omega) (by omega)
      have hcur : min cur (cur ^^^ 2 ^ order) / 2 ^ (order + 1) = cur / 2 ^ (order + 1) := by
        rw [min_xor_two_pow hh.dvd, blockStart_div]
      rw [hs₁.tag_eq] at hold hmax
      refine ⟨b₂, L₂, cur₂, order₂, by rw [e₁]; exact e₂, hs₁.trans hs₂, hh₂, by omega, ?_, ?_,
        hmax⟩
      · rw [← hdiv]
        exact (div_eq_of_le hle hcur).symm
      · intro x hx
        rcases hold x hx with hx' | hx'
        · rw [hcur, div_succ_eq_iff] at hx'
          rcases hx' with hx' | hx'
          · exact Or.inl hx'
          · refine Or.inr ⟨order, hb.tiles _ order true ht x ?_⟩
            rw [hx', xor_two_pow_div hh.dvd]
        · exact Or.inr hx'

/-- **The block in hand becomes one free block.**  `f` stands for the marking loop, which
may also clear the links of the block's own pages. -/
theorem Holding.free {b : BuddyAllocator} {L : Nat → List Nat} {cur k : Nat}
    (h : Holding b L cur k) (hb : Marked b) {f : Nat → PageInfo → PageInfo}
    (hf : ∀ i q, (f i q).marks = (UInt8.ofNat k, i == 0, true)) :
    ∃ b' L', (b.updateRange cur f (2 ^ k)).bind (·.pushFree cur k) = some b' ∧ Inv b' L' ∧
      b'.metadata.length = b.metadata.length ∧
      b'.tag = b.tag.overlay k cur (fun _ => some (k, true)) := by
  have hpos := Nat.two_pow_pos k
  have hle := h.le
  obtain ⟨b₁, e₁, r₁⟩ := updateRange_spec (b := b) (p := cur) (n := 2 ^ k) hle f
  have hin : ∀ x, x / 2 ^ k = cur / 2 ^ k → (b₁.info x).marks = (UInt8.ofNat k, x - cur == 0, true) := by
    intro x hx
    rw [r₁.info, if_pos ((div_eq_iff h.dvd).mp hx), hf]
  have hout : ∀ x, ¬ x / 2 ^ k = cur / 2 ^ k → b₁.info x = b.info x := by
    intro x hx
    rw [div_eq_iff h.dvd] at hx
    rw [r₁.info, if_neg hx]
  have hL₁ : Links b₁ L := by
    refine h.links.congr r₁.length r₁.heads fun j x hx => ?_
    rw [hout x ((h.mem j x).mp hx).2.2]
    exact ⟨rfl, rfl⟩
  have hnew : ∀ j, cur ∉ L j := fun j hm => ((h.mem j cur).mp hm).2.2 rfl
  obtain ⟨b₂, e₂, hL₂, hs₂⟩ := hL₁.pushFree (o := k) (p := cur) h.orderLt
    (by rw [r₁.length]; omega) hnew (by
      have hm := hin cur rfl
      simp only [PageInfo.marks, Prod.mk.injEq] at hm
      exact hm.2.2)
  have hlen : b₂.metadata.length = b.metadata.length := by rw [hs₂.length, r₁.length]
  obtain ⟨hmk, htag⟩ := hb.overlay (u := fun _ => some (k, true)) h.orderLt hlen
    (by rw [hs₂.total, r₁.total]) h.inside
    (fun x hx o' c hx' => by
      simp only [Option.some.injEq, Prod.mk.injEq] at hx'
      obtain ⟨rfl, rfl⟩ := hx'
      exact ⟨Nat.le_refl _, fun _ _ => rfl⟩)
    (fun x hx => by
      obtain ⟨h1, _⟩ := (div_eq_iff h.dvd).mp hx
      refine ⟨k, true, rfl, ?_⟩
      rw [hs₂.marks, hin x hx]
      simp only [Prod.mk.injEq, true_and, and_true]
      rw [Bool.eq_iff_iff, beq_iff_eq, decide_eq_true_eq, dvd_iff_eq h.dvd hx]
      omega)
    (fun x hx => by rw [hs₂.marks, hout x hx])
  refine ⟨b₂, _, by rw [e₁]; exact e₂, ⟨hmk, hL₂, fun j x => ?_⟩, hlen, htag⟩
  rw [htag, mem_update_cons]
  by_cases hx : x / 2 ^ k = cur / 2 ^ k
  · rw [Tiling.overlay_of_mem hx]
    have hnot : x ∉ L j := fun hm => ((h.mem j x).mp hm).2.2 hx
    simp only [Option.some.injEq, Prod.mk.injEq, and_true]
    constructor
    · intro hm
      obtain ⟨rfl, rfl⟩ := hm.resolve_right hnot
      exact ⟨rfl, h.dvd⟩
    · rintro ⟨rfl, hdx⟩
      exact Or.inl ⟨rfl, (dvd_iff_eq h.dvd hx).mp hdx⟩
  · rw [Tiling.overlay_of_not_mem hx, h.mem j x]
    have hxc : ¬ (j = k ∧ x = cur) := fun he => hx (by rw [he.2])
    exact ⟨fun hm => ⟨(hm.resolve_left hxc).1, (hm.resolve_left hxc).2.1⟩,
      fun hm => Or.inr ⟨hm.1, hm.2, hx⟩⟩

/-- **`deallocate` of a live block returns**, and replaces the largest mergeable block
around it by one free block. -/
theorem deallocate_spec {b : BuddyAllocator} {L : Nat → List Nat} (h : Inv b L) {p o : Nat}
    (hp : b.tag p = some (o, false)) (hd : 2 ^ o ∣ p) :
    ∃ b' L' cur k, b.deallocate (p * PAGE_SIZE) = some b' ∧ Inv b' L' ∧
      b'.metadata.length = b.metadata.length ∧ 2 ^ k ∣ cur ∧ o ≤ k ∧ k < MAX_ORDER ∧
      p / 2 ^ k = cur / 2 ^ k ∧
      b'.tag = b.tag.overlay k cur (fun _ => some (k, true)) ∧
      (∀ x, x / 2 ^ k = cur / 2 ^ k →
        x / 2 ^ o = p / 2 ^ o ∨ ∃ o', b.tag x = some (o', true)) ∧
      (k + 1 < MAX_ORDER → ∀ y, y / 2 ^ k = cur / 2 ^ k ^^^ 1 → b.tag y ≠ some (k, true)) := by
  have ho := h.orderLt p o false hp
  have hholding : Holding b L p o := by
    refine ⟨h.links, hd, ho, h.block_le hp hd, fun x hx o' c hx' => ?_, fun k x => ?_⟩
    · rw [h.tiles p o false hp x hx] at hx'
      simp only [Option.some.injEq, Prod.mk.injEq] at hx'
      omega
    · rw [h.mem k x]
      refine ⟨fun hm => ⟨hm.1, hm.2, fun hx => ?_⟩, fun hm => ⟨hm.1, hm.2.1⟩⟩
      have := h.tiles p o false hp x hx
      rw [hm.1] at this
      simp at this
  obtain ⟨b₁, L₁, cur, k, e₁, hs₁, hh₁, hok, hdiv, hold, hmax⟩ :=
    mergeLoop_spec MAX_ORDER h.toMarked hholding (by omega) (by decide)
  obtain ⟨b₂, L₂, e₂, hI, hlen, htag⟩ := hh₁.free (h.toMarked.congr hs₁)
    (f := fun i q => ((q.setOrder k).setFree true).setHead (i == 0))
    (fun i q => by simp [PageInfo.marks])
  rw [hs₁.tag_eq] at htag
  refine ⟨b₂, L₂, cur, k, ?_, hI, hlen.trans hs₁.length, hh₁.dvd, hok, hh₁.orderLt, hdiv, htag,
    hold, hmax⟩
  have hpfn : p * PAGE_SIZE / PAGE_SIZE = p := Nat.mul_div_cancel p (by decide)
  rw [deallocate, hpfn, getElem?_eq_info (lt_of_tag hp)]
  simp only [Option.bind_eq_bind, Option.bind_some, (h.head p o false hp).mpr hd,
    isFree_of_tag hp, order_of_tag hp, e₁, Nat.one_shiftLeft]
  exact e₂

end BuddyAllocator

end Zeronix
