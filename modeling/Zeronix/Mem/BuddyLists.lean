import Mathlib.Data.List.Perm.Subperm
import Zeronix.Lib.DList
import Zeronix.Mem.PageAlloc

/-!
# The free lists of the buddy allocator

Two views of a metadata entry do not disturb each other: its links, which the free lists
are threaded through, and its *marks*, the order and the two flags.  `Links b L` says
that `L o` is the list of order `o`, for every order at once.  `SameMarks` says that two
states agree on all marks.

`Links.pushFree` and `Links.removeFromFree` are the two list operations: they return,
they change the one list, and they keep the marks.  `updateRange_spec` is the other
half: a range of marks is rewritten and the links stay.
-/

namespace Zeronix

namespace PageInfo

theorem forall_uint8 {P : UInt8 → Prop} (h : ∀ n : Fin 256, P (UInt8.ofFin n)) (f : UInt8) :
    P f := by
  simpa using h f.toFin

@[simp] theorem isHead_setHead (p : PageInfo) (v : Bool) : (p.setHead v).isHead = v := by
  cases v <;> simp only [isHead, setHead] <;> generalize p.flags = f <;> revert f <;>
    apply forall_uint8 <;> decide +kernel

@[simp] theorem isFree_setHead (p : PageInfo) (v : Bool) : (p.setHead v).isFree = p.isFree := by
  cases v <;> simp only [isFree, setHead] <;> generalize p.flags = f <;> revert f <;>
    apply forall_uint8 <;> decide +kernel

@[simp] theorem isHead_setFree (p : PageInfo) (v : Bool) : (p.setFree v).isHead = p.isHead := by
  cases v <;> simp only [isHead, setFree] <;> generalize p.flags = f <;> revert f <;>
    apply forall_uint8 <;> decide +kernel

@[simp] theorem isFree_setFree (p : PageInfo) (v : Bool) : (p.setFree v).isFree = v := by
  cases v <;> simp only [isFree, setFree] <;> generalize p.flags = f <;> revert f <;>
    apply forall_uint8 <;> decide +kernel

@[simp] theorem isHead_setNext (p : PageInfo) (v : Option Nat) :
    (p.setNext v).isHead = p.isHead := rfl
@[simp] theorem isFree_setNext (p : PageInfo) (v : Option Nat) :
    (p.setNext v).isFree = p.isFree := rfl
@[simp] theorem isHead_setPrev (p : PageInfo) (v : Option Nat) :
    (p.setPrev v).isHead = p.isHead := rfl
@[simp] theorem isFree_setPrev (p : PageInfo) (v : Option Nat) :
    (p.setPrev v).isFree = p.isFree := rfl
@[simp] theorem isHead_setOrder (p : PageInfo) (o : Nat) : (p.setOrder o).isHead = p.isHead := rfl
@[simp] theorem isFree_setOrder (p : PageInfo) (o : Nat) : (p.setOrder o).isFree = p.isFree := rfl

@[simp] theorem order_setHead (p : PageInfo) (v : Bool) : (p.setHead v).order = p.order := rfl
@[simp] theorem order_setFree (p : PageInfo) (v : Bool) : (p.setFree v).order = p.order := rfl
@[simp] theorem order_setNext (p : PageInfo) (v : Option Nat) : (p.setNext v).order = p.order := rfl
@[simp] theorem order_setPrev (p : PageInfo) (v : Option Nat) : (p.setPrev v).order = p.order := rfl
@[simp] theorem order_setOrder (p : PageInfo) (o : Nat) :
    (p.setOrder o).order = UInt8.ofNat o := rfl

@[simp] theorem next?_setHead (p : PageInfo) (v : Bool) : (p.setHead v).next? = p.next? := rfl
@[simp] theorem next?_setFree (p : PageInfo) (v : Bool) : (p.setFree v).next? = p.next? := rfl
@[simp] theorem next?_setOrder (p : PageInfo) (o : Nat) : (p.setOrder o).next? = p.next? := rfl
@[simp] theorem next?_setPrev (p : PageInfo) (v : Option Nat) : (p.setPrev v).next? = p.next? := rfl
@[simp] theorem prev?_setHead (p : PageInfo) (v : Bool) : (p.setHead v).prev? = p.prev? := rfl
@[simp] theorem prev?_setFree (p : PageInfo) (v : Bool) : (p.setFree v).prev? = p.prev? := rfl
@[simp] theorem prev?_setOrder (p : PageInfo) (o : Nat) : (p.setOrder o).prev? = p.prev? := rfl
@[simp] theorem prev?_setNext (p : PageInfo) (v : Option Nat) : (p.setNext v).prev? = p.prev? := rfl

/-- A link field holds every page number that fits it next to the end mark. -/
theorem ofLink_toLink {v : Option Nat} (h : ∀ x, v = some x → x + 1 < 2 ^ 32) :
    ofLink (toLink v) = v := by
  cases v with
  | none => rfl
  | some x =>
    have hx := h x rfl
    have hn : (UInt32.ofNat (x + 1)).toNat = x + 1 := by
      simp only [UInt32.toNat_ofNat']
      omega
    have hne : UInt32.ofNat (x + 1) ≠ 0 := by
      intro h0
      rw [h0] at hn
      simp at hn
    have hle : (1 : UInt32) ≤ UInt32.ofNat (x + 1) := by
      rw [UInt32.le_iff_toNat_le, hn]
      simp
    rw [ofLink, toLink, NONE, if_neg hne, UInt32.toNat_sub_of_le _ _ hle, hn]
    rfl

theorem next?_setNext {p : PageInfo} {v : Option Nat} (h : ∀ x, v = some x → x + 1 < 2 ^ 32) :
    (p.setNext v).next? = v := ofLink_toLink h

theorem prev?_setPrev {p : PageInfo} {v : Option Nat} (h : ∀ x, v = some x → x + 1 < 2 ^ 32) :
    (p.setPrev v).prev? = v := ofLink_toLink h

/-- The order and the two flags of an entry. -/
def marks (p : PageInfo) : UInt8 × Bool × Bool := (p.order, p.isHead, p.isFree)

@[simp] theorem marks_setNext (p : PageInfo) (v : Option Nat) : (p.setNext v).marks = p.marks := rfl
@[simp] theorem marks_setPrev (p : PageInfo) (v : Option Nat) : (p.setPrev v).marks = p.marks := rfl

end PageInfo

namespace BuddyAllocator

/-- The metadata of a page; blank past the end. -/
def info (b : BuddyAllocator) (x : Nat) : PageInfo := b.metadata.getD x PageInfo.blank

theorem getElem?_eq_info {b : BuddyAllocator} {x : Nat} (h : x < b.metadata.length) :
    b.metadata[x]? = some (b.info x) := by
  simp [info, List.getElem?_eq_getElem h, List.getD_eq_getElem?_getD]

theorem info_of_le {b : BuddyAllocator} {x : Nat} (h : b.metadata.length ≤ x) :
    b.info x = PageInfo.blank := by
  simp [info, List.getD_eq_getElem?_getD, List.getElem?_eq_none h]

/-! ### Writing metadata -/

/-- `b'` is `b` with every metadata entry passed through `g`. -/
structure Rewrites (b b' : BuddyAllocator) (g : Nat → PageInfo → PageInfo) : Prop where
  length : b'.metadata.length = b.metadata.length
  heads : b'.freeHeads = b.freeHeads
  total : b'.totalPages = b.totalPages
  info : ∀ x, b'.info x = g x (b.info x)

theorem Rewrites.trans {b₁ b₂ b₃ : BuddyAllocator} {g g' : Nat → PageInfo → PageInfo}
    (h : Rewrites b₁ b₂ g) (h' : Rewrites b₂ b₃ g') :
    Rewrites b₁ b₃ (fun x q => g' x (g x q)) where
  length := h'.length.trans h.length
  heads := h'.heads.trans h.heads
  total := h'.total.trans h.total
  info x := by rw [h'.info, h.info]

theorem modify_spec {b : BuddyAllocator} {p : Nat} (hp : p < b.metadata.length)
    (f : PageInfo → PageInfo) :
    ∃ b', b.modify p f = some b' ∧ Rewrites b b' (fun x q => if x = p then f q else q) := by
  refine ⟨_, if_pos hp, by simp, rfl, rfl, fun x => ?_⟩
  simp only [info, List.getD_eq_getElem?_getD, List.getElem?_modify]
  by_cases hx : p = x
  · subst hx
    simp [List.getElem?_eq_getElem hp]
  · have hx' : ¬ x = p := fun h => hx h.symm
    simp [hx, hx']

theorem updateRange_spec {b : BuddyAllocator} {p n : Nat} (hp : p + n ≤ b.metadata.length)
    (f : Nat → PageInfo → PageInfo) :
    ∃ b', b.updateRange p f n = some b' ∧
      Rewrites b b' (fun x q => if p ≤ x ∧ x < p + n then f (x - p) q else q) := by
  induction n with
  | zero =>
    refine ⟨b, rfl, rfl, rfl, rfl, fun x => ?_⟩
    rw [if_neg (by omega)]
  | succ n ih =>
    obtain ⟨b₁, h₁, r₁⟩ := ih (by omega)
    obtain ⟨b₂, h₂, r₂⟩ := modify_spec (b := b₁) (p := p + n) (by rw [r₁.length]; omega) (f n)
    have r := r₁.trans r₂
    refine ⟨b₂, by rw [updateRange, h₁]; exact h₂, r.length, r.heads, r.total, fun x => ?_⟩
    rw [r.info]
    by_cases hx : x = p + n
    · subst hx
      rw [if_pos rfl, if_neg (by omega), if_pos (by omega), Nat.add_sub_cancel_left]
    · rw [if_neg hx]
      by_cases hin : p ≤ x ∧ x < p + n
      · rw [if_pos hin, if_pos (by omega)]
      · rw [if_neg hin, if_neg (by omega)]

/-- Two states of the same size that agree on every order and flag. -/
structure SameMarks (b b' : BuddyAllocator) : Prop where
  length : b'.metadata.length = b.metadata.length
  total : b'.totalPages = b.totalPages
  marks : ∀ x, (b'.info x).marks = (b.info x).marks

theorem SameMarks.trans {b₁ b₂ b₃ : BuddyAllocator} (h : SameMarks b₁ b₂) (h' : SameMarks b₂ b₃) :
    SameMarks b₁ b₃ :=
  ⟨h'.length.trans h.length, h'.total.trans h.total, fun x => (h'.marks x).trans (h.marks x)⟩

/-! ### The lists -/

/-- `L o` is the free list of order `o`, for every order. -/
structure Links (b : BuddyAllocator) (L : Nat → List Nat) : Prop where
  small : b.metadata.length < 2 ^ 32
  headsLength : b.freeHeads.length = MAX_ORDER
  heads : ∀ o, o < MAX_ORDER → b.freeHeads[o]? = some (L o).head?
  top : ∀ o, MAX_ORDER ≤ o → L o = []
  seg : ∀ o, DList.Seg (fun x => (b.info x).next?) (fun x => (b.info x).prev?) none (L o) none
  nodup : ∀ o, (L o).Nodup
  lt : ∀ o, ∀ p ∈ L o, p < b.metadata.length
  disjoint : ∀ o o' p, p ∈ L o → p ∈ L o' → o = o'

/-- The lists only depend on the heads and on the links of listed pages. -/
theorem Links.congr {b b' : BuddyAllocator} {L : Nat → List Nat} (h : Links b L)
    (hlen : b'.metadata.length = b.metadata.length) (hheads : b'.freeHeads = b.freeHeads)
    (hlink : ∀ o, ∀ x ∈ L o,
      (b'.info x).next? = (b.info x).next? ∧ (b'.info x).prev? = (b.info x).prev?) :
    Links b' L where
  small := by rw [hlen]; exact h.small
  headsLength := by rw [hheads]; exact h.headsLength
  heads := by rw [hheads]; exact h.heads
  top := h.top
  seg := fun o => (h.seg o).congr (fun x hx => (hlink o x hx).1) (fun x hx => (hlink o x hx).2)
  nodup := h.nodup
  lt := by rw [hlen]; exact h.lt
  disjoint := h.disjoint

theorem Links.order_lt {b : BuddyAllocator} {L : Nat → List Nat} (h : Links b L) {o p : Nat}
    (hp : p ∈ L o) : o < MAX_ORDER := by
  by_contra hn
  rw [h.top o (by omega)] at hp
  simp at hp

theorem setHead_eq {b : BuddyAllocator} {o : Nat} (h : o < b.freeHeads.length) (v : Option Nat) :
    b.setHead o v = some { b with freeHeads := b.freeHeads.set o v } := if_pos h

/-- `set_prev` on an optional page. -/
theorem setPrevAt_spec {b : BuddyAllocator} (node : Option Nat)
    (h : ∀ n, node = some n → n < b.metadata.length) (v : Option Nat) :
    ∃ b', b.setPrevAt node v = some b' ∧
      Rewrites b b' (fun x q => if node = some x then q.setPrev v else q) := by
  cases node with
  | none => exact ⟨b, rfl, rfl, rfl, rfl, fun x => by simp⟩
  | some n =>
    obtain ⟨b', e, r⟩ := modify_spec (h n rfl) (·.setPrev v)
    refine ⟨b', e, r.length, r.heads, r.total, fun x => ?_⟩
    rw [r.info]
    by_cases hx : x = n
    · subst hx; simp
    · rw [if_neg hx, if_neg]
      exact fun he => hx (Option.some.inj he).symm

/-- The list heads after one of them was written. -/
theorem heads_set {heads : List (Option Nat)} {L : Nat → List Nat} {o : Nat} {l : List Nat}
    (hlen : heads.length = MAX_ORDER) (h : ∀ k, k < MAX_ORDER → heads[k]? = some (L k).head?)
    (k : Nat) (hk : k < MAX_ORDER) :
    (heads.set o l.head?)[k]? = some (Function.update L o l k).head? := by
  rw [List.getElem?_set]
  by_cases hko : o = k
  · subst hko
    simp [hlen, hk]
  · rw [if_neg hko, h k hk, Function.update_of_ne (Ne.symm hko)]

/-- **One list is replaced by another**, whose pages are on no list of another order. -/
theorem Links.replace {b b' : BuddyAllocator} {L : Nat → List Nat} (h : Links b L) {o : Nat}
    {l : List Nat} (ho : o < MAX_ORDER) (hlen : b'.metadata.length = b.metadata.length)
    (hheads : b'.freeHeads = b.freeHeads.set o l.head?)
    (hother : ∀ k, k ≠ o → ∀ x ∈ L k, b'.info x = b.info x)
    (hseg : DList.Seg (fun x => (b'.info x).next?) (fun x => (b'.info x).prev?) none l none)
    (hnodup : l.Nodup) (hlt : ∀ x ∈ l, x < b.metadata.length)
    (hdisj : ∀ k, k ≠ o → ∀ x ∈ L k, x ∉ l) : Links b' (Function.update L o l) := by
  refine ⟨by rw [hlen]; exact h.small, ?_, fun k hk => ?_, fun k hk => ?_, fun k => ?_, fun k => ?_,
    fun k x hx => ?_, fun k k' x hx hx' => ?_⟩
  · rw [hheads, List.length_set, h.headsLength]
  · rw [hheads]
    exact heads_set h.headsLength h.heads k hk
  · rw [Function.update_of_ne (by omega)]
    exact h.top k hk
  · by_cases hk : k = o
    · subst hk
      rw [Function.update_self]
      exact hseg
    · rw [Function.update_of_ne hk]
      refine (h.seg k).congr (fun x hx => ?_) (fun x hx => ?_)
      · rw [hother k hk x hx]
      · rw [hother k hk x hx]
  · by_cases hk : k = o
    · subst hk
      rw [Function.update_self]
      exact hnodup
    · rw [Function.update_of_ne hk]
      exact h.nodup k
  · rw [hlen]
    by_cases hk : k = o
    · subst hk
      rw [Function.update_self] at hx
      exact hlt x hx
    · rw [Function.update_of_ne hk] at hx
      exact h.lt k x hx
  · by_cases hk : k = o
    · by_cases hk' : k' = o
      · rw [hk, hk']
      · subst hk
        rw [Function.update_self] at hx
        rw [Function.update_of_ne hk'] at hx'
        exact absurd hx (hdisj k' hk' x hx')
    · rw [Function.update_of_ne hk] at hx
      by_cases hk' : k' = o
      · subst hk'
        rw [Function.update_self] at hx'
        exact absurd hx' (hdisj k hk x hx)
      · rw [Function.update_of_ne hk'] at hx'
        exact h.disjoint k k' x hx hx'

/-- What is listed once a page was put on a list. -/
theorem mem_update_cons {L : Nat → List Nat} {o p k x : Nat} :
    x ∈ Function.update L o (p :: L o) k ↔ (k = o ∧ x = p) ∨ x ∈ L k := by
  by_cases hk : k = o
  · subst hk
    rw [Function.update_self, List.mem_cons]
    simp
  · rw [Function.update_of_ne hk]
    simp [hk]

/-- What is listed once a page was taken off a list. -/
theorem mem_update_erase {L : Nat → List Nat} {o p k x : Nat} (h : (L o).Nodup) :
    x ∈ Function.update L o ((L o).erase p) k ↔ x ∈ L k ∧ ¬ (k = o ∧ x = p) := by
  by_cases hk : k = o
  · subst hk
    rw [Function.update_self, h.mem_erase_iff]
    exact ⟨fun hm => ⟨hm.2, fun hn => hm.1 hn.2⟩, fun hm => ⟨fun he => hm.2 ⟨rfl, he⟩, hm.1⟩⟩
  · rw [Function.update_of_ne hk]
    exact ⟨fun hm => ⟨hm, fun hn => hk hn.1⟩, fun hm => hm.1⟩

/-- **`push_free` puts a block at the front of its list** and changes nothing else that
the allocator looks at. -/
theorem Links.pushFree {b : BuddyAllocator} {L : Nat → List Nat} (h : Links b L) {o p : Nat}
    (ho : o < MAX_ORDER) (hp : p < b.metadata.length) (hnew : ∀ k, p ∉ L k)
    (hfree : (b.info p).isFree = true) :
    ∃ b', b.pushFree p o = some b' ∧ Links b' (Function.update L o (p :: L o)) ∧
      SameMarks b b' := by
  have hhead := h.heads o ho
  have holdlt : ∀ y, (L o).head? = some y → y < b.metadata.length := fun y hy =>
    h.lt o y (List.mem_of_head? hy)
  have hsmall := h.small
  obtain ⟨b₁, e₁, r₁⟩ := modify_spec hp
    fun q => ((q.setFree true).setNext (L o).head?).setPrev none
  -- the old first block, if there is one, is linked back to the new one
  obtain ⟨b₂, e₂, r₂⟩ := setPrevAt_spec (b := b₁) (L o).head?
    (fun n hn => by rw [r₁.length]; exact holdlt n hn) (some p)
  have hheads₂ : b₂.freeHeads = b.freeHeads := r₂.heads.trans r₁.heads
  have hlen₂ : b₂.metadata.length = b.metadata.length := r₂.length.trans r₁.length
  let b₃ : BuddyAllocator := { b₂ with freeHeads := b₂.freeHeads.set o (some p) }
  have hinfo : ∀ x, b₃.info x = if (L o).head? = some x
      then (if x = p then ((((b.info x).setFree true).setNext (L o).head?).setPrev none)
        else b.info x).setPrev (some p)
      else if x = p then (((b.info x).setFree true).setNext (L o).head?).setPrev none
        else b.info x := by
    intro x
    show b₂.info x = _
    rw [r₂.info, r₁.info]
  have hphead : ¬ (L o).head? = some p := fun he => hnew o (List.mem_of_head? he)
  have hmarks : SameMarks b b₃ := by
    refine ⟨hlen₂, r₂.total.trans r₁.total, fun x => ?_⟩
    rw [hinfo]
    by_cases hx : x = p
    · subst hx
      rw [if_neg hphead, if_pos rfl]
      simp [PageInfo.marks, hfree]
    · simp only [hx, if_false]
      split <;> rfl
  refine ⟨b₃, ?_, ?_, hmarks⟩
  · rw [BuddyAllocator.pushFree, hhead]
    simp only [Option.bind_eq_bind, Option.bind_some, e₁, e₂]
    exact setHead_eq (by rw [hheads₂, h.headsLength]; exact ho) _
  · -- links of pages off the list of order `o` are untouched
    have hother : ∀ k, k ≠ o → ∀ x ∈ L k, b₃.info x = b.info x := by
      intro k hk x hx
      have hxp : ¬ x = p := fun he => hnew k (he ▸ hx)
      rw [hinfo, if_neg, if_neg hxp]
      exact fun he => hk (h.disjoint k o x hx (List.mem_of_head? he))
    refine h.replace ho hlen₂ ?_ hother ?_ (List.nodup_cons.mpr ⟨hnew o, h.nodup o⟩) ?_ ?_
    · show b₂.freeHeads.set o (some p) = _
      rw [hheads₂, List.head?_cons]
    · refine (h.seg o).push (h.nodup o) ?_ ?_ ?_ ?_
      · show (b₃.info p).next? = _
        rw [hinfo, if_neg hphead, if_pos rfl, PageInfo.next?_setPrev, PageInfo.next?_setNext]
        intro x hx
        have := holdlt x hx
        omega
      · show (b₃.info p).prev? = _
        rw [hinfo, if_neg hphead, if_pos rfl, PageInfo.prev?_setPrev (by simp)]
      · intro y hy
        show (b₃.info y).next? = _
        have hyp : ¬ y = p := fun he => hnew o (he ▸ hy)
        rw [hinfo]
        simp only [hyp, if_false]
        split <;> rfl
      · intro y hy
        show (b₃.info y).prev? = _
        have hyp : ¬ y = p := fun he => hnew o (he ▸ hy)
        rw [hinfo]
        simp only [hyp, if_false]
        split
        · refine PageInfo.prev?_setPrev ?_
          intro x hx
          obtain rfl := Option.some.inj hx
          omega
        · rfl
    · intro x hx
      rcases List.mem_cons.mp hx with rfl | hx
      · exact hp
      · exact h.lt o x hx
    · intro k hk x hx hm
      rcases List.mem_cons.mp hm with rfl | hm
      · exact hnew k hx
      · exact hk (h.disjoint k o x hx hm)

/-- `set_next` on an optional page, which writes the head of the list where there is no page. -/
theorem Links.setNextAt {b : BuddyAllocator} {L : Nat → List Nat} (h : Links b L) {o p : Nat}
    (ho : o < MAX_ORDER) {l₁ l₂ : List Nat} (hl : L o = l₁ ++ p :: l₂) :
    ∃ b', b.setNextAt l₁.getLast? o l₂.head? = some b' ∧
      b'.metadata.length = b.metadata.length ∧ b'.totalPages = b.totalPages ∧
      b'.freeHeads = b.freeHeads.set o (l₁ ++ l₂).head? ∧
      ∀ x, b'.info x = if l₁.getLast? = some x then (b.info x).setNext l₂.head? else b.info x := by
  cases hlast : l₁.getLast? with
  | none =>
    rw [List.getLast?_eq_none_iff] at hlast
    subst hlast
    refine ⟨_, setHead_eq (by rw [h.headsLength]; exact ho) _, rfl, rfl, rfl, fun x => ?_⟩
    simp [info]
  | some q =>
    have hq : q ∈ L o := by
      rw [hl]
      exact List.mem_append_left _ (List.mem_of_getLast? hlast)
    obtain ⟨b₁, e₁, r₁⟩ := modify_spec (h.lt o q hq) (·.setNext l₂.head?)
    refine ⟨b₁, e₁, r₁.length, r₁.total, ?_, fun x => ?_⟩
    · -- the list starts as before
      have hhead : (L o).head? = (l₁ ++ l₂).head? := by
        rw [hl]
        cases l₁ with
        | nil => simp at hlast
        | cons a l₁ => rfl
      rw [r₁.heads, ← hhead]
      refine List.ext_getElem? fun k => ?_
      rw [List.getElem?_set]
      by_cases hk : o = k
      · subst hk
        rw [if_pos rfl, h.headsLength, if_pos ho, h.heads o ho]
      · rw [if_neg hk]
    · rw [r₁.info]
      by_cases hx : x = q
      · subst hx; simp
      · rw [if_neg hx, if_neg]
        exact fun he => hx (Option.some.inj he).symm

/-- **`remove_from_free` takes a block out of its list** and changes nothing else that
the allocator looks at. -/
theorem Links.removeFromFree {b : BuddyAllocator} {L : Nat → List Nat} (h : Links b L) {o p : Nat}
    (hp : p ∈ L o) :
    ∃ b', b.removeFromFree p o = some b' ∧ Links b' (Function.update L o ((L o).erase p)) ∧
      SameMarks b b' := by
  have ho := h.order_lt hp
  obtain ⟨l₁, l₂, hl⟩ := List.append_of_mem hp
  have hnd := h.nodup o
  have hseg := h.seg o
  rw [hl] at hnd hseg
  have hnd' := List.nodup_append.mp hnd
  have hp₁ : p ∉ l₁ := fun hm => hnd'.2.2 p hm p (by simp) rfl
  have herase : (L o).erase p = l₁ ++ l₂ := by
    rw [hl, List.erase_append_right _ hp₁, List.erase_cons_head]
  have hsub : ∀ x ∈ l₁ ++ l₂, x ∈ L o := by
    intro x hx
    rw [hl]
    rcases List.mem_append.mp hx with hx | hx
    · exact List.mem_append_left _ hx
    · exact List.mem_append_right _ (List.mem_cons_of_mem p hx)
  obtain ⟨hpv, hnx⟩ := hseg.links
  have hsmall := h.small
  have hlastlt : ∀ y, l₁.getLast? = some y → y < b.metadata.length := fun y hy =>
    h.lt o y (hsub y (List.mem_append_left _ (List.mem_of_getLast? hy)))
  have hheadlt : ∀ y, l₂.head? = some y → y < b.metadata.length := fun y hy =>
    h.lt o y (hsub y (List.mem_append_right _ (List.mem_of_head? hy)))
  -- the page before, or the head of the list, is linked to the page after
  obtain ⟨b₁, e₁, hlen₁, htot₁, hheads₁, hinfo₁⟩ := h.setNextAt ho hl
  obtain ⟨b₂, e₂, r₂⟩ := setPrevAt_spec (b := b₁) l₂.head?
    (fun n hn => by rw [hlen₁]; exact hheadlt n hn) l₁.getLast?
  have hinfo : ∀ x, b₂.info x = if l₂.head? = some x
      then (if l₁.getLast? = some x then (b.info x).setNext l₂.head? else b.info x).setPrev
        l₁.getLast?
      else if l₁.getLast? = some x then (b.info x).setNext l₂.head? else b.info x := by
    intro x
    rw [r₂.info, hinfo₁]
  have hmarks : SameMarks b b₂ := by
    refine ⟨r₂.length.trans hlen₁, r₂.total.trans htot₁, fun x => ?_⟩
    rw [hinfo]
    split <;> split <;> rfl
  refine ⟨b₂, ?_, ?_, hmarks⟩
  · rw [BuddyAllocator.removeFromFree, getElem?_eq_info (h.lt o p hp)]
    simp only [Option.bind_eq_bind, Option.bind_some, hpv, hnx, e₁, e₂]
  · have hother : ∀ k, k ≠ o → ∀ x ∈ L k, b₂.info x = b.info x := by
      intro k hk x hx
      rw [hinfo, if_neg, if_neg]
      · exact fun he => hk (h.disjoint k o x hx
          (hsub x (List.mem_append_left _ (List.mem_of_getLast? he))))
      · exact fun he => hk (h.disjoint k o x hx
          (hsub x (List.mem_append_right _ (List.mem_of_head? he))))
    rw [herase]
    refine h.replace ho hmarks.length ?_ hother ?_ ?_ (fun x hx => h.lt o x (hsub x hx))
      fun k hk x hx hm => hk (h.disjoint k o x hx (hsub x hm))
    · rw [r₂.heads, hheads₁]
    · refine hseg.remove hnd (fun y hy => ?_) (fun y hy => ?_)
      · show (b₂.info y).next? = _
        rw [hinfo]
        by_cases hy₁ : l₁.getLast? = some y
        · simp only [hy₁, if_true]
          rw [show ∀ q : PageInfo, (if l₂.head? = some y then q.setPrev (some y) else q).next? =
            q.next? from fun q => by split <;> rfl]
          exact PageInfo.next?_setNext fun x hx => by have := hheadlt x hx; omega
        · simp only [hy₁, if_false]
          split <;> rfl
      · show (b₂.info y).prev? = _
        rw [hinfo]
        by_cases hy₂ : l₂.head? = some y
        · simp only [hy₂, if_true]
          exact PageInfo.prev?_setPrev fun x hx => by have := hlastlt x hx; omega
        · simp only [hy₂, if_false]
          split <;> rfl
    · rw [← herase]
      exact (h.nodup o).erase p

/-- A free list visits no page twice. -/
theorem Links.length_le {b : BuddyAllocator} {L : Nat → List Nat} (h : Links b L) (o : Nat) :
    (L o).length ≤ b.metadata.length := by
  rw [← List.length_range (n := b.metadata.length)]
  refine (List.Nodup.subperm (h.nodup o) fun p hp => ?_).length_le
  exact List.mem_range.mpr (h.lt o p hp)

/-- `find_free` returns, and finds the first listed block that satisfies `pred`. -/
theorem Links.findFree {b : BuddyAllocator} {L : Nat → List Nat} (h : Links b L)
    (htotal : b.totalPages = b.metadata.length) {o : Nat} (ho : o < MAX_ORDER) (pred : Nat → Bool) :
    b.findFree o pred = some ((L o).find? pred) := by
  -- the walk from any node visits the rest of the list
  have walk : ∀ (l : List Nat) (before : Option Nat) (fuel : Nat),
      DList.Seg (fun x => (b.info x).next?) (fun x => (b.info x).prev?) before l none →
      (∀ p ∈ l, p < b.metadata.length) → l.length ≤ fuel →
      b.walkFree pred fuel l.head? = some (l.find? pred) := by
    intro l
    induction l with
    | nil => intro _ fuel _ _ _; cases fuel <;> rfl
    | cons x l ih =>
      intro before fuel hseg hlt hfuel
      obtain ⟨_, hnx, hseg'⟩ := hseg
      obtain ⟨fuel, rfl⟩ : ∃ f, fuel = f + 1 := ⟨fuel - 1, by simp at hfuel; omega⟩
      rw [List.head?_cons, walkFree]
      by_cases hpred : pred x = true
      · rw [if_pos hpred, List.find?_cons_of_pos hpred]
      · rw [if_neg hpred, List.find?_cons_of_neg hpred, getElem?_eq_info (hlt x (by simp))]
        simp only [Option.bind_eq_bind, Option.bind_some]
        rw [show (b.info x).next? = l.head? from by simpa using hnx]
        exact ih (some x) fuel hseg' (fun p hp => hlt p (List.mem_cons_of_mem x hp))
          (by simpa using hfuel)
  rw [BuddyAllocator.findFree, h.heads o ho]
  simp only [Option.bind_eq_bind, Option.bind_some]
  refine walk (L o) none b.totalPages (h.seg o) (h.lt o) ?_
  rw [htotal]
  exact h.length_le o

end BuddyAllocator

end Zeronix
