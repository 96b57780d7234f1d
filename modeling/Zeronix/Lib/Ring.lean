import Mathlib.Data.List.Chain
import Mathlib.Data.List.Nodup

/-!
# Circular doubly linked lists

A list with a head node, as kernels thread it through larger structures: from the head
the forward links run through the members and back to the head, and the backward links
undo them.  `IsRing nx pv h l` says that the link functions `nx` and `pv` spell the
sequence `l` around the head `h`.

Both edits are local.  `isRing_append` cuts a ring between two neighbours into a chain
before and a chain after the cut; `IsRing.insert` and `IsRing.remove` move the two chains
to the new link functions and join them again.
-/

namespace Ring

variable {α : Type*} {nx pv nx' pv' : α → α}

/-- `a` and `b` are neighbours in that order. -/
def Link (nx pv : α → α) (a b : α) : Prop := nx a = b ∧ pv b = a

structure IsRing (nx pv : α → α) (h : α) (l : List α) : Prop where
  chain : (h :: l ++ [h]).IsChain (Link nx pv)
  nodup : (h :: l).Nodup

/-- A chain reads the forward links of all nodes but the last and the backward links of all
but the first. -/
theorem chain_congr {l : List α} (h : l.IsChain (Link nx pv))
    (hnx : ∀ a ∈ l.dropLast, nx' a = nx a) (hpv : ∀ b ∈ l.tail, pv' b = pv b) :
    l.IsChain (Link nx' pv') := by
  induction l with
  | nil => exact .nil
  | cons a l ih =>
    cases l with
    | nil => exact .singleton a
    | cons b l =>
      obtain ⟨⟨h1, h2⟩, h3⟩ := List.isChain_cons_cons.mp h
      refine List.isChain_cons_cons.mpr ⟨⟨?_, ?_⟩, ih h3 ?_ ?_⟩
      · exact (hnx a (by simp)).trans h1
      · exact (hpv b (by simp)).trans h2
      · intro x hx
        exact hnx x (by simp [hx])
      · intro x hx
        exact hpv x (by simpa using Or.inr hx)

/-- A ring depends on the links of its own nodes only. -/
theorem IsRing.congr {h : α} {l : List α} (hr : IsRing nx pv h l)
    (hnx : ∀ a ∈ h :: l, nx' a = nx a) (hpv : ∀ a ∈ h :: l, pv' a = pv a) : IsRing nx' pv' h l := by
  refine ⟨chain_congr hr.chain (fun a ha => hnx a ?_) (fun b hb => hpv b ?_), hr.nodup⟩
  · rw [List.dropLast_concat] at ha
    exact ha
  · have hb' : b ∈ l ∨ b = h := by simpa using hb
    rcases hb' with hb' | hb'
    · exact List.mem_cons_of_mem h hb'
    · rw [hb']
      exact List.mem_cons_self

theorem getLast?_cons_getLastD (h : α) (l : List α) : (h :: l).getLast? = some (l.getLastD h) := by
  cases l with
  | nil => rfl
  | cons x l => simp [List.getLast?_cons, List.getLastD_eq_getLast?]

theorem head?_snoc_headD (h : α) (l : List α) : (l ++ [h]).head? = some (l.headD h) := by
  cases l with
  | nil => rfl
  | cons x l => rfl

/-- The neighbours of a cut are members or the head. -/
theorem getLastD_mem (h : α) (l : List α) : l.getLastD h ∈ h :: l :=
  List.mem_of_getLast? (getLast?_cons_getLastD h l)

theorem headD_mem (h : α) (l : List α) : l.headD h ∈ h :: l := by
  have := List.mem_of_head? (head?_snoc_headD h l)
  simpa [or_comm] using this

theorem getLastD_mem_append (h : α) (l₁ l₂ : List α) : l₁.getLastD h ∈ h :: (l₁ ++ l₂) := by
  rw [← List.cons_append]
  exact List.mem_append_left _ (getLastD_mem h l₁)

theorem headD_mem_append (h : α) (l₁ l₂ : List α) : l₂.headD h ∈ h :: (l₁ ++ l₂) := by
  rcases List.mem_cons.mp (headD_mem h l₂) with he | he
  · rw [he]
    exact List.mem_cons_self
  · exact List.mem_cons_of_mem h (List.mem_append_right l₁ he)

/-- **A ring cut between two neighbours.** -/
theorem isRing_append {h : α} {l₁ l₂ : List α} :
    IsRing nx pv h (l₁ ++ l₂) ↔
      (h :: l₁).IsChain (Link nx pv) ∧ (l₂ ++ [h]).IsChain (Link nx pv) ∧
      Link nx pv (l₁.getLastD h) (l₂.headD h) ∧ (h :: (l₁ ++ l₂)).Nodup := by
  have key : (h :: (l₁ ++ l₂) ++ [h]).IsChain (Link nx pv) ↔
      (h :: l₁).IsChain (Link nx pv) ∧ (l₂ ++ [h]).IsChain (Link nx pv) ∧
      Link nx pv (l₁.getLastD h) (l₂.headD h) := by
    rw [show h :: (l₁ ++ l₂) ++ [h] = (h :: l₁) ++ (l₂ ++ [h]) by simp, List.isChain_append,
      getLast?_cons_getLastD, head?_snoc_headD]
    simp
  constructor
  · rintro ⟨hc, hn⟩
    obtain ⟨h1, h2, h3⟩ := key.mp hc
    exact ⟨h1, h2, h3, hn⟩
  · rintro ⟨h1, h2, h3, hn⟩
    exact ⟨key.mpr ⟨h1, h2, h3⟩, hn⟩

theorem IsRing.next_head {h : α} {l : List α} (hr : IsRing nx pv h l) : nx h = l.headD h := by
  rw [← List.nil_append l] at hr
  exact (isRing_append.mp hr).2.2.1.1

theorem IsRing.prev_head {h : α} {l : List α} (hr : IsRing nx pv h l) : pv h = l.getLastD h := by
  rw [← List.append_nil l] at hr
  exact (isRing_append.mp hr).2.2.1.2

/-- The links of a member. -/
theorem IsRing.links {h x : α} {l₁ l₂ : List α} (hr : IsRing nx pv h (l₁ ++ x :: l₂)) :
    pv x = l₁.getLastD h ∧ nx x = l₂.headD h := by
  obtain ⟨_, hc, hl, _⟩ := isRing_append.mp hr
  refine ⟨hl.2, ?_⟩
  cases l₂ with
  | nil => exact (List.isChain_cons_cons.mp hc).1.1
  | cons y l₂ => exact (List.isChain_cons_cons.mp hc).1.1

/-- The last node before a cut is not one of those before it. -/
theorem getLastD_notMem {h a : α} {l : List α} (hn : (h :: l).Nodup)
    (ha : a ∈ (h :: l).dropLast) : a ≠ l.getLastD h := by
  have hsplit := List.dropLast_append_getLast? _ (getLast?_cons_getLastD h l)
  rw [← hsplit] at hn
  rintro rfl
  exact (List.nodup_append.mp hn).2.2 _ ha _ (by simp) rfl

section Edit

variable [DecidableEq α] {h x : α} {l₁ l₂ : List α}

/-- A chain before a cut survives a change of the forward link at the cut. -/
theorem chain_before (hn : (h :: (l₁ ++ l₂)).Nodup) (hc : (h :: l₁).IsChain (Link nx pv)) {c : α}
    (hnx : ∀ y ∈ h :: (l₁ ++ l₂), nx' y = if y = l₁.getLastD h then c else nx y)
    {p : α} (hpv : ∀ y ∈ h :: (l₁ ++ l₂), pv' y = if y = l₂.headD h then p else pv y) :
    (h :: l₁).IsChain (Link nx' pv') := by
  have hn₁ : (h :: l₁).Nodup := by
    rw [← List.cons_append] at hn
    exact (List.nodup_append.mp hn).1
  refine chain_congr hc (fun a ha => ?_) (fun b hb => ?_)
  · have hmem : a ∈ h :: l₁ := List.dropLast_subset _ ha
    rw [hnx a (by rw [← List.cons_append]; exact List.mem_append_left _ hmem),
      if_neg (getLastD_notMem hn₁ ha)]
  · have hb : b ∈ l₁ := hb
    rw [hpv b (by simp [hb]), if_neg]
    intro he
    have hmem := headD_mem h l₂
    rw [← he] at hmem
    obtain ⟨hh, hn'⟩ := List.nodup_cons.mp hn
    rcases List.mem_cons.mp hmem with hbh | hb2
    · exact hh (by simp [← hbh, hb])
    · exact (List.nodup_append.mp hn').2.2 b hb b hb2 rfl

/-- A chain after a cut survives a change of the backward link at the cut. -/
theorem chain_after (hn : (h :: (l₁ ++ l₂)).Nodup) (hc : (l₂ ++ [h]).IsChain (Link nx pv)) {c : α}
    (hnx : ∀ y ∈ h :: (l₁ ++ l₂), nx' y = if y = l₁.getLastD h then c else nx y)
    {p : α} (hpv : ∀ y ∈ h :: (l₁ ++ l₂), pv' y = if y = l₂.headD h then p else pv y) :
    (l₂ ++ [h]).IsChain (Link nx' pv') := by
  obtain ⟨hh, hn'⟩ := List.nodup_cons.mp hn
  obtain ⟨_, hn₂, hdis⟩ := List.nodup_append.mp hn'
  refine chain_congr hc (fun a ha => ?_) (fun b hb => ?_)
  · have ha : a ∈ l₂ := by simpa using ha
    rw [hnx a (by simp [ha]), if_neg]
    intro he
    have hmem := getLastD_mem h l₁
    rw [← he] at hmem
    rcases List.mem_cons.mp hmem with hah | ha1
    · exact hh (by simp [← hah, ha])
    · exact hdis a ha1 a ha rfl
  · cases l₂ with
    | nil => simp at hb
    | cons y l₂ =>
      have hb' : b ∈ l₂ ∨ b = h := by simpa using hb
      rw [hpv b (by rcases hb' with hb' | hb' <;> simp [hb']), if_neg]
      rintro rfl
      rcases hb' with hb' | hb'
      · exact (List.nodup_cons.mp hn₂).1 hb'
      · exact hh (by simp [← hb'])

/-- **Insert** a new node between two neighbours. -/
theorem IsRing.insert (hr : IsRing nx pv h (l₁ ++ l₂)) (hx : x ∉ h :: (l₁ ++ l₂))
    (hnx : ∀ y ∈ h :: (l₁ ++ l₂), nx' y = if y = l₁.getLastD h then x else nx y)
    (hpv : ∀ y ∈ h :: (l₁ ++ l₂), pv' y = if y = l₂.headD h then x else pv y)
    (hxn : nx' x = l₂.headD h) (hxp : pv' x = l₁.getLastD h) :
    IsRing nx' pv' h (l₁ ++ x :: l₂) := by
  obtain ⟨hc₁, hc₂, _, hn⟩ := isRing_append.mp hr
  have hp := getLastD_mem_append h l₁ l₂
  have hc := headD_mem_append h l₁ l₂
  refine isRing_append.mpr ⟨chain_before hn hc₁ hnx hpv, ?_, ⟨?_, hxp⟩, ?_⟩
  · have hafter := chain_after hn hc₂ hnx hpv
    have hlink : Link nx' pv' x (l₂.headD h) := ⟨hxn, by rw [hpv _ hc, if_pos rfl]⟩
    cases l₂ with
    | nil => exact List.isChain_cons_cons.mpr ⟨hlink, hafter⟩
    | cons y l₂ => exact List.isChain_cons_cons.mpr ⟨hlink, hafter⟩
  · rw [hnx _ hp, if_pos rfl]
    rfl
  · have hperm : (h :: (l₁ ++ x :: l₂)).Perm (x :: h :: (l₁ ++ l₂)) :=
      (List.Perm.cons h List.perm_middle).trans (List.Perm.swap x h _)
    exact hperm.nodup_iff.mpr (List.nodup_cons.mpr ⟨hx, hn⟩)

/-- **Remove** a member by linking its neighbours to each other. -/
theorem IsRing.remove (hr : IsRing nx pv h (l₁ ++ x :: l₂))
    (hnx : ∀ y ∈ h :: (l₁ ++ l₂), nx' y = if y = l₁.getLastD h then l₂.headD h else nx y)
    (hpv : ∀ y ∈ h :: (l₁ ++ l₂), pv' y = if y = l₂.headD h then l₁.getLastD h else pv y) :
    IsRing nx' pv' h (l₁ ++ l₂) := by
  obtain ⟨hc₁, hc₂, _, hn⟩ := isRing_append.mp hr
  have hperm : (h :: (l₁ ++ x :: l₂)).Perm (x :: h :: (l₁ ++ l₂)) :=
    (List.Perm.cons h List.perm_middle).trans (List.Perm.swap x h _)
  have hn' := (List.nodup_cons.mp (hperm.nodup_iff.mp hn)).2
  have hc₂' : (l₂ ++ [h]).IsChain (Link nx pv) := by
    cases l₂ with
    | nil => exact .singleton h
    | cons y l₂ => exact (List.isChain_cons_cons.mp hc₂).2
  have hp := getLastD_mem_append h l₁ l₂
  have hc := headD_mem_append h l₁ l₂
  refine isRing_append.mpr ⟨chain_before hn' hc₁ hnx hpv, chain_after hn' hc₂' hnx hpv, ?_, hn'⟩
  exact ⟨by rw [hnx _ hp, if_pos rfl], by rw [hpv _ hc, if_pos rfl]⟩

end Edit

end Ring
