import Mathlib.Data.Set.Basic
import Zeronix.Lib.Ring

/-!
# Families of rings

Several circular lists threaded through the same nodes, each around a head of its own, and no node
in two of them: `Rings nx pv heads xs` says that the ring around each head `h` of `heads` spells
`xs h`.

An edit of one ring is an update of `xs` at its head (`Rings.insert`, `Rings.remove`), because its
writes are off the nodes of all other rings.
-/

namespace Ring

variable {α : Type*} {nx pv nx' pv' : α → α} {heads : Set α} {xs xs' : α → List α}

/-- A head or a member of one of the rings. -/
def OnRing (heads : Set α) (xs : α → List α) (a : α) : Prop := ∃ h ∈ heads, a ∈ h :: xs h

structure Rings (nx pv : α → α) (heads : Set α) (xs : α → List α) : Prop where
  ring : ∀ h ∈ heads, IsRing nx pv h (xs h)
  disjoint : ∀ h ∈ heads, ∀ h' ∈ heads, ∀ a, a ∈ h :: xs h → a ∈ h' :: xs h' → h = h'

theorem Rings.congr (hr : Rings nx pv heads xs) (hxs : ∀ h ∈ heads, xs' h = xs h) :
    Rings nx pv heads xs' := by
  refine ⟨fun h hh => ?_, fun h hh h' hh' a ha ha' => ?_⟩
  · rw [hxs h hh]
    exact hr.ring h hh
  · rw [hxs h hh] at ha
    rw [hxs h' hh'] at ha'
    exact hr.disjoint h hh h' hh' a ha ha'

theorem Rings.of_links (hr : Rings nx pv heads xs) (hnx : ∀ a, OnRing heads xs a → nx' a = nx a)
    (hpv : ∀ a, OnRing heads xs a → pv' a = pv a) : Rings nx' pv' heads xs :=
  ⟨fun h hh => (hr.ring h hh).congr (fun a ha => hnx a ⟨h, hh, ha⟩) fun a ha => hpv a ⟨h, hh, ha⟩,
    hr.disjoint⟩

theorem Rings.notMem (hr : Rings nx pv heads xs) {h h' a : α} (hh : h ∈ heads) (hh' : h' ∈ heads)
    (hne : h' ≠ h) (ha : a ∈ h :: xs h) : a ∉ h' :: xs h' := fun ha' =>
  hne (hr.disjoint h hh h' hh' a ha ha').symm

section Edit

variable [DecidableEq α] {h x : α} {l l₁ l₂ : List α}

theorem Rings.edit (hr : Rings nx pv heads xs) (hh : h ∈ heads) (hring : IsRing nx' pv' h l)
    (hmem : ∀ a ∈ l, a ∈ h :: xs h ∨ ¬ OnRing heads xs a)
    (hnx : ∀ h' ∈ heads, h' ≠ h → ∀ a ∈ h' :: xs h', nx' a = nx a)
    (hpv : ∀ h' ∈ heads, h' ≠ h → ∀ a ∈ h' :: xs h', pv' a = pv a) :
    Rings nx' pv' heads (Function.update xs h l) := by
  have hother : ∀ h' ∈ heads, h' ≠ h → ∀ a ∈ h' :: xs h', a ∉ h :: l := by
    intro h' hh' hne a ha ha'
    rcases List.mem_cons.mp ha' with rfl | hal
    · exact hr.notMem hh hh' hne List.mem_cons_self ha
    · rcases hmem a hal with hold | hnew
      · exact hr.notMem hh hh' hne hold ha
      · exact hnew ⟨h', hh', ha⟩
  refine ⟨fun h' hh' => ?_, fun h₁ hh₁ h₂ hh₂ a ha₁ ha₂ => ?_⟩
  · by_cases hne : h' = h
    · subst hne
      rw [Function.update_self]
      exact hring
    · rw [Function.update_of_ne hne]
      exact (hr.ring h' hh').congr (hnx h' hh' hne) (hpv h' hh' hne)
  · by_cases hne₁ : h₁ = h
    · by_cases hne₂ : h₂ = h
      · rw [hne₁, hne₂]
      · rw [hne₁, Function.update_self] at ha₁
        rw [Function.update_of_ne hne₂] at ha₂
        exact absurd ha₁ (hother h₂ hh₂ hne₂ a ha₂)
    · rw [Function.update_of_ne hne₁] at ha₁
      by_cases hne₂ : h₂ = h
      · rw [hne₂, Function.update_self] at ha₂
        exact absurd ha₂ (hother h₁ hh₁ hne₁ a ha₁)
      · rw [Function.update_of_ne hne₂] at ha₂
        exact hr.disjoint h₁ hh₁ h₂ hh₂ a ha₁ ha₂

/-- **A new head**, linked to itself. -/
theorem Rings.newHead (hr : Rings nx pv heads xs) (hh : ¬ OnRing heads xs h)
    (hnx : ∀ y, OnRing heads xs y → nx' y = nx y) (hpv : ∀ y, OnRing heads xs y → pv' y = pv y)
    (hself : nx' h = h) (hself' : pv' h = h) :
    Rings nx' pv' (Insert.insert h heads) (Function.update xs h []) := by
  have hne : ∀ h' ∈ heads, h' ≠ h := by
    rintro h' hh' rfl
    exact hh ⟨h', hh', List.mem_cons_self⟩
  have hring : IsRing nx' pv' h [] :=
    ⟨List.isChain_cons_cons.mpr ⟨⟨hself, hself'⟩, .singleton h⟩, List.nodup_singleton h⟩
  have hold : ∀ h' ∈ heads, ∀ a ∈ h' :: xs h', a ≠ h := fun h' hh' a ha heq =>
    hh ⟨h', hh', heq ▸ ha⟩
  refine ⟨?_, ?_⟩
  · rintro h' (rfl | hh')
    · rw [Function.update_self]
      exact hring
    · rw [Function.update_of_ne (hne h' hh')]
      exact (hr.ring h' hh').congr (fun a ha => hnx a ⟨h', hh', ha⟩) fun a ha => hpv a ⟨h', hh', ha⟩
  · rintro h₁ (rfl | hh₁) h₂ (rfl | hh₂) a ha₁ ha₂
    · rfl
    · rw [Function.update_self] at ha₁
      rw [Function.update_of_ne (hne h₂ hh₂)] at ha₂
      exact absurd (List.mem_singleton.mp ha₁) (hold h₂ hh₂ a ha₂)
    · rw [Function.update_self] at ha₂
      rw [Function.update_of_ne (hne h₁ hh₁)] at ha₁
      exact absurd (List.mem_singleton.mp ha₂) (hold h₁ hh₁ a ha₁)
    · rw [Function.update_of_ne (hne h₁ hh₁)] at ha₁
      rw [Function.update_of_ne (hne h₂ hh₂)] at ha₂
      exact hr.disjoint h₁ hh₁ h₂ hh₂ a ha₁ ha₂

/-- **Insert** a node that is on no ring. -/
theorem Rings.insert (hr : Rings nx pv heads xs) (hh : h ∈ heads) (hxs : xs h = l₁ ++ l₂)
    (hx : ¬ OnRing heads xs x)
    (hnx : ∀ y, OnRing heads xs y → nx' y = if y = l₁.getLastD h then x else nx y)
    (hpv : ∀ y, OnRing heads xs y → pv' y = if y = l₂.headD h then x else pv y)
    (hxn : nx' x = l₂.headD h) (hxp : pv' x = l₁.getLastD h) :
    Rings nx' pv' heads (Function.update xs h (l₁ ++ x :: l₂)) := by
  have hring := hr.ring h hh
  rw [hxs] at hring
  have hon : ∀ y ∈ h :: (l₁ ++ l₂), OnRing heads xs y := by
    intro y hy
    rw [← hxs] at hy
    exact ⟨h, hh, hy⟩
  refine hr.edit hh (hring.insert (fun hmem => hx (hon x hmem)) (fun y hy => hnx y (hon y hy))
    (fun y hy => hpv y (hon y hy)) hxn hxp) ?_ ?_ ?_
  · intro a ha
    rw [hxs]
    rcases List.mem_append.mp ha with ha | ha
    · exact .inl (List.mem_cons_of_mem h (List.mem_append_left l₂ ha))
    · rcases List.mem_cons.mp ha with rfl | ha
      · exact .inr hx
      · exact .inl (List.mem_cons_of_mem h (List.mem_append_right l₁ ha))
  · intro h' hh' hne a ha
    rw [hnx a ⟨h', hh', ha⟩, if_neg]
    rintro rfl
    exact hr.notMem hh hh' hne (by rw [hxs]; exact getLastD_mem_append h l₁ l₂) ha
  · intro h' hh' hne a ha
    rw [hpv a ⟨h', hh', ha⟩, if_neg]
    rintro rfl
    exact hr.notMem hh hh' hne (by rw [hxs]; exact headD_mem_append h l₁ l₂) ha

/-- **Remove** a member; its own links are free afterwards. -/
theorem Rings.remove (hr : Rings nx pv heads xs) (hh : h ∈ heads) (hxs : xs h = l₁ ++ x :: l₂)
    (hnx : ∀ y, y ≠ x → OnRing heads xs y → nx' y = if y = l₁.getLastD h then l₂.headD h else nx y)
    (hpv : ∀ y, y ≠ x → OnRing heads xs y → pv' y = if y = l₂.headD h then l₁.getLastD h else pv y) :
    Rings nx' pv' heads (Function.update xs h (l₁ ++ l₂)) := by
  have hring := hr.ring h hh
  rw [hxs] at hring
  have hmid : ∀ y ∈ h :: (l₁ ++ l₂), y ∈ h :: xs h := by
    intro y hy
    rw [hxs]
    simp only [List.mem_cons, List.mem_append] at hy ⊢
    tauto
  have hxh : x ∈ h :: xs h := by
    rw [hxs]
    simp
  have hout : x ∉ h :: (l₁ ++ l₂) := by
    have hperm : (h :: (l₁ ++ x :: l₂)).Perm (x :: h :: (l₁ ++ l₂)) :=
      (List.Perm.cons h List.perm_middle).trans (List.Perm.swap x h _)
    exact (List.nodup_cons.mp (hperm.nodup_iff.mp hring.nodup)).1
  have hon : ∀ y ∈ h :: (l₁ ++ l₂), y ≠ x ∧ OnRing heads xs y := fun y hy =>
    ⟨fun heq => hout (heq ▸ hy), h, hh, hmid y hy⟩
  refine hr.edit hh (hring.remove (fun y hy => hnx y (hon y hy).1 (hon y hy).2)
    (fun y hy => hpv y (hon y hy).1 (hon y hy).2)) ?_ ?_ ?_
  · exact fun a ha => .inl (hmid a (List.mem_cons_of_mem h ha))
  · intro h' hh' hne a ha
    have hax : a ≠ x := fun heq => hr.notMem hh hh' hne hxh (heq ▸ ha)
    rw [hnx a hax ⟨h', hh', ha⟩, if_neg]
    rintro rfl
    exact hr.notMem hh hh' hne (hmid _ (getLastD_mem_append h l₁ l₂)) ha
  · intro h' hh' hne a ha
    have hax : a ≠ x := fun heq => hr.notMem hh hh' hne hxh (heq ▸ ha)
    rw [hpv a hax ⟨h', hh', ha⟩, if_neg]
    rintro rfl
    exact hr.notMem hh hh' hne (hmid _ (headD_mem_append h l₁ l₂)) ha

end Edit

end Ring
