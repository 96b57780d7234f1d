import Mathlib.Data.List.Sort
import Mathlib.Order.Defs.LinearOrder

/-!
# Sorted association lists

A finite map as the list of its bindings in increasing order of the keys.  The order makes
the representation canonical: two sorted lists that look up the same values are equal
(`SortedMap.ext`), so that a map that was changed and changed back is the map it was.
-/

namespace SortedMap

variable {K V : Type*} [LinearOrder K]

/-- The keys increase strictly. -/
def Sorted (l : List (K × V)) : Prop := l.Pairwise fun a b => a.1 < b.1

def get? (k : K) : List (K × V) → Option V
  | [] => none
  | (a, b) :: l => if k = a then some b else get? k l

/-- Bind a key, replacing what it was bound to. -/
def insert (k : K) (v : V) : List (K × V) → List (K × V)
  | [] => [(k, v)]
  | (a, b) :: l =>
    if k < a then (k, v) :: (a, b) :: l
    else if k = a then (a, v) :: l
    else (a, b) :: insert k v l

def erase (k : K) (l : List (K × V)) : List (K × V) := l.filter fun e => e.1 ≠ k

/-! ### Looking up -/

theorem mem_of_get? {k : K} {v : V} {l : List (K × V)} (h : get? k l = some v) : (k, v) ∈ l := by
  induction l with
  | nil => cases h
  | cons e l ih =>
    rw [get?] at h
    split at h
    · rename_i hk
      cases h
      simp [hk]
    · exact List.mem_cons_of_mem e (ih h)

theorem get?_eq_none_iff {k : K} {l : List (K × V)} : get? k l = none ↔ ∀ e ∈ l, e.1 ≠ k := by
  induction l with
  | nil => simp [get?]
  | cons e l ih =>
    rw [get?]
    split
    · rename_i hk
      simp [hk]
    · rename_i hk
      simp [ih, Ne.symm hk]

theorem Sorted.get?_of_mem {k : K} {v : V} {l : List (K × V)} (h : Sorted l) (hm : (k, v) ∈ l) :
    get? k l = some v := by
  induction l with
  | nil => cases hm
  | cons e l ih =>
    have hs := List.pairwise_cons.mp h
    rw [get?]
    rcases List.mem_cons.mp hm with he | he
    · cases he
      simp
    · rw [if_neg (hs.1 _ he).ne']
      exact ih hs.2 he

/-- A sorted list is determined by what it looks up. -/
theorem Sorted.ext {l l' : List (K × V)} (h : Sorted l) (h' : Sorted l')
    (hget : ∀ k, get? k l = get? k l') : l = l' := by
  have hp : ∀ {l : List (K × V)}, Sorted l → l.Nodup := by
    intro l hl
    refine List.Pairwise.imp ?_ hl
    intro a b hab he
    rw [he] at hab
    exact lt_irrefl _ hab
  refine List.Perm.eq_of_pairwise ?_ h h' ?_
  · intro a b _ _ hab hba
    exact absurd (hab.trans hba) (lt_irrefl _)
  · refine (List.perm_ext_iff_of_nodup (hp h) (hp h')).mpr ?_
    rintro ⟨k, v⟩
    constructor
    · intro hm
      exact mem_of_get? (hget k ▸ h.get?_of_mem hm)
    · intro hm
      exact mem_of_get? ((hget k).symm ▸ h'.get?_of_mem hm)

/-! ### Inserting -/

@[simp] theorem get?_insert_self (k : K) (v : V) (l : List (K × V)) :
    get? k (insert k v l) = some v := by
  induction l with
  | nil => simp [insert, get?]
  | cons e l ih =>
    rw [insert]
    split
    · simp [get?]
    · split
      · rename_i hk
        simp [get?, hk]
      · rename_i hk
        rw [get?, if_neg hk, ih]

theorem get?_insert_of_ne {k k' : K} (hne : k' ≠ k) (v : V) (l : List (K × V)) :
    get? k' (insert k v l) = get? k' l := by
  induction l with
  | nil => simp [insert, get?, hne]
  | cons e l ih =>
    rw [insert]
    split
    · rw [get?, if_neg hne]
    · split
      · rename_i hk
        rw [get?, get?, if_neg (hk ▸ hne), if_neg (hk ▸ hne)]
      · rw [get?, get?, ih]

theorem mem_insert {k : K} {v : V} {l : List (K × V)} {e : K × V} (h : e ∈ insert k v l) :
    e = (k, v) ∨ e ∈ l := by
  induction l with
  | nil => simpa [insert] using h
  | cons a l ih =>
    rw [insert] at h
    split at h
    · simpa using h
    · split at h
      · rename_i hk
        rcases List.mem_cons.mp h with h | h
        · exact .inl (by rw [h, hk])
        · exact .inr (List.mem_cons_of_mem a h)
      · rcases List.mem_cons.mp h with h | h
        · exact .inr (by simp [h])
        · rcases ih h with h | h
          · exact .inl h
          · exact .inr (List.mem_cons_of_mem a h)

theorem Sorted.insert {l : List (K × V)} (h : Sorted l) (k : K) (v : V) :
    Sorted (insert k v l) := by
  induction l with
  | nil => simp [SortedMap.insert, Sorted]
  | cons e l ih =>
    have hs := List.pairwise_cons.mp h
    rw [SortedMap.insert]
    split
    · rename_i hlt
      refine List.pairwise_cons.mpr ⟨?_, h⟩
      intro x hx
      rcases List.mem_cons.mp hx with hx | hx
      · rw [hx]
        exact hlt
      · exact hlt.trans (hs.1 x hx)
    · split
      · exact List.pairwise_cons.mpr ⟨hs.1, hs.2⟩
      · rename_i h1 h2
        refine List.pairwise_cons.mpr ⟨?_, ih hs.2⟩
        intro x hx
        rcases mem_insert hx with hx | hx
        · rw [hx]
          exact lt_of_le_of_ne (not_lt.mp h1) (Ne.symm h2)
        · exact hs.1 x hx

/-- Rebinding a key to its own value changes nothing. -/
theorem Sorted.insert_get? {l : List (K × V)} (h : Sorted l) {k : K} {v : V}
    (hk : get? k l = some v) : SortedMap.insert k v l = l := by
  refine (h.insert k v).ext h fun k' => ?_
  by_cases hne : k' = k
  · rw [hne, get?_insert_self, hk]
  · rw [get?_insert_of_ne hne]

/-! ### Erasing -/

theorem get?_erase_self (k : K) (l : List (K × V)) : get? k (erase k l) = none := by
  rw [get?_eq_none_iff]
  intro e he
  simpa using (List.mem_filter.mp he).2

theorem get?_erase_of_ne {k k' : K} (hne : k' ≠ k) (l : List (K × V)) :
    get? k' (erase k l) = get? k' l := by
  induction l with
  | nil => rfl
  | cons e l ih =>
    by_cases he : e.1 = k
    · have hne' : k' ≠ e.1 := he ▸ hne
      rw [erase, List.filter_cons_of_neg (by simpa using he), ← erase, ih, get?, if_neg hne']
    · rw [erase, List.filter_cons_of_pos (by simpa using he), ← erase, get?, get?, ih]

theorem Sorted.erase {l : List (K × V)} (h : Sorted l) (k : K) : Sorted (erase k l) :=
  List.Pairwise.filter _ h

end SortedMap
