import Mathlib.Data.List.Infix

/-!
# Radix trees kept in tables

A table has `width` entries, and an entry may point at a further table.  The entries of all
tables are one function `ent`, of the table's address and the index.  A path is written with
its last step first, so that its tail is the way to the table it reads from.

Several roots may stand over the same tables: the steps of `shared` leave every root for the
same subtree, which is counted as lying below `base`.  `Tree` says that apart from this no
table is reached at two places.

A program changes such a tree by pointing an unused entry at a blank table, or by rewriting
an entry without moving its pointer.  Both are steps along one path: `Along` says that nothing
off the path changes, and it composes.  What a reader sees elsewhere is then as before
(`Along.trail_eq`, `Along.leaf_eq`).
-/

namespace Radix

structure Scheme (E : Type) where
  child : E → Option Nat
  width : Nat
  depth : Nat
  base : Nat
  shared : Nat → Bool

variable {E : Type}

namespace Scheme

variable (S : Scheme E)

/-! ### Reading -/

/-- The table reached from `r`. -/
def descend (ent : Nat → Nat → E) (r : Nat) : List Nat → Option Nat
  | [] => some r
  | i :: p => (descend ent r p).bind fun t => S.child (ent t i)

/-- The entries met on the way, the last one first. -/
def trail (ent : Nat → Nat → E) (r : Nat) : List Nat → Option (List E)
  | [] => some []
  | i :: p => (S.descend ent r p).bind fun t => (trail ent r p).map (ent t i :: ·)

/-- The last entry on the way; `z` where there is no table to read it from. -/
def leaf (z : E) (ent : Nat → Nat → E) (r : Nat) : List Nat → E
  | [] => z
  | j :: p => ((S.descend ent r p).map (ent · j)).getD z

/-- Every entry on the way is there and satisfies `P`. -/
def AllOn (P : E → Prop) (ent : Nat → Nat → E) (r : Nat) : List Nat → Prop
  | [] => True
  | i :: p => AllOn P ent r p ∧ ∃ t, S.descend ent r p = some t ∧ P (ent t i)

/-- A path to a table. -/
structure Path (p : List Nat) : Prop where
  lt : ∀ i ∈ p, i < S.width
  le : p.length ≤ S.depth

/-- The root below which a place counts as lying. -/
def origin (r : Nat) : List Nat → Nat
  | [] => r
  | [i] => if S.shared i then S.base else r
  | _ :: i :: p => origin r (i :: p)

variable {S}
variable {R : Nat → Prop} {ent ent' ent'' : Nat → Nat → E} {r r' t u f i j : Nat}
variable {p p' q full : List Nat} {P : E → Prop} {z : E}

@[simp] theorem descend_nil : S.descend ent r [] = some r := rfl

theorem descend_cons : S.descend ent r (i :: p) = some u ↔
    ∃ t, S.descend ent r p = some t ∧ S.child (ent t i) = some u := by
  rw [descend, Option.bind_eq_some_iff]

theorem Path.nil : S.Path [] := ⟨by simp, Nat.zero_le _⟩

theorem Path.cons (h : S.Path p) (hi : i < S.width) (hl : p.length < S.depth) : S.Path (i :: p) := by
  refine ⟨fun j hj => ?_, hl⟩
  rcases List.mem_cons.mp hj with rfl | hj
  · exact hi
  · exact h.lt j hj

theorem Path.tail (h : S.Path (i :: p)) : S.Path p :=
  ⟨fun j hj => h.lt j (List.mem_cons_of_mem i hj), Nat.le_of_succ_le h.le⟩

theorem Path.head_lt (h : S.Path (i :: p)) : i < S.width := h.lt i List.mem_cons_self

theorem origin_cons_cons : S.origin r (j :: i :: p) = S.origin r (i :: p) := rfl

/-- Two roots that count a place the same way count the places below it the same way. -/
theorem origin_cons (h : S.origin r p = S.origin r' p) :
    S.origin r (i :: p) = S.origin r' (i :: p) := by
  cases p with
  | nil =>
    obtain rfl : r = r' := h
    rfl
  | cons j p => exact h

/-- Below a step that is not shared, only the root itself is the origin. -/
theorem origin_of_getLast (h : ∀ i, p.getLast? = some i → S.shared i = false) :
    S.origin r p = r := by
  induction p with
  | nil => rfl
  | cons j p ih =>
    cases p with
    | nil => simp [origin, h j rfl]
    | cons i p =>
      rw [origin_cons_cons]
      exact ih fun k hk => h k (by simpa using hk)

/-- The entries met on the way satisfy what `AllOn` says. -/
theorem allOn_iff {l : List E} (h : S.trail ent r p = some l) :
    S.AllOn P ent r p ↔ ∀ e ∈ l, P e := by
  induction p generalizing l with
  | nil =>
    obtain rfl := Option.some.inj h
    simp [AllOn]
  | cons i p ih =>
    rw [trail, Option.bind_eq_some_iff] at h
    obtain ⟨t, ht, h⟩ := h
    obtain ⟨l', hl, rfl⟩ := Option.map_eq_some_iff.mp h
    rw [AllOn, ih hl, List.forall_mem_cons, ht]
    constructor
    · rintro ⟨hp, t', ht', hP⟩
      obtain rfl := Option.some.inj ht'
      exact ⟨hP, hp⟩
    · rintro ⟨hP, hp⟩
      exact ⟨hp, t, rfl, hP⟩

/-- The way to a table can be read. -/
theorem exists_trail (h : S.descend ent r p = some t) : ∃ l, S.trail ent r p = some l := by
  induction p generalizing t with
  | nil => exact ⟨[], rfl⟩
  | cons i p ih =>
    obtain ⟨u, hu, _⟩ := descend_cons.mp h
    obtain ⟨l, hl⟩ := ih hu
    exact ⟨ent u i :: l, by rw [trail, hu, Option.bind_some, hl]; rfl⟩

/-- On the way to a table every entry points somewhere. -/
theorem allOn_of_descend
    (hP : ∀ {p t i}, S.Path (i :: p) → S.descend ent r p = some t →
      (S.child (ent t i)).isSome = true → P (ent t i))
    (hp : S.Path p) (h : S.descend ent r p = some u) : S.AllOn P ent r p := by
  induction p generalizing u with
  | nil => trivial
  | cons i p ih =>
    obtain ⟨t, ht, hc⟩ := descend_cons.mp h
    exact ⟨ih hp.tail ht, t, ht, hP hp ht (by rw [hc]; rfl)⟩

/-- What is read does not depend on how places are counted. -/
theorem trail_congr {S' : Scheme E} (h : S'.child = S.child) :
    S'.trail ent r p = S.trail ent r p := by
  have hd : ∀ p, S'.descend ent r p = S.descend ent r p := by
    intro p
    induction p with
    | nil => rfl
    | cons i p ih => rw [descend, descend, ih, h]
  induction p with
  | nil => rfl
  | cons i p ih => rw [trail, trail, hd p, ih]

/-- Below a step that is shared, the origin is the base. -/
theorem origin_of_shared (hp : p.getLast? = some i) (h : S.shared i = true) :
    S.origin r p = S.base := by
  induction p with
  | nil => simp at hp
  | cons j p ih =>
    cases p with
    | nil =>
      obtain rfl : j = i := by simpa using hp
      simp [origin, h]
    | cons k p =>
      rw [origin_cons_cons]
      exact ih (by simpa using hp)

/-- Below an entry that points nowhere there is nothing. -/
theorem descend_none_of_getLast (h : S.child (ent r i) = none) (hp : p.getLast? = some i) :
    S.descend ent r p = none := by
  induction p with
  | nil => simp at hp
  | cons j p ih =>
    cases p with
    | nil =>
      obtain rfl : j = i := by simpa using hp
      rw [descend, descend, Option.bind_some, h]
    | cons k p =>
      have ih := ih (by simpa using hp)
      rw [descend, ih, Option.bind_none]

/-- Roots that agree in one entry agree on everything below it. -/
theorem descend_of_getLast (h : ent r i = ent r' i) (hp : p.getLast? = some i) :
    S.descend ent r p = S.descend ent r' p := by
  induction p with
  | nil => simp at hp
  | cons j p ih =>
    cases p with
    | nil =>
      obtain rfl : j = i := by simpa using hp
      rw [descend, descend, descend, descend, Option.bind_some, Option.bind_some, h]
    | cons k p =>
      have ih := ih (by simpa using hp)
      rw [descend, ih]
      rfl

theorem trail_of_getLast (h : ent r i = ent r' i) (hp : p.getLast? = some i) :
    S.trail ent r p = S.trail ent r' p := by
  induction p with
  | nil => simp at hp
  | cons j p ih =>
    cases p with
    | nil =>
      obtain rfl : j = i := by simpa using hp
      simp only [trail, descend, Option.bind_some, Option.map_some, h]
    | cons k p =>
      have hp : (k :: p).getLast? = some i := by simpa using hp
      rw [trail, ih hp, descend_of_getLast h hp]
      rfl

/-! ### Shape -/

variable (S R ent)

/-- A table of the tree. -/
def Reached (t : Nat) : Prop := ∃ r p, R r ∧ S.Path p ∧ S.descend ent r p = some t

/-- No table is reached at two places, up to sharing. -/
def Tree : Prop := ∀ ⦃r r' p p' t⦄, R r → R r' → S.Path p → S.Path p' →
  S.descend ent r p = some t → S.descend ent r' p' = some t →
  p = p' ∧ S.origin r p = S.origin r' p'

/-- The place of an entry lies on the way `full` of `r`, seen from the root `r'`. -/
def On (r : Nat) (full : List Nat) (r' : Nat) (q : List Nat) : Prop :=
  q <:+ full ∧ S.origin r' q.tail = S.origin r q.tail

/-- From `ent` to `ent'` nothing changes off the way `full` of `r`: the tables there stay and
keep their entries, and the new ones are blank. -/
structure Along (z : E) (r : Nat) (full : List Nat) (ent' : Nat → Nat → E) : Prop where
  mono : ∀ {r' p u}, R r' → S.Path p → S.descend ent r' p = some u → S.descend ent' r' p = some u
  kept : ∀ {r' p u j}, R r' → S.Path p → S.descend ent r' p = some u → j < S.width →
    ¬ S.On r full r' (j :: p) → ent' u j = ent u j
  fresh : ∀ {r' p u}, R r' → S.Path p → S.descend ent' r' p = some u →
    S.descend ent r' p = some u ∨ S.descend ent r' p = none ∧ S.On r full r' p ∧
      ∀ j < S.width, ¬ S.On r full r' (j :: p) → ent' u j = z

variable {S R ent}

theorem Reached.of_root (h : R r) : S.Reached R ent r := ⟨r, [], h, .nil, rfl⟩

theorem Along.trans (h : S.Along R ent z r full ent') (h' : S.Along R ent' z r full ent'') :
    S.Along R ent z r full ent'' := by
  refine ⟨fun hr hp hu => h'.mono hr hp (h.mono hr hp hu), fun hr hp hu hj hn => ?_,
    fun {r' p u} hr hp hu => ?_⟩
  · rw [h'.kept hr hp (h.mono hr hp hu) hj hn, h.kept hr hp hu hj hn]
  · rcases h'.fresh hr hp hu with hu' | ⟨hnone, hon, hz⟩
    · rcases h.fresh hr hp hu' with hu'' | ⟨hnone, hon, hz⟩
      · exact Or.inl hu''
      · refine Or.inr ⟨hnone, hon, fun j hj hn => ?_⟩
        rw [h'.kept hr hp hu' hj hn, hz j hj hn]
    · refine Or.inr ⟨?_, hon, hz⟩
      cases hd : S.descend ent r' p with
      | none => rfl
      | some v =>
        rw [h.mono hr hp hd] at hnone
        simp at hnone

/-- What is there on the way to a table stays there, if no entry loses it. -/
theorem Along.allOn (h : S.Along R ent z r full ent') (hr : R r')
    (hP : ∀ {p u j}, S.Path (j :: p) → S.descend ent r' p = some u → P (ent u j) → P (ent' u j))
    (hp : S.Path p) (ha : S.AllOn P ent r' p) : S.AllOn P ent' r' p := by
  induction p with
  | nil => trivial
  | cons i p ih =>
    obtain ⟨ha, t, ht, hPt⟩ := ha
    exact ⟨ih hp.tail ha, t, h.mono hr hp.tail ht, hP hp ht hPt⟩

/-- A way that shares no entry with `full` is read as before. -/
theorem Along.trail_eq (h : S.Along R ent z r full ent') (hr : R r') (hlt : ∀ i ∈ q, i < S.width)
    (hle : q.length ≤ S.depth + 1) (hoff : ∀ p, p ≠ [] → p <:+ q → ¬ S.On r full r' p) :
    S.trail ent' r' q = S.trail ent r' q := by
  induction q with
  | nil => rfl
  | cons i p ih =>
    have hp : S.Path p :=
      ⟨fun j hj => hlt j (List.mem_cons_of_mem i hj), Nat.le_of_succ_le_succ hle⟩
    have ih := ih (fun j hj => hlt j (List.mem_cons_of_mem i hj)) (Nat.le_of_succ_le hle)
      fun q hq hs => hoff q hq (hs.trans (List.suffix_cons i p))
    rw [trail, trail, ih]
    cases hd : S.descend ent r' p with
    | some u =>
      rw [h.mono hr hp hd, Option.bind_some, Option.bind_some,
        h.kept hr hp hd (hlt i List.mem_cons_self) (hoff _ (by simp) List.suffix_rfl)]
    | none =>
      cases hd' : S.descend ent' r' p with
      | none => rfl
      | some u =>
        rcases h.fresh hr hp hd' with hu | ⟨_, hon, _⟩
        · rw [hd] at hu
          simp at hu
        · have hne : p ≠ [] := by
            rintro rfl
            simp at hd
          exact absurd hon (hoff p hne (List.suffix_cons i p))

/-- The last entry of a way other than `full` is as before. -/
theorem Along.leaf_eq (h : S.Along R ent z r full ent') (hr : R r') (hp : S.Path p)
    (hj : j < S.width) (hoff : ¬ S.On r full r' (j :: p)) :
    S.leaf z ent' r' (j :: p) = S.leaf z ent r' (j :: p) := by
  rw [leaf, leaf]
  cases hd : S.descend ent r' p with
  | some u =>
    rw [h.mono hr hp hd]
    exact h.kept hr hp hd hj hoff
  | none =>
    cases hd' : S.descend ent' r' p with
    | none => rfl
    | some u =>
      rcases h.fresh hr hp hd' with hu | ⟨_, _, hz⟩
      · rw [hd] at hu
        simp at hu
      · exact hz j hj hoff

/-! ### Leaving all entries -/

/-- The entries of the tables. -/
def Same (S : Scheme E) (R : Nat → Prop) (ent ent' : Nat → Nat → E) : Prop :=
  ∀ ⦃u j⦄, S.Reached R ent u → j < S.width → ent' u j = ent u j

theorem Same.descend_eq (h : S.Same R ent ent') (hr : R r) (hp : S.Path p) :
    S.descend ent' r p = S.descend ent r p := by
  induction p with
  | nil => rfl
  | cons i p ih =>
    rw [descend, descend, ih hp.tail]
    cases hu : S.descend ent r p with
    | none => rfl
    | some u => rw [Option.bind_some, Option.bind_some, h ⟨r, p, hr, hp.tail, hu⟩ hp.head_lt]

theorem Same.along (h : S.Same R ent ent') : S.Along R ent z r [] ent' :=
  ⟨fun hr hp hu => (h.descend_eq hr hp).trans hu,
    fun hr hp hu hj _ => h ⟨_, _, hr, hp, hu⟩ hj,
    fun hr hp hu => Or.inl ((h.descend_eq hr hp).symm.trans hu)⟩

theorem Same.reached (h : S.Same R ent ent') (hu : S.Reached R ent' u) : S.Reached R ent u := by
  obtain ⟨r, p, hr, hp, hd⟩ := hu
  exact ⟨r, p, hr, hp, (h.descend_eq hr hp).symm.trans hd⟩

theorem Same.trans (h : S.Same R ent ent') (h' : S.Same R ent' ent'') : S.Same R ent ent'' := by
  rintro u j ⟨r, p, hr, hp, hu⟩ hj
  rw [h' ⟨r, p, hr, hp, (h.descend_eq hr hp).trans hu⟩ hj, h ⟨r, p, hr, hp, hu⟩ hj]

/-! ### Rewriting an entry -/

/-- The entries of the tables, except for one. -/
def SameBut (S : Scheme E) (R : Nat → Prop) (ent ent' : Nat → Nat → E) (t i : Nat) : Prop :=
  ∀ ⦃u j⦄, S.Reached R ent u → j < S.width → (u = t → j ≠ i) → ent' u j = ent u j

section Rewrite

variable (htree : S.Tree R ent) (hr : R r) (hp : S.Path p) (ht : S.descend ent r p = some t)
variable (hsame : S.SameBut R ent ent' t i)
include htree hr hp ht hsame

/-- The entry of a table is the rewritten one only at its place. -/
theorem SameBut.eq_of_not_on (hr' : R r') (hp' : S.Path p') (hu : S.descend ent r' p' = some u)
    (hj : j < S.width) (hfull : i :: p <:+ full) (hn : ¬ S.On r full r' (j :: p')) :
    ent' u j = ent u j := by
  refine hsame ⟨r', p', hr', hp', hu⟩ hj ?_
  rintro rfl rfl
  obtain ⟨rfl, ho⟩ := htree hr hr' hp hp' ht hu
  exact hn ⟨hfull, ho.symm⟩

/-- An entry is rewritten, and the pointer is not moved or lies below the last tables. -/
theorem SameBut.descend_eq (hkeep : p.length < S.depth → S.child (ent' t i) = S.child (ent t i))
    (hr' : R r') (hp' : S.Path p') : S.descend ent' r' p' = S.descend ent r' p' := by
  induction p' with
  | nil => rfl
  | cons j q ih =>
    rw [descend, descend, ih hp'.tail]
    cases hu : S.descend ent r' q with
    | none => rfl
    | some u =>
      rw [Option.bind_some, Option.bind_some]
      by_cases hut : u = t ∧ j = i
      · obtain ⟨rfl, rfl⟩ := hut
        obtain ⟨rfl, _⟩ := htree hr hr' hp hp'.tail ht hu
        exact hkeep hp'.le
      · rw [hsame ⟨r', q, hr', hp'.tail, hu⟩ hp'.head_lt fun h1 h2 => hut ⟨h1, h2⟩]

theorem SameBut.along (hkeep : p.length < S.depth → S.child (ent' t i) = S.child (ent t i))
    (hfull : i :: p <:+ full) : S.Along R ent z r full ent' := by
  have hd : ∀ {r' p'}, R r' → S.Path p' → S.descend ent' r' p' = S.descend ent r' p' :=
    fun hr' hp' => SameBut.descend_eq htree hr hp ht hsame hkeep hr' hp'
  refine ⟨fun hr' hp' hu => (hd hr' hp').trans hu, fun hr' hp' hu hj hn => ?_,
    fun hr' hp' hu => Or.inl ((hd hr' hp').symm.trans hu)⟩
  exact hsame.eq_of_not_on htree hr hp ht hr' hp' hu hj hfull hn

theorem SameBut.tree (hkeep : p.length < S.depth → S.child (ent' t i) = S.child (ent t i)) :
    S.Tree R ent' := by
  intro r₁ r₂ p₁ p₂ u h1 h2 hp1 hp2 hd1 hd2
  rw [SameBut.descend_eq htree hr hp ht hsame hkeep h1 hp1] at hd1
  rw [SameBut.descend_eq htree hr hp ht hsame hkeep h2 hp2] at hd2
  exact htree h1 h2 hp1 hp2 hd1 hd2

/-! ### Linking a new table -/

variable (hz : S.child z = none) (hnone : S.child (ent t i) = none)
variable (hf : S.child (ent' t i) = some f) (hblank : ∀ j < S.width, ent' f j = z)
include hz hnone hf hblank

omit htree hr hp ht in
theorem SameBut.link_descend (hr' : R r') (hp' : S.Path p') :
    S.descend ent' r' p' = some u ↔ S.descend ent r' p' = some u ∨
      u = f ∧ ∃ q, p' = i :: q ∧ S.descend ent r' q = some t := by
  induction p' generalizing u with
  | nil => simp
  | cons j q ih =>
    rw [descend_cons, descend_cons]
    constructor
    · rintro ⟨v, hv, hc⟩
      rcases (ih hp'.tail).mp hv with hv' | ⟨rfl, _⟩
      · by_cases hvt : v = t ∧ j = i
        · obtain ⟨rfl, rfl⟩ := hvt
          rw [hf] at hc
          exact Or.inr ⟨(Option.some.inj hc).symm, q, rfl, hv'⟩
        · rw [hsame ⟨r', q, hr', hp'.tail, hv'⟩ hp'.head_lt fun h1 h2 => hvt ⟨h1, h2⟩] at hc
          exact Or.inl ⟨v, hv', hc⟩
      · rw [hblank j hp'.head_lt, hz] at hc
        simp at hc
    · rintro (⟨v, hv, hc⟩ | ⟨rfl, q', hq, hv⟩)
      · refine ⟨v, (ih hp'.tail).mpr (Or.inl hv), ?_⟩
        rw [hsame ⟨r', q, hr', hp'.tail, hv⟩ hp'.head_lt]
        · exact hc
        · rintro rfl rfl
          rw [hnone] at hc
          simp at hc
      · obtain ⟨rfl, rfl⟩ := List.cons.inj hq
        exact ⟨t, (ih hp'.tail).mpr (Or.inl hv), hf⟩

/-- Pointing an unused entry at a blank table is a step along its way. -/
theorem SameBut.link_along (hfull : i :: p <:+ full) : S.Along R ent z r full ent' := by
  have hd : ∀ {r' p' u}, R r' → S.Path p' → (S.descend ent' r' p' = some u ↔
      S.descend ent r' p' = some u ∨ u = f ∧ ∃ q, p' = i :: q ∧ S.descend ent r' q = some t) :=
    fun hr' hp' => SameBut.link_descend hsame hz hnone hf hblank hr' hp'
  refine ⟨fun hr' hp' hu => (hd hr' hp').mpr (Or.inl hu), fun hr' hp' hu hj hn => ?_,
    fun hr' hp' hu => ?_⟩
  · exact hsame.eq_of_not_on htree hr hp ht hr' hp' hu hj hfull hn
  · rcases (hd hr' hp').mp hu with hu | ⟨rfl, q, rfl, hq⟩
    · exact Or.inl hu
    · obtain ⟨rfl, ho⟩ := htree hr hr' hp hp'.tail ht hq
      refine Or.inr ⟨?_, ⟨hfull, ho.symm⟩, fun j hj _ => hblank j hj⟩
      rw [descend, hq, Option.bind_some, hnone]

omit hr hp ht in
theorem SameBut.link_tree (hnew : ¬ S.Reached R ent f) : S.Tree R ent' := by
  have hd : ∀ {r' p' u}, R r' → S.Path p' → (S.descend ent' r' p' = some u ↔
      S.descend ent r' p' = some u ∨ u = f ∧ ∃ q, p' = i :: q ∧ S.descend ent r' q = some t) :=
    fun hr' hp' => SameBut.link_descend hsame hz hnone hf hblank hr' hp'
  intro r₁ r₂ p₁ p₂ u h1 h2 hp1 hp2 hd1 hd2
  rcases (hd h1 hp1).mp hd1 with hd1 | ⟨rfl, q₁, rfl, hq1⟩
  · rcases (hd h2 hp2).mp hd2 with hd2 | ⟨rfl, _⟩
    · exact htree h1 h2 hp1 hp2 hd1 hd2
    · exact absurd ⟨r₁, p₁, h1, hp1, hd1⟩ hnew
  · rcases (hd h2 hp2).mp hd2 with hd2 | ⟨_, q₂, rfl, hq2⟩
    · exact absurd ⟨r₂, p₂, h2, hp2, hd2⟩ hnew
    · obtain ⟨rfl, ho⟩ := htree h1 h2 hp1.tail hp2.tail hq1 hq2
      exact ⟨rfl, origin_cons ho⟩

omit htree hr hp ht in
theorem SameBut.link_reached (hu : S.Reached R ent' u) : S.Reached R ent u ∨ u = f := by
  obtain ⟨r', p', hr', hp', hd⟩ := hu
  rcases (SameBut.link_descend hsame hz hnone hf hblank hr' hp').mp hd with hd | ⟨rfl, _⟩
  · exact Or.inl ⟨r', p', hr', hp', hd⟩
  · exact Or.inr rfl

end Rewrite

end Scheme

end Radix
