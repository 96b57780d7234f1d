import Mathlib.Data.Finset.Sort
import Mathlib.Data.Set.Finite.Lattice
import Zeronix.Fs.Walk

/-!
# Path maps

What the file system is for, without its tree: a finite map from lists of components to files
and directories.  A call resolves its path in the map, decides by the entry it finds there, and
changes that entry or nothing.

`RamFs.paths` reads the map off a tree, and `ramFs_refines_paths` says that the calls of
`src/fs/ramfs.rs` do to it what the calls on maps do, answers and errors included.
-/

namespace Zeronix

/-- What a path names. -/
inductive Entry where
  | file (content : List UInt8)
  | dir
  deriving DecidableEq, Repr

@[ext] structure PathMap where
  get : List String → Option Entry
  finite : {p | get p ≠ none}.Finite

namespace PathMap

open Classical

/-! ### The map -/

/-- The map with one entry changed. -/
noncomputable def set (m : PathMap) (p : List String) (e : Option Entry) : PathMap where
  get := Function.update m.get p e
  finite := by
    refine (m.finite.insert p).subset fun q hq => ?_
    by_cases hqp : q = p
    · exact Or.inl hqp
    · rw [Set.mem_ofPred_eq, Function.update_of_ne hqp] at hq
      exact Or.inr hq

theorem finite_names (m : PathMap) (p : List String) : {k | m.get (p ++ [k]) ≠ none}.Finite := by
  refine m.finite.preimage fun k _ k' _ h => ?_
  exact (List.singleton_inj.mp (List.append_cancel_left h))

/-- The names below a path, in increasing order. -/
noncomputable def names (m : PathMap) (p : List String) : List String :=
  (m.finite_names p).toFinset.sort (· ≤ ·)

/-- A proper prefix that is a file is no directory; otherwise the path names an entry or
nothing. -/
noncomputable def lookup (m : PathMap) (p : List String) : FsResult Entry :=
  if ∃ q c, q <+: p ∧ q ≠ p ∧ m.get q = some (.file c) then .error .notDirectory
  else match m.get p with
    | none => .error .notFound
    | some e => .ok e

/-- The components of a path other than the root whose parent is a directory. -/
noncomputable def target (m : PathMap) (path : String) : FsResult (List String) := do
  let parts ← splitPath path
  if parts = [] then .error .invalidPath
  else match ← m.lookup parts.dropLast with
    | .file _ => .error .notDirectory
    | .dir => .ok parts

/-! ### The calls -/

/-- A call on one entry: `g` decides by the entry and whether there is anything below it. -/
noncomputable def onTarget (m : PathMap) (path : String)
    (g : Option Entry → Bool → FsResult (Option Entry)) : FsResult Unit × PathMap :=
  match m.target path with
  | .error e => (.error e, m)
  | .ok p =>
    match g (m.get p) (decide (m.names p ≠ [])) with
    | .error e => (.error e, m)
    | .ok e => (.ok (), m.set p e)

def newDir : Option Entry → Bool → FsResult (Option Entry)
  | some _, _ => .error .alreadyExists
  | none, _ => .ok (some .dir)

/-- A missing file is created with `init`; the content of a file is replaced by `f`. -/
def edit (init : List UInt8) (f : List UInt8 → List UInt8) :
    Option Entry → Bool → FsResult (Option Entry)
  | some .dir, _ => .error .isDirectory
  | some (.file content), _ => .ok (some (.file (f content)))
  | none, _ => .ok (some (.file init))

def delete : Option Entry → Bool → FsResult (Option Entry)
  | none, _ => .error .notFound
  | some .dir, true => .error .directoryNotEmpty
  | some _, _ => .ok none

noncomputable def mkdir (path : String) (m : PathMap) : FsResult Unit × PathMap :=
  if splitPath path = .ok [] then (.error .alreadyExists, m) else m.onTarget path newDir

noncomputable def touch (path : String) (m : PathMap) : FsResult Unit × PathMap :=
  m.onTarget path (edit [] id)

noncomputable def write (path : String) (data : List UInt8) (m : PathMap) : FsResult Unit × PathMap :=
  m.onTarget path (edit data fun _ => data)

noncomputable def append (path : String) (data : List UInt8) (m : PathMap) :
    FsResult Unit × PathMap :=
  m.onTarget path (edit data (· ++ data))

noncomputable def remove (path : String) (m : PathMap) : FsResult Unit × PathMap :=
  m.onTarget path delete

noncomputable def read (path : String) (m : PathMap) : FsResult (List UInt8) := do
  match ← m.lookup (← splitPath path) with
  | .file content => .ok content
  | .dir => .error .isDirectory

noncomputable def list (path : String) (m : PathMap) : FsResult (List String) := do
  let parts ← splitPath path
  match ← m.lookup parts with
  | .file _ => .error .notDirectory
  | .dir => .ok (m.names parts)

noncomputable def copy (src dst : String) (m : PathMap) : FsResult Unit × PathMap :=
  match m.read src with
  | .error e => (.error e, m)
  | .ok data => m.write dst data

end PathMap

/-! ### The map of a tree -/

namespace Node

def entry : Node → Entry
  | .file content => .file content
  | .dir _ => .dir

/-- What a path names in a tree. -/
def entryAt (n : Node) (p : List String) : Option Entry :=
  match walk p n with
  | .error _ => none
  | .ok m => some m.entry

theorem entryAt_cons (es : Entries) (a : String) (p : List String) :
    entryAt (.dir es) (a :: p) = (SortedMap.get? a es).bind (·.entryAt p) := by
  rw [entryAt, walk]
  cases SortedMap.get? a es with
  | none => rfl
  | some child => rfl

theorem finite_entryAt {n : Node} (h : n.WF) : {p | n.entryAt p ≠ none}.Finite := by
  induction h with
  | file content =>
    refine (Set.finite_singleton []).subset fun p hp => ?_
    cases p with
    | nil => rfl
    | cons a p => exact absurd rfl hp
  | @dir es _ hall ih =>
    have hbelow : (⋃ e ∈ {e | e ∈ es}, (e.1 :: ·) '' {p | e.2.entryAt p ≠ none}).Finite :=
      es.finite_toSet.biUnion fun e he => (ih e he).image _
    refine (hbelow.insert []).subset fun p hp => ?_
    cases p with
    | nil => exact Or.inl rfl
    | cons a p =>
      rw [Set.mem_ofPred_eq, entryAt_cons] at hp
      cases hc : SortedMap.get? a es with
      | none => simp [hc] at hp
      | some child =>
        rw [hc] at hp
        exact Or.inr (Set.mem_biUnion (SortedMap.mem_of_get? hc) ⟨p, hp, rfl⟩)

/-! ### Resolving paths -/

theorem walk_wf {p : List String} {n m : Node} (h : n.WF) (hm : walk p n = .ok m) : m.WF := by
  induction p generalizing n with
  | nil =>
    cases hm
    exact h
  | cons a p ih =>
    cases n with
    | file content => cases hm
    | dir es =>
      rw [walk] at hm
      split at hm
      · cases hm
      · rename_i child hc
        exact ih (h.child hc) hm

/-- A walk that fails meets a file on its way, or runs out of entries. -/
theorem walk_cases (p : List String) (n : Node) :
    (∃ m, walk p n = .ok m ∧ ∀ q c, q <+: p → q ≠ p → walk q n ≠ .ok (.file c)) ∨
    (walk p n = .error .notDirectory ∧ ∃ q c, q <+: p ∧ q ≠ p ∧ walk q n = .ok (.file c)) ∨
    (walk p n = .error .notFound ∧ ∀ q c, q <+: p → q ≠ p → walk q n ≠ .ok (.file c)) := by
  induction p generalizing n with
  | nil => exact Or.inl ⟨n, rfl, fun q c hq hne => absurd (List.prefix_nil.mp hq) hne⟩
  | cons a p ih =>
    cases n with
    | file content =>
      exact Or.inr (Or.inl ⟨rfl, [], content, List.nil_prefix, by simp, rfl⟩)
    | dir es =>
      -- a prefix of a longer path is empty, or it starts with the same step
      have hstep : ∀ {child : Node}, SortedMap.get? a es = some child →
          (∀ q c, q <+: p → q ≠ p → walk q child ≠ .ok (.file c)) →
          ∀ q c, q <+: a :: p → q ≠ a :: p → walk q (.dir es) ≠ .ok (.file c) := by
        intro child hc hno q c hq hne
        cases q with
        | nil => exact fun h => by simp [walk] at h
        | cons b q =>
          obtain ⟨rfl, hqp⟩ := List.cons_prefix_cons.mp hq
          rw [walk, hc]
          exact hno q c hqp fun heq => hne (by rw [heq])
      rw [walk]
      cases hc : SortedMap.get? a es with
      | none =>
        refine Or.inr (Or.inr ⟨rfl, fun q c hq _ => ?_⟩)
        cases q with
        | nil => exact fun h => by simp [walk] at h
        | cons b q =>
          obtain ⟨rfl, _⟩ := List.cons_prefix_cons.mp hq
          rw [walk, hc]
          simp
      | some child =>
        rcases ih child with ⟨m, hm, hno⟩ | ⟨hm, q, c, hq, hne, hqc⟩ | ⟨hm, hno⟩
        · exact Or.inl ⟨m, hm, hstep hc hno⟩
        · refine Or.inr (Or.inl ⟨hm, a :: q, c, List.cons_prefix_cons.mpr ⟨rfl, hq⟩, ?_, ?_⟩)
          · exact fun heq => hne (List.cons.inj heq).2
          · rw [walk, hc]
            exact hqc
        · exact Or.inr (Or.inr ⟨hm, hstep hc hno⟩)

theorem entryAt_eq_file {n : Node} {p : List String} {c : List UInt8} :
    n.entryAt p = some (.file c) ↔ walk p n = .ok (.file c) := by
  rw [entryAt]
  cases walk p n with
  | error e => simp
  | ok m => cases m <;> simp [entry]

theorem entryAt_of_walk {n m : Node} {p : List String} (h : walk p n = .ok m) :
    n.entryAt p = some m.entry := by
  rw [entryAt, h]

/-! ### Edits of one entry -/

/-- There is nothing below the node. -/
def Leaf (n : Node) : Prop := ∀ r, r ≠ [] → n.entryAt r = none

theorem leaf_file (content : List UInt8) : Leaf (.file content) := by
  intro r hr
  cases r with
  | nil => exact absurd rfl hr
  | cons a r => rfl

theorem leaf_empty : Leaf (.dir []) := by
  intro r hr
  cases r with
  | nil => exact absurd rfl hr
  | cons a r => rfl

theorem entryAt_append {p : List String} {n m : Node} (h : walk p n = .ok m) (r : List String) :
    n.entryAt (p ++ r) = m.entryAt r := by
  rw [entryAt, walk_append, h]
  rfl

/-- What is on the way to something is a directory. -/
theorem walk_prefix {q r : List String} {n m : Node} (h : walk (q ++ r) n = .ok m) (hr : r ≠ []) :
    ∃ es, walk q n = .ok (.dir es) := by
  rw [walk_append] at h
  cases hq : walk q n with
  | error e =>
    rw [hq] at h
    cases h
  | ok m' =>
    cases m' with
    | dir es => exact ⟨es, rfl⟩
    | file content =>
      rw [hq] at h
      cases r with
      | nil => exact absurd rfl hr
      | cons a r => cases h

section Edit

variable {α : Type} {f : Entries → FsResult α × Entries}

theorem entry_dirMut (r : List String) (es : Entries) : (dirMut f r (.dir es)).2.entry = .dir := by
  cases r with
  | nil => rfl
  | cons a r =>
    rw [dirMut]
    cases SortedMap.get? a es <;> rfl

/-- **An edit of one entry changes nothing beside it.** -/
theorem entryAt_dirMut_other {p q : List String} {name : String} {n : Node} {es : Entries}
    (h : walk p n = .ok (.dir es))
    (hother : ∀ k, k ≠ name → SortedMap.get? k (f es).2 = SortedMap.get? k es)
    (hq : ¬ p ++ [name] <+: q) : (dirMut f p n).2.entryAt q = n.entryAt q := by
  by_cases hpq : p <+: q
  · obtain ⟨r, rfl⟩ := hpq
    have hbelow : (dirMut f p n).2.entryAt (p ++ r) = entryAt (.dir (f es).2) r := by
      rw [entryAt, walk_dirMut_below h r]
      rfl
    rw [hbelow, entryAt_append h]
    cases r with
    | nil => rfl
    | cons a r =>
      have ha : a ≠ name := by
        rintro rfl
        exact hq ⟨r, by simp⟩
      rw [entryAt_cons, entryAt_cons, hother a ha]
  · by_cases hqp : q <+: p
    · obtain ⟨r, rfl⟩ := hqp
      have hr : r ≠ [] := by
        rintro rfl
        exact hpq (by simp)
      obtain ⟨ds, hds⟩ := walk_prefix h hr
      rw [entryAt_of_walk hds, entryAt, walk_dirMut_prefix, hds]
      exact congrArg some (entry_dirMut r ds)
    · rw [entryAt, walk_dirMut_of_not_prefix n hqp hpq]
      rfl

/-- **An edit of one entry changes the map at one place**, when there is nothing below the
entry, before or after. -/
theorem entryAt_dirMut {p : List String} {name : String} {n : Node} {es : Entries}
    (h : walk p n = .ok (.dir es))
    (hother : ∀ k, k ≠ name → SortedMap.get? k (f es).2 = SortedMap.get? k es)
    (hold : ∀ c, SortedMap.get? name es = some c → c.Leaf)
    (hnew : ∀ c, SortedMap.get? name (f es).2 = some c → c.Leaf) :
    (dirMut f p n).2.entryAt = Function.update n.entryAt (p ++ [name])
      ((SortedMap.get? name (f es).2).map entry) := by
  funext q
  by_cases hq : p ++ [name] <+: q
  · obtain ⟨r, rfl⟩ := hq
    have hbelow : (dirMut f p n).2.entryAt (p ++ [name] ++ r) = entryAt (.dir (f es).2) (name :: r) := by
      rw [List.append_assoc, entryAt, walk_dirMut_below h]
      rfl
    rw [hbelow, entryAt_cons]
    cases r with
    | nil =>
      rw [List.append_nil, Function.update_self]
      cases SortedMap.get? name (f es).2 <;> rfl
    | cons b r =>
      rw [Function.update_of_ne (by simp), List.append_assoc, entryAt_append h, List.singleton_append,
        entryAt_cons]
      cases hc : SortedMap.get? name (f es).2 with
      | none =>
        cases hc' : SortedMap.get? name es with
        | none => rfl
        | some c' => exact (hold c' hc' (b :: r) (by simp)).symm
      | some c =>
        cases hc' : SortedMap.get? name es with
        | none => exact hnew c hc (b :: r) (by simp)
        | some c' => exact (hnew c hc (b :: r) (by simp)).trans (hold c' hc' (b :: r) (by simp)).symm
  · have hne : q ≠ p ++ [name] := fun heq => hq (heq ▸ List.prefix_refl _)
    rw [Function.update_of_ne hne, entryAt_dirMut_other h hother hq]

end Edit

/-- **A tree is determined by its map.** -/
theorem WF.eq_of_entryAt {n m : Node} (h : n.WF) (hm : m.WF) (heq : n.entryAt = m.entryAt) : n = m := by
  induction h generalizing m with
  | file content =>
    have hroot := congrFun heq []
    cases m with
    | file content' =>
      cases hroot
      rfl
    | dir es => cases hroot
  | @dir es hsorted hall ih =>
    cases m with
    | file content' => cases congrFun heq []
    | dir es' =>
      refine congrArg Node.dir (hsorted.ext hm.sorted fun k => ?_)
      have hbelow : ∀ p, (SortedMap.get? k es).bind (·.entryAt p) =
          (SortedMap.get? k es').bind (·.entryAt p) := by
        intro p
        rw [← entryAt_cons, ← entryAt_cons, heq]
      cases hc : SortedMap.get? k es with
      | none =>
        cases hc' : SortedMap.get? k es' with
        | none => rfl
        | some c' =>
          have hroot := hbelow []
          rw [hc, hc'] at hroot
          cases hroot
      | some c =>
        cases hc' : SortedMap.get? k es' with
        | none =>
          have hroot := hbelow []
          rw [hc, hc'] at hroot
          cases hroot
        | some c' =>
          rw [hc, hc'] at hbelow
          exact congrArg some (ih _ (SortedMap.mem_of_get? hc) (hm.child hc') (funext hbelow))

end Node

namespace RamFs

def paths (fs : RamFs) : PathMap where
  get := fs.root.entryAt
  finite := Node.finite_entryAt fs.wf

variable (fs : RamFs)

/-- **Both resolvers are the lookup of the map.** -/
theorem lookup_paths (p : List String) : fs.paths.lookup p = (fs.root.walk p).map Node.entry := by
  have hfile : ∀ q c, fs.paths.get q = some (.file c) ↔ fs.root.walk q = .ok (.file c) :=
    fun q c => Node.entryAt_eq_file
  rw [PathMap.lookup]
  rcases Node.walk_cases p fs.root with ⟨m, hm, hno⟩ | ⟨hm, q, c, hq, hne, hqc⟩ | ⟨hm, hno⟩
  · rw [if_neg]
    · have hget : fs.paths.get p = some m.entry := Node.entryAt_of_walk hm
      rw [hget, hm]
      rfl
    · rintro ⟨q, c, hq, hne, hqc⟩
      exact hno q c hq hne ((hfile q c).mp hqc)
  · rw [if_pos ⟨q, c, hq, hne, (hfile q c).mpr hqc⟩, hm]
    rfl
  · rw [if_neg]
    · have hget : fs.paths.get p = none := by
        show fs.root.entryAt p = none
        rw [Node.entryAt, hm]
      rw [hget, hm]
      rfl
    · rintro ⟨q, c, hq, hne, hqc⟩
      exact hno q c hq hne ((hfile q c).mp hqc)

/-- The names below a directory are the keys of its entries. -/
theorem names_of_dir {p : List String} {es : Entries} (h : fs.root.walk p = .ok (.dir es)) :
    fs.paths.names p = es.map Prod.fst := by
  have hsorted : SortedMap.Sorted es := (Node.walk_wf fs.wf h).sorted
  have hlt : (es.map Prod.fst).Pairwise (· < ·) := List.pairwise_map.mpr hsorted
  have hset : (fs.paths.finite_names p).toFinset = (es.map Prod.fst).toFinset := by
    ext k
    rw [Set.Finite.mem_toFinset, List.mem_toFinset, Set.mem_ofPred_eq]
    have hget : fs.paths.get (p ++ [k]) = (SortedMap.get? k es).map Node.entry := by
      show fs.root.entryAt (p ++ [k]) = _
      rw [Node.entryAt, Node.walk_append, h]
      simp only [bind, Except.bind, Node.walk]
      cases SortedMap.get? k es <;> rfl
    rw [hget, ne_eq, Option.map_eq_none_iff, SortedMap.get?_eq_none_iff, List.mem_map]
    simp
  rw [PathMap.names, hset, List.toFinset_sort _ (hlt.imp ne_of_lt)]
  exact hlt.imp le_of_lt

/-- There are no names below a file or below nothing. -/
theorem names_of_not_dir {p : List String} (h : ∀ es, fs.root.walk p ≠ .ok (.dir es)) :
    fs.paths.names p = [] := by
  have hempty : (fs.paths.finite_names p).toFinset = ∅ := by
    ext k
    rw [Set.Finite.mem_toFinset, Set.mem_ofPred_eq]
    have hget : fs.paths.get (p ++ [k]) = none := by
      show fs.root.entryAt (p ++ [k]) = none
      rw [Node.entryAt, Node.walk_append]
      cases hp : fs.root.walk p with
      | error e => rfl
      | ok m =>
        cases m with
        | file content => rfl
        | dir es => exact absurd hp (h es)
    simp [hget]
  rw [PathMap.names, hempty, Finset.sort_empty]

/-! ### The calls -/

/-- Whether a node has entries. -/
def full : Option Node → Bool
  | some (.dir (_ :: _)) => true
  | _ => false

/-- What is done to a directory is what `g` decides about one entry of it. -/
structure Decides (f : Entries → FsResult Unit × Entries)
    (g : Option Entry → Bool → FsResult (Option Entry)) (name : String) (es : Entries) : Prop where
  error : ∀ e, g ((SortedMap.get? name es).map Node.entry) (full (SortedMap.get? name es)) = .error e →
    f es = (.error e, es)
  ok : ∀ e, g ((SortedMap.get? name es).map Node.entry) (full (SortedMap.get? name es)) = .ok e →
    (f es).1 = .ok () ∧ (∀ k, k ≠ name → SortedMap.get? k (f es).2 = SortedMap.get? k es) ∧
    (SortedMap.get? name (f es).2).map Node.entry = e ∧
    (∀ c, SortedMap.get? name es = some c → c.Leaf) ∧
    ∀ c, SortedMap.get? name (f es).2 = some c → c.Leaf

theorem names_eq_full {p : List String} {name : String} {es : Entries}
    (h : fs.root.walk p = .ok (.dir es)) :
    decide (fs.paths.names (p ++ [name]) ≠ []) = full (SortedMap.get? name es) := by
  cases hc : SortedMap.get? name es with
  | none =>
    rw [fs.names_of_not_dir fun ds hds => ?_]
    · rfl
    · rw [Node.walk_snoc_none h name hc] at hds
      cases hds
  | some c =>
    have hw := Node.walk_snoc h name hc
    cases c with
    | file content =>
      rw [fs.names_of_not_dir fun ds hds => ?_]
      · rfl
      · rw [hw] at hds
        cases hds
    | dir ds =>
      rw [fs.names_of_dir hw]
      cases ds with
      | nil => rfl
      | cons d ds => simp [full]

/-- **A call on one entry refines the call on the map.** -/
theorem onEntry_refines (path : String) {f : String → Entries → FsResult Unit × Entries}
    {g : Option Entry → Bool → FsResult (Option Entry)} (hfg : ∀ name es, Decides (f name) g name es) :
    (fs.root.onEntry path f).1 = (fs.paths.onTarget path g).1 ∧
      (fs.root.onEntry path f).2.entryAt = (fs.paths.onTarget path g).2.get := by
  have hget : fs.paths.get = fs.root.entryAt := rfl
  rw [Node.onEntry, PathMap.onTarget, PathMap.target]
  cases hsplit : splitPath path with
  | error e => exact ⟨rfl, rfl⟩
  | ok parts =>
    rcases List.eq_nil_or_concat parts with rfl | ⟨p, name, rfl⟩
    · exact ⟨rfl, rfl⟩
    · rw [List.concat_eq_append]
      have hparent : splitParent (p ++ [name]) = .ok (p, name) := by simp [splitParent]
      simp only [bind, Except.bind, hparent, List.append_eq_nil_iff, List.cons_ne_nil, and_false,
        if_false, List.dropLast_concat, fs.lookup_paths]
      cases hw : fs.root.walk p with
      | error e =>
        refine ⟨by rw [Node.dirMut_fst, hw]; rfl, ?_⟩
        rw [Node.dirMut_unchanged fs.wf fun es hes => ?_]
        · rfl
        · rw [hw] at hes
          cases hes
      | ok m =>
        cases m with
        | file content =>
          refine ⟨by rw [Node.dirMut_fst, hw]; rfl, ?_⟩
          rw [Node.dirMut_unchanged fs.wf fun es hes => ?_]
          · rfl
          · rw [hw] at hes
            cases hes
        | dir es =>
          have hentry : fs.paths.get (p ++ [name]) = (SortedMap.get? name es).map Node.entry := by
            rw [hget, Node.entryAt_append hw, Node.entryAt_cons]
            cases SortedMap.get? name es <;> rfl
          have hd := hfg name es
          simp only [Except.map, Node.entry, fs.names_eq_full hw, hentry]
          cases hg : g ((SortedMap.get? name es).map Node.entry) (full (SortedMap.get? name es)) with
          | error e =>
            have hf := hd.error e hg
            refine ⟨by rw [Node.dirMut_fst, hw]; exact congrArg Prod.fst hf, ?_⟩
            rw [Node.dirMut_unchanged fs.wf fun es' hes' => ?_]
            · rfl
            · rw [hw] at hes'
              cases hes'
              rw [hf]
          | ok e =>
            obtain ⟨hfst, hother, hnew, hleaf, hleaf'⟩ := hd.ok e hg
            refine ⟨by rw [Node.dirMut_fst, hw]; exact hfst, ?_⟩
            rw [Node.entryAt_dirMut hw hother hleaf hleaf', hnew]
            rfl

section Decides

variable {f : Entries → FsResult Unit × Entries} {g : Option Entry → Bool → FsResult (Option Entry)}
variable {name : String} {es es' : Entries}

theorem Decides.of_error {e : FsError}
    (hg : g ((SortedMap.get? name es).map Node.entry) (full (SortedMap.get? name es)) = .error e)
    (hf : f es = (.error e, es)) : Decides f g name es := by
  refine ⟨fun e' he => ?_, fun e' he => ?_⟩
  · rw [hg] at he
    cases he
    exact hf
  · rw [hg] at he
    cases he

theorem Decides.of_ok {e : Option Entry}
    (hg : g ((SortedMap.get? name es).map Node.entry) (full (SortedMap.get? name es)) = .ok e)
    (hf : f es = (.ok (), es'))
    (hother : ∀ k, k ≠ name → SortedMap.get? k es' = SortedMap.get? k es)
    (hnew : (SortedMap.get? name es').map Node.entry = e)
    (hold : ∀ c, SortedMap.get? name es = some c → c.Leaf)
    (hleaf : ∀ c, SortedMap.get? name es' = some c → c.Leaf) : Decides f g name es := by
  refine ⟨fun e' he => ?_, fun e' he => ?_⟩
  · rw [hg] at he
    cases he
  · rw [hg] at he
    cases he
    rw [hf]
    exact ⟨rfl, hother, hnew, hold, hleaf⟩

/-- A new leaf in place of a leaf or of nothing. -/
theorem Decides.of_insert {node : Node} (hnode : node.Leaf)
    (hold : ∀ c, SortedMap.get? name es = some c → c.Leaf)
    (hg : g ((SortedMap.get? name es).map Node.entry) (full (SortedMap.get? name es)) =
      .ok (some node.entry))
    (hf : f es = (.ok (), SortedMap.insert name node es)) : Decides f g name es := by
  refine .of_ok hg hf (fun k hk => SortedMap.get?_insert_of_ne hk _ _) ?_ hold fun c hc => ?_
  · rw [SortedMap.get?_insert_self]
    rfl
  · rw [SortedMap.get?_insert_self] at hc
    exact Option.some.inj hc ▸ hnode

/-- A leaf that goes. -/
theorem Decides.of_erase (hold : ∀ c, SortedMap.get? name es = some c → c.Leaf)
    (hg : g ((SortedMap.get? name es).map Node.entry) (full (SortedMap.get? name es)) = .ok none)
    (hf : f es = (.ok (), SortedMap.erase name es)) : Decides f g name es := by
  refine .of_ok hg hf (fun k hk => SortedMap.get?_erase_of_ne hk _) ?_ hold fun c hc => ?_
  · rw [SortedMap.get?_erase_self]
    rfl
  · rw [SortedMap.get?_erase_self] at hc
    cases hc

end Decides

theorem decides_newDir (name : String) (es : Entries) :
    Decides (Node.insertNew (.dir []) name) PathMap.newDir name es := by
  cases hc : SortedMap.get? name es with
  | some c => exact .of_error (by rw [hc]; rfl) (by rw [Node.insertNew, hc]; rfl)
  | none =>
    refine .of_insert Node.leaf_empty (fun c hc' => ?_) (by rw [hc]; rfl)
      (by rw [Node.insertNew, hc]; rfl)
    rw [hc] at hc'
    cases hc'

theorem decides_edit (init : List UInt8) (f : List UInt8 → List UInt8) (name : String) (es : Entries) :
    Decides (Node.editFile init f name) (PathMap.edit init f) name es := by
  cases hc : SortedMap.get? name es with
  | none =>
    refine .of_insert (Node.leaf_file init) (fun c hc' => ?_) (by rw [hc]; rfl)
      (by rw [Node.editFile, hc])
    rw [hc] at hc'
    cases hc'
  | some c =>
    cases c with
    | file content =>
      refine .of_insert (Node.leaf_file (f content)) (fun c hc' => ?_) (by rw [hc]; rfl)
        (by rw [Node.editFile, hc])
      rw [hc] at hc'
      exact Option.some.inj hc' ▸ Node.leaf_file content
    | dir ds => exact .of_error (by rw [hc]; rfl) (by rw [Node.editFile, hc])

theorem decides_delete (name : String) (es : Entries) :
    Decides (Node.removeEntry name) PathMap.delete name es := by
  cases hc : SortedMap.get? name es with
  | none => exact .of_error (by rw [hc]; rfl) (by rw [Node.removeEntry, hc])
  | some c =>
    cases c with
    | file content =>
      refine .of_erase (fun c hc' => ?_) (by rw [hc]; rfl) (by rw [Node.removeEntry, hc])
      rw [hc] at hc'
      exact Option.some.inj hc' ▸ Node.leaf_file content
    | dir ds =>
      cases ds with
      | nil =>
        refine .of_erase (fun c hc' => ?_) (by rw [hc]; rfl) (by rw [Node.removeEntry, hc])
        rw [hc] at hc'
        exact Option.some.inj hc' ▸ Node.leaf_empty
      | cons d ds => exact .of_error (by rw [hc]; rfl) (by rw [Node.removeEntry, hc])

/-- The answer of a call and the tree it leaves are those of the call on maps. -/
def Refines (op : RamFs → FsResult Unit × RamFs) (spec : PathMap → FsResult Unit × PathMap) : Prop :=
  ∀ fs, (op fs).1 = (spec fs.paths).1 ∧ (op fs).2.paths = (spec fs.paths).2

theorem touch_refines (path : String) : Refines (touch path) (PathMap.touch path) := by
  intro fs
  obtain ⟨hres, htree⟩ := fs.onEntry_refines path (decides_edit [] id)
  exact ⟨hres, PathMap.ext htree⟩

theorem write_refines (path : String) (data : List UInt8) :
    Refines (write path data) (PathMap.write path data) := by
  intro fs
  obtain ⟨hres, htree⟩ := fs.onEntry_refines path (decides_edit data fun _ => data)
  exact ⟨hres, PathMap.ext htree⟩

theorem append_refines (path : String) (data : List UInt8) :
    Refines (append path data) (PathMap.append path data) := by
  intro fs
  obtain ⟨hres, htree⟩ := fs.onEntry_refines path (decides_edit data (· ++ data))
  exact ⟨hres, PathMap.ext htree⟩

theorem read_refines (path : String) : fs.read path = fs.paths.read path := by
  rw [RamFs.read, Node.read, PathMap.read]
  cases splitPath path with
  | error e => rfl
  | ok parts =>
    simp only [bind, Except.bind, fs.lookup_paths]
    cases fs.root.walk parts with
    | error e => rfl
    | ok m => cases m <;> rfl

theorem list_refines (path : String) : fs.list path = fs.paths.list path := by
  rw [RamFs.list, Node.list, PathMap.list]
  cases splitPath path with
  | error e => rfl
  | ok parts =>
    simp only [bind, Except.bind, fs.lookup_paths]
    cases hw : fs.root.walk parts with
    | error e => rfl
    | ok m =>
      cases m with
      | file content => rfl
      | dir es => exact congrArg Except.ok (fs.names_of_dir hw).symm

theorem mkdir_refines (path : String) : Refines (mkdir path) (PathMap.mkdir path) := by
  intro fs
  have hentry := fs.onEntry_refines path decides_newDir
  have hmk : (fs.root.mkdir path).1 = (fs.paths.mkdir path).1 ∧
      (fs.root.mkdir path).2.entryAt = (fs.paths.mkdir path).2.get := by
    rw [Node.mkdir, PathMap.mkdir]
    cases hsplit : splitPath path with
    | error e =>
      rw [if_neg (by simp)]
      rw [Node.onEntry, hsplit] at hentry
      exact hentry
    | ok parts =>
      cases parts with
      | nil =>
        rw [if_pos rfl]
        exact ⟨rfl, rfl⟩
      | cons a parts =>
        rw [if_neg (by simp)]
        exact hentry
  exact ⟨hmk.1, PathMap.ext hmk.2⟩

theorem remove_refines (path : String) : Refines (remove path) (PathMap.remove path) := by
  intro fs
  obtain ⟨hres, htree⟩ := fs.onEntry_refines path decides_delete
  exact ⟨hres, PathMap.ext htree⟩

theorem copy_refines (src dst : String) : Refines (copy src dst) (PathMap.copy src dst) := by
  intro fs
  have hread : fs.root.read src = fs.paths.read src := fs.read_refines src
  have hcopy : (fs.root.copy src dst).1 = (fs.paths.copy src dst).1 ∧
      (fs.root.copy src dst).2.entryAt = (fs.paths.copy src dst).2.get := by
    rw [Node.copy, PathMap.copy, hread]
    cases fs.paths.read src with
    | error e => exact ⟨rfl, rfl⟩
    | ok content => exact fs.onEntry_refines dst (decides_edit content fun _ => content)
  exact ⟨hcopy.1, PathMap.ext hcopy.2⟩

/-- **The tree refines the path map**, call by call: answers, errors and the one entry that
changes. -/
theorem ramFs_refines_paths (path dst : String) (data : List UInt8) :
    (∀ fs : RamFs, fs.read path = fs.paths.read path) ∧
    (∀ fs : RamFs, fs.list path = fs.paths.list path) ∧
    Refines (mkdir path) (PathMap.mkdir path) ∧
    Refines (touch path) (PathMap.touch path) ∧
    Refines (write path data) (PathMap.write path data) ∧
    Refines (append path data) (PathMap.append path data) ∧
    Refines (remove path) (PathMap.remove path) ∧
    Refines (copy path dst) (PathMap.copy path dst) :=
  ⟨fun fs => fs.read_refines path, fun fs => fs.list_refines path, mkdir_refines path,
    touch_refines path, write_refines path data, append_refines path data, remove_refines path,
    copy_refines path dst⟩

/-- The map determines the file system. -/
theorem ext_paths {fs fs' : RamFs} (h : fs.paths = fs'.paths) : fs = fs' :=
  RamFs.ext (fs.wf.eq_of_entryAt fs'.wf (congrArg PathMap.get h))

end RamFs

end Zeronix
