import Zeronix.Fs.Walk

/-!
# Renaming and its failures

`RamFs::rename` takes the source out of the tree first and looks at the target after.
When the target then turns out to be bad, the error is returned and the source stays out.
What `walk` finds once the source is out (`walk_taken`, `walk_not_taken`) tells
when that happens, and `rename_atomic_iff` states it as a condition on the tree and the
two paths.
-/

namespace Zeronix

namespace Node

theorem renamePaths_eq_ok {old new name newName : String} {p q : List String} :
    renamePaths old new = .ok ((p, name), q, newName) ↔
      splitPath old = .ok (p ++ [name]) ∧ splitPath new = .ok (q ++ [newName]) := by
  have hparent : ∀ {parts q : List String} {name : String},
      splitParent parts = .ok (q, name) ↔ parts = q ++ [name] := by
    intro parts q name
    rcases List.eq_nil_or_concat parts with rfl | ⟨l, a, rfl⟩
    · simp [splitParent]
    · simp [splitParent]
  rw [renamePaths]
  cases splitPath old with
  | error e => simp [bind, Except.bind]
  | ok oldParts =>
    cases splitPath new with
    | error e => simp [bind, Except.bind]
    | ok newParts =>
      simp only [bind, Except.bind, Except.ok.injEq]
      constructor
      · intro h
        split at h
        · cases h
        · rename_i o ho
          split at h
          · cases h
          · rename_i n hn
            cases h
            exact ⟨hparent.mp ho, hparent.mp hn⟩
      · rintro ⟨rfl, rfl⟩
        rw [hparent.mpr rfl, hparent.mpr rfl]
        rfl

/-! ### Taking the source out -/

theorem takeEntry_ok_iff {p : List String} {name : String} {n node : Node} :
    (dirMut (takeEntry name) p n).1 = .ok node ↔ walk (p ++ [name]) n = .ok node := by
  rw [dirMut_fst, walk_append]
  cases walk p n with
  | error e => exact Iff.rfl
  | ok m =>
    cases m with
    | file content =>
      constructor
      · intro h
        cases h
      · intro h
        cases h
    | dir es =>
      simp only [bind, Except.bind, walk, takeEntry]
      cases SortedMap.get? name es with
      | none =>
        constructor
        · intro h
          cases h
        · intro h
          cases h
      | some child => exact Iff.rfl

theorem takeEntry_error {p : List String} {name : String} {n : Node} {e : FsError} (h : n.WF)
    (he : (dirMut (takeEntry name) p n).1 = .error e) : (dirMut (takeEntry name) p n).2 = n := by
  refine dirMut_unchanged h fun es hw => ?_
  rw [dirMut_fst, hw] at he
  simp only [takeEntry] at he ⊢
  cases hc : SortedMap.get? name es with
  | none => rfl
  | some child =>
    rw [hc] at he
    cases he

theorem walk_taken {p q : List String} {name : String} {n : Node} (hq : p ++ [name] <+: q) :
    ∀ m, walk q (dirMut (takeEntry name) p n).2 ≠ .ok m := by
  obtain ⟨r, rfl⟩ := hq
  intro m hm
  have hp := walk_dirMut_prefix (f := takeEntry name) p [] n
  rw [List.append_nil] at hp
  rw [List.append_assoc, walk_append, hp] at hm
  cases hw : walk p n with
  | error e =>
    rw [hw] at hm
    cases hm
  | ok m =>
    rw [hw] at hm
    cases m with
    | file content => cases hm
    | dir es =>
      simp only [Except.map, bind, Except.bind, dirMut, takeEntry, List.singleton_append] at hm
      cases hc : SortedMap.get? name es with
      | none => simp only [hc, walk, reduceCtorEq] at hm
      | some child => simp only [hc, walk, SortedMap.get?_erase_self, reduceCtorEq] at hm

/-- A change that leaves files alone and keeps, up to the source, the names of directories. -/
structure SameNames (old q : List String) (g : Node → Node) : Prop where
  file : ∀ content, g (.file content) = .file content
  dir : ∀ es, ∃ es', g (.dir es) = .dir es' ∧
    ∀ k, q ++ [k] ≠ old → (SortedMap.get? k es').isSome = (SortedMap.get? k es).isSome

theorem sameNames_id (old q : List String) : SameNames old q id :=
  ⟨fun _ => rfl, fun es => ⟨es, rfl, fun _ _ => rfl⟩⟩

theorem sameNames_take (q r : List String) (name : String) :
    SameNames (q ++ r ++ [name]) q fun m => (dirMut (takeEntry name) r m).2 := by
  refine ⟨fun content => by cases r <;> rfl, fun es => ?_⟩
  cases r with
  | nil =>
    refine ⟨(takeEntry name es).2, rfl, fun k hk => ?_⟩
    have hne : k ≠ name := by
      rintro rfl
      exact hk (by rw [List.append_nil])
    rw [takeEntry]
    cases SortedMap.get? name es with
    | none => rfl
    | some child => exact congrArg Option.isSome (SortedMap.get?_erase_of_ne hne es)
  | cons a r =>
    simp only [dirMut]
    cases hc : SortedMap.get? a es with
    | none => exact ⟨es, rfl, fun _ _ => rfl⟩
    | some child =>
      refine ⟨_, rfl, fun k _ => ?_⟩
      by_cases hka : k = a
      · rw [hka, SortedMap.get?_insert_self, hc]
        rfl
      · rw [SortedMap.get?_insert_of_ne hka]

theorem walk_not_taken {p q : List String} {name : String} (n : Node)
    (hq : ¬ p ++ [name] <+: q) :
    ∃ g, SameNames (p ++ [name]) q g ∧
      walk q (dirMut (takeEntry name) p n).2 = (walk q n).map g := by
  have hid : (walk q n).map id = walk q n := by cases walk q n <;> rfl
  by_cases hqp : q <+: p
  · obtain ⟨r, rfl⟩ := hqp
    exact ⟨_, sameNames_take q r name, walk_dirMut_prefix q r n⟩
  · refine ⟨id, sameNames_id _ _, ?_⟩
    rw [hid]
    by_cases hpq : p <+: q
    · obtain ⟨r, rfl⟩ := hpq
      cases r with
      | nil => exact absurd (by simp) hqp
      | cons a r =>
        -- below the edited directory, in an entry other than the source
        have hne : a ≠ name := by
          rintro rfl
          exact hq ⟨r, by simp⟩
        have hp := walk_dirMut_prefix (f := takeEntry name) p [] n
        rw [List.append_nil] at hp
        rw [walk_append, walk_append, hp]
        cases walk p n with
        | error e => rfl
        | ok m =>
          cases m with
          | file content => rfl
          | dir ds =>
            simp only [Except.map, bind, Except.bind, dirMut, walk, takeEntry]
            cases SortedMap.get? name ds with
            | none => rfl
            | some child => simp only [SortedMap.get?_erase_of_ne hne]
    · exact walk_dirMut_of_not_prefix n hqp hpq

/-! ### Putting it at the target -/

theorem insertNew_ok_iff {p : List String} {name : String} {n node : Node} :
    (dirMut (insertNew node name) p n).1 = .ok () ↔
      ∃ es, walk p n = .ok (.dir es) ∧ SortedMap.get? name es = none := by
  rw [dirMut_fst]
  cases walk p n with
  | error e => simp
  | ok m =>
    cases m with
    | file content => simp
    | dir es =>
      simp only [insertNew, Except.ok.injEq, dir.injEq, exists_eq_left']
      cases SortedMap.get? name es <;> simp

theorem insertNew_error {p : List String} {name : String} {n node : Node} {e : FsError} (h : n.WF)
    (he : (dirMut (insertNew node name) p n).1 = .error e) :
    (dirMut (insertNew node name) p n).2 = n := by
  refine dirMut_unchanged h fun es hw => ?_
  rw [dirMut_fst, hw] at he
  simp only [insertNew] at he ⊢
  split at he
  · rename_i hs
    rw [if_pos hs]
  · cases he

theorem rename_of_source {old new name newName : String} {p q : List String} {n node : Node}
    (hpaths : renamePaths old new = .ok ((p, name), q, newName))
    (hnode : walk (p ++ [name]) n = .ok node) :
    n.rename old new =
      dirMut (insertNew node newName) q (dirMut (takeEntry name) p n).2 := by
  have htake := takeEntry_ok_iff.mpr hnode
  rw [rename, hpaths]
  simp only
  cases hd : dirMut (takeEntry name) p n with
  | mk res root =>
    rw [hd] at htake
    cases htake
    rfl

theorem rename_of_no_source {old new : String} {n : Node} (h : n.WF)
    (hno : ∀ p name q newName, renamePaths old new = .ok ((p, name), q, newName) →
      ∀ node, walk (p ++ [name]) n ≠ .ok node) : (n.rename old new).2 = n := by
  rw [rename]
  cases hpaths : renamePaths old new with
  | error e => rfl
  | ok paths =>
    obtain ⟨⟨p, name⟩, q, newName⟩ := paths
    simp only
    cases hd : dirMut (takeEntry name) p n with
    | mk res root =>
      cases res with
      | error e =>
        have := takeEntry_error h (congrArg Prod.fst hd)
        rw [hd] at this
        exact this
      | ok node =>
        exact absurd (takeEntry_ok_iff.mp (congrArg Prod.fst hd)) (hno p name q newName hpaths node)

end Node

/-! ### When a failed rename leaves the tree alone -/

namespace RamFs

/-- The target of a rename is good: its parent is a directory, outside the source, and
the name is free there, unless it is the source itself. -/
structure GoodTarget (fs : RamFs) (old newParent : List String) (newName : String) : Prop where
  parent : ∃ es, fs.root.walk newParent = .ok (.dir es)
  outside : ¬ old <+: newParent
  free : newParent ++ [newName] = old ∨ ∀ n, fs.root.walk (newParent ++ [newName]) ≠ .ok n

/-- The condition under which a failed rename changes nothing: whenever both paths are
well formed and the source exists, the target is good. -/
def RenameSafe (fs : RamFs) (old new : String) : Prop :=
  ∀ oldParent oldName newParent newName,
    Node.renamePaths old new = .ok ((oldParent, oldName), newParent, newName) →
    (∃ n, fs.root.walk (oldParent ++ [oldName]) = .ok n) →
    fs.GoodTarget (oldParent ++ [oldName]) newParent newName

theorem insert_taken_iff (fs : RamFs) (p q : List String) (name new : String) (node : Node) :
    (Node.dirMut (Node.insertNew node new) q
      (Node.dirMut (Node.takeEntry name) p fs.root).2).1 = .ok () ↔
      fs.GoodTarget (p ++ [name]) q new := by
  rw [Node.insertNew_ok_iff]
  constructor
  · rintro ⟨es', hw, hfree⟩
    have hout : ¬ p ++ [name] <+: q := fun hq => Node.walk_taken hq _ hw
    obtain ⟨g, hg, hwalk⟩ := Node.walk_not_taken fs.root hout
    rw [hwalk] at hw
    cases hn : fs.root.walk q with
    | error e =>
      rw [hn] at hw
      cases hw
    | ok m =>
      rw [hn] at hw
      cases m with
      | file content =>
        simp only [Except.map, hg.file] at hw
        cases hw
      | dir es =>
        obtain ⟨es'', hes, hnames⟩ := hg.dir es
        simp only [Except.map, hes] at hw
        cases hw
        refine ⟨⟨es, hn⟩, hout, ?_⟩
        by_cases hold : q ++ [new] = p ++ [name]
        · exact .inl hold
        · refine .inr fun m hm => ?_
          obtain ⟨ds, hds, hget⟩ := Node.walk_snoc_ok hm
          rw [hn] at hds
          cases hds
          have := hnames new hold
          rw [hfree, hget] at this
          cases this
  · rintro ⟨⟨es, hn⟩, hout, hfree⟩
    obtain ⟨g, hg, hwalk⟩ := Node.walk_not_taken fs.root hout
    obtain ⟨es', hes, hnames⟩ := hg.dir es
    have hw : (Node.dirMut (Node.takeEntry name) p fs.root).2.walk q = .ok (.dir es') := by
      rw [hwalk, hn]
      exact congrArg Except.ok hes
    refine ⟨es', hw, ?_⟩
    cases hget : SortedMap.get? new es' with
    | none => rfl
    | some m =>
      exfalso
      by_cases hold : q ++ [new] = p ++ [name]
      · exact Node.walk_taken (hold ▸ List.prefix_refl _) m (Node.walk_snoc hw new hget)
      · have hsome := hnames new hold
        rw [hget] at hsome
        obtain ⟨m', hm'⟩ := Option.isSome_iff_exists.mp hsome.symm
        rcases hfree with h | h
        · exact hold h
        · exact h m' (Node.walk_snoc hn new hm')

/-- **A failed rename leaves the tree alone exactly when `RenameSafe` holds.**  It always
does so on a bad path or a missing source; with a source, only because a good target makes
the rename succeed: every failure after the source was found loses it. -/
theorem rename_atomic_iff (fs : RamFs) (old new : String) :
    (∀ e fs', fs.rename old new = (.error e, fs') → fs' = fs) ↔ fs.RenameSafe old new := by
  constructor
  · intro h p name q newName hpaths ⟨node, hnode⟩
    have hren := Node.rename_of_source hpaths hnode
    rw [← insert_taken_iff fs p q name newName node]
    cases hres : (Node.dirMut (Node.insertNew node newName) q
        (Node.dirMut (Node.takeEntry name) p fs.root).2).1 with
    | ok u => rfl
    | error e =>
      -- the source is gone from the tree that the failed call leaves
      exfalso
      have hkept := Node.insertNew_error ((Node.keeps_takeEntry name).dirMut p fs.wf) hres
      have hsame : (fs.rename old new).2 = fs := by
        refine h e _ (Prod.ext ?_ rfl)
        exact (congrArg Prod.fst hren).trans hres
      have hsame : (fs.root.rename old new).2 = fs.root := congrArg RamFs.root hsame
      rw [hren, hkept] at hsame
      have hgone := Node.walk_taken (n := fs.root) (List.prefix_refl (p ++ [name])) node
      rw [hsame] at hgone
      exact hgone hnode
  · intro hsafe e fs' he
    have hfst : (fs.root.rename old new).1 = .error e := congrArg Prod.fst he
    have hsnd : fs' = (fs.rename old new).2 := (congrArg Prod.snd he).symm
    refine hsnd.trans (RamFs.ext (Node.rename_of_no_source fs.wf ?_))
    intro p name q newName hpaths node hnode
    have hok := (insert_taken_iff fs p q name newName node).mpr
      (hsafe p name q newName hpaths ⟨node, hnode⟩)
    rw [Node.rename_of_source hpaths hnode, hok] at hfst
    cases hfst

/-- A file renamed into a directory that does not exist is lost: it can be read before the
call and not after. -/
theorem rename_loses_file : ¬ ∀ (fs : RamFs) (old new : String) (e : FsError) (fs' : RamFs),
    fs.rename old new = (.error e, fs') → fs' = fs := by
  intro h
  have hfail : ((RamFs.new.write "/home/a.txt" [104, 105]).2.rename "/home/a.txt" "/nowhere/a.txt").1 =
      .error .notFound := by decide +kernel
  have hbefore : (RamFs.new.write "/home/a.txt" [104, 105]).2.read "/home/a.txt" =
      .ok [104, 105] := by decide +kernel
  have hafter : ((RamFs.new.write "/home/a.txt" [104, 105]).2.rename "/home/a.txt"
      "/nowhere/a.txt").2.read "/home/a.txt" = .error .notFound := by decide +kernel
  have hsame : ((RamFs.new.write "/home/a.txt" [104, 105]).2.rename "/home/a.txt"
      "/nowhere/a.txt").2 = (RamFs.new.write "/home/a.txt" [104, 105]).2 :=
    h _ _ _ _ _ (Prod.ext hfail rfl)
  rw [hsame, hbefore] at hafter
  cases hafter

end RamFs

end Zeronix
