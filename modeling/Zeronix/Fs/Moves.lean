import Zeronix.Fs.PathMap
import Zeronix.Fs.Rename

/-!
# What a rename moves

A rename that succeeds took the source out of the tree and put it, with all that is below it, at
the target.  In the map of the tree both are edits of one entry, which change nothing beside it
(`Node.entryAt_dirMut_other`), and `rename_moves` puts the two together.
-/

namespace Zeronix

namespace RamFs

variable {fs fs' : RamFs} {old new name newName : String} {p q : List String} {node : Node}

theorem rename_eq_ok (h : fs.rename old new = (.ok (), fs')) :
    ∃ p name q newName node, splitPath old = .ok (p ++ [name]) ∧ splitPath new = .ok (q ++ [newName]) ∧
      fs.root.walk (p ++ [name]) = .ok node ∧ fs.GoodTarget (p ++ [name]) q newName ∧
      fs'.root = (Node.dirMut (Node.insertNew node newName) q
        (Node.dirMut (Node.takeEntry name) p fs.root).2).2 := by
  have hres : (fs.root.rename old new).1 = .ok () := congrArg Prod.fst h
  have htree : (fs.root.rename old new).2 = fs'.root := congrArg (fun x => x.2.root) h
  cases hpaths : Node.renamePaths old new with
  | error e =>
    rw [Node.rename, hpaths] at hres
    cases hres
  | ok paths =>
    obtain ⟨⟨p, name⟩, q, newName⟩ := paths
    obtain ⟨hold, hnew⟩ := Node.renamePaths_eq_ok.mp hpaths
    cases hsource : fs.root.walk (p ++ [name]) with
    | error e =>
      -- without a source the call fails
      exfalso
      rw [Node.rename, hpaths] at hres
      simp only at hres
      split at hres
      · cases hres
      · rename_i node root ht
        have hnode := Node.takeEntry_ok_iff.mp (congrArg Prod.fst ht)
        rw [hsource] at hnode
        cases hnode
    | ok node =>
      have heq := Node.rename_of_source hpaths hsource
      rw [heq] at hres htree
      exact ⟨p, name, q, newName, node, hold, hnew, hsource, (insert_taken_iff fs p q name newName node).mp hres,
        htree.symm⟩

theorem entryAt_taken (hw : fs.root.walk (p ++ [name]) = .ok node) {r : List String}
    (hr : ¬ p ++ [name] <+: r) :
    (Node.dirMut (Node.takeEntry name) p fs.root).2.entryAt r = fs.root.entryAt r := by
  obtain ⟨es, hes, hget⟩ := Node.walk_snoc_ok hw
  refine Node.entryAt_dirMut_other hes (fun k hk => ?_) hr
  simp only [Node.takeEntry, hget]
  exact SortedMap.get?_erase_of_ne hk es

theorem entryAt_taken_none {r : List String} (hr : p ++ [name] <+: r) :
    (Node.dirMut (Node.takeEntry name) p fs.root).2.entryAt r = none := by
  rw [Node.entryAt]
  split
  · rfl
  · rename_i m hm
    exact absurd hm (Node.walk_taken hr m)

theorem walk_inserted {n : Node} (h : (Node.dirMut (Node.insertNew node newName) q n).1 = .ok ())
    (s : List String) :
    (Node.dirMut (Node.insertNew node newName) q n).2.walk (q ++ [newName] ++ s) = node.walk s := by
  obtain ⟨es, hes, hfree⟩ := Node.insertNew_ok_iff.mp h
  rw [List.append_assoc, Node.walk_dirMut_below hes]
  simp only [Node.insertNew, hfree, Option.isSome_none, Bool.false_eq_true, if_false,
    List.singleton_append, Node.walk, SortedMap.get?_insert_self]

theorem entryAt_inserted {n : Node} (h : (Node.dirMut (Node.insertNew node newName) q n).1 = .ok ())
    {r : List String} (hr : ¬ q ++ [newName] <+: r) :
    (Node.dirMut (Node.insertNew node newName) q n).2.entryAt r = n.entryAt r := by
  obtain ⟨es, hes, hfree⟩ := Node.insertNew_ok_iff.mp h
  refine Node.entryAt_dirMut_other hes (fun k hk => ?_) hr
  simp only [Node.insertNew, hfree, Option.isSome_none, Bool.false_eq_true, if_false]
  exact SortedMap.get?_insert_of_ne hk _ _

theorem GoodTarget.apart {o : List String} (h : fs.GoodTarget o q newName)
    (ho : fs.root.walk o = .ok node) (hne : o ≠ q ++ [newName]) :
    ¬ o <+: q ++ [newName] ∧ ¬ q ++ [newName] <+: o := by
  constructor
  · intro hprefix
    rcases List.prefix_concat_iff.mp hprefix with heq | hq
    · exact hne heq
    · exact h.outside hq
  · rintro ⟨r, rfl⟩
    cases r with
    | nil => exact hne (List.append_nil _)
    | cons a r =>
      -- the target would be a directory on the way to the source
      obtain ⟨es, hes⟩ := Node.walk_prefix ho (List.cons_ne_nil a r)
      rcases h.free with heq | hfree
      · exact hne heq.symm
      · exact hfree _ hes

/-- **A rename moves one subtree.**  All of the source is found at the target, nothing is left at
the source, the target was free, and a path below neither names what it named before.  A rename
to the same components changes nothing. -/
theorem rename_moves (h : fs.rename old new = (.ok (), fs')) :
    ∃ o n, splitPath old = .ok o ∧ splitPath new = .ok n ∧
      (∀ s, fs'.root.walk (n ++ s) = fs.root.walk (o ++ s)) ∧
      (o = n → fs' = fs) ∧
      (o ≠ n → (∀ r, o <+: r → fs'.paths.get r = none) ∧ fs.paths.get n = none) ∧
      ∀ r, ¬ o <+: r → ¬ n <+: r → fs'.paths.get r = fs.paths.get r := by
  obtain ⟨p, name, q, newName, node, hold, hnew, hsource, hgood, hroot⟩ := rename_eq_ok h
  have hok := (insert_taken_iff fs p q name newName node).mpr hgood
  have hmoved : ∀ s, fs'.root.walk (q ++ [newName] ++ s) = fs.root.walk (p ++ [name] ++ s) := by
    intro s
    rw [hroot, walk_inserted hok, Node.walk_append (p ++ [name]), hsource]
    rfl
  have hrest : ∀ r, ¬ p ++ [name] <+: r → ¬ q ++ [newName] <+: r →
      fs'.paths.get r = fs.paths.get r := by
    intro r ho hn
    show fs'.root.entryAt r = fs.root.entryAt r
    rw [hroot, entryAt_inserted hok hn, entryAt_taken hsource ho]
  refine ⟨_, _, hold, hnew, hmoved, fun heq => ?_, fun hne => ⟨fun r hr => ?_, ?_⟩, hrest⟩
  · -- the same components: both maps agree at the source, below it and beside it
    refine ext_paths (PathMap.ext (funext fun r => ?_))
    show fs'.root.entryAt r = fs.root.entryAt r
    by_cases hr : p ++ [name] <+: r
    · obtain ⟨s, rfl⟩ := hr
      have hs := hmoved s
      rw [← heq] at hs
      rw [Node.entryAt, Node.entryAt, hs]
    · exact hrest r hr (heq ▸ hr)
  · have hn : ¬ q ++ [newName] <+: r := by
      intro hn
      obtain ⟨hon, hno⟩ := hgood.apart hsource hne
      rcases List.prefix_or_prefix_of_prefix hr hn with hprefix | hprefix
      · exact hon hprefix
      · exact hno hprefix
    show fs'.root.entryAt r = none
    rw [hroot, entryAt_inserted hok hn, entryAt_taken_none hr]
  · show fs.root.entryAt (q ++ [newName]) = none
    rw [Node.entryAt]
    split
    · rfl
    · rename_i m hm
      rcases hgood.free with heq | hfree
      · exact absurd heq.symm hne
      · exact absurd hm (hfree m)

/-- A file moved out of `/home` to the root. -/
theorem rename_moves_file :
    ((RamFs.new.write "/home/a.txt" [104, 105]).2.rename "/home/a.txt" "//b").1 = .ok () ∧
    ∃ o n, splitPath "/home/a.txt" = .ok o ∧ splitPath "//b" = .ok n ∧
      ∀ s, ((RamFs.new.write "/home/a.txt" [104, 105]).2.rename "/home/a.txt" "//b").2.root.walk (n ++ s) =
        (RamFs.new.write "/home/a.txt" [104, 105]).2.root.walk (o ++ s) := by
  have hok : ((RamFs.new.write "/home/a.txt" [104, 105]).2.rename "/home/a.txt" "//b").1 = .ok () := by
    decide +kernel
  obtain ⟨o, n, ho, hn, hmoved, -⟩ := rename_moves
    (h := (Prod.ext hok rfl : (RamFs.new.write "/home/a.txt" [104, 105]).2.rename "/home/a.txt" "//b" =
      (.ok (), ((RamFs.new.write "/home/a.txt" [104, 105]).2.rename "/home/a.txt" "//b").2)))
  exact ⟨hok, o, n, ho, hn, hmoved⟩

end RamFs

end Zeronix
