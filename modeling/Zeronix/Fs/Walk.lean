import Zeronix.Fs.RamFs

/-!
# Walking an edited tree

What `walk` finds, and what it finds after an edit of one directory: on the way to that
directory (`walk_dirMut_prefix`), below it (`walk_dirMut_below`) and elsewhere
(`walk_dirMut_of_not_prefix`).  A call on one entry that fails changes nothing
(`onEntry_error`).
-/

namespace Zeronix

namespace Node

theorem walk_append (p q : List String) (n : Node) : walk (p ++ q) n = walk p n >>= walk q := by
  induction p generalizing n with
  | nil => rfl
  | cons part p ih =>
    cases n with
    | file content => rfl
    | dir es =>
      rw [List.cons_append, walk, walk]
      cases SortedMap.get? part es with
      | none => rfl
      | some child => exact ih child

theorem walk_snoc {p : List String} {n : Node} {es : Entries} (h : walk p n = .ok (.dir es))
    (name : String) {child : Node} (hc : SortedMap.get? name es = some child) :
    walk (p ++ [name]) n = .ok child := by
  rw [walk_append, h]
  simp only [bind, Except.bind, walk, hc]

theorem walk_snoc_none {p : List String} {n : Node} {es : Entries} (h : walk p n = .ok (.dir es))
    (name : String) (hc : SortedMap.get? name es = none) :
    walk (p ++ [name]) n = .error .notFound := by
  rw [walk_append, h]
  simp only [bind, Except.bind, walk, hc]

theorem walk_snoc_ok {p : List String} {n : Node} {name : String} {child : Node}
    (h : walk (p ++ [name]) n = .ok child) :
    ∃ es, walk p n = .ok (.dir es) ∧ SortedMap.get? name es = some child := by
  rw [walk_append] at h
  cases hp : walk p n with
  | error e =>
    rw [hp] at h
    cases h
  | ok m =>
    rw [hp] at h
    cases m with
    | file content => cases h
    | dir es =>
      simp only [bind, Except.bind, walk] at h
      cases hc : SortedMap.get? name es with
      | none =>
        rw [hc] at h
        cases h
      | some c =>
        rw [hc] at h
        cases h
        exact ⟨es, rfl, hc⟩

section Edit

variable {α : Type} {f : Entries → FsResult α × Entries}

theorem walk_dirMut_prefix (q r : List String) (n : Node) :
    walk q (dirMut f (q ++ r) n).2 = (walk q n).map fun m => (dirMut f r m).2 := by
  induction q generalizing n with
  | nil => rfl
  | cons part q ih =>
    cases n with
    | file content => rfl
    | dir es =>
      rw [List.cons_append, dirMut, walk]
      cases hc : SortedMap.get? part es with
      | none =>
        simp only [walk, hc]
        rfl
      | some child =>
        simp only [walk, SortedMap.get?_insert_self]
        exact ih child

theorem walk_dirMut_below {p : List String} {n : Node} {es : Entries} (h : walk p n = .ok (.dir es))
    (r : List String) : walk (p ++ r) (dirMut f p n).2 = walk r (.dir (f es).2) := by
  have hp := walk_dirMut_prefix (f := f) p [] n
  rw [List.append_nil, h] at hp
  rw [walk_append, hp]
  rfl

theorem walk_dirMut_of_not_prefix {p q : List String} (n : Node) (hq : ¬ q <+: p)
    (hp : ¬ p <+: q) : walk q (dirMut f p n).2 = walk q n := by
  induction p generalizing q n with
  | nil => exact absurd List.nil_prefix hp
  | cons a p ih =>
    cases q with
    | nil => exact absurd List.nil_prefix hq
    | cons b q =>
      cases n with
      | file content => rfl
      | dir es =>
        rw [dirMut]
        cases hc : SortedMap.get? a es with
        | none => rfl
        | some child =>
          by_cases hab : b = a
          · subst hab
            rw [List.cons_prefix_cons] at hq hp
            simp only [walk, SortedMap.get?_insert_self, hc]
            exact ih child (fun h => hq ⟨rfl, h⟩) (fun h => hp ⟨rfl, h⟩)
          · simp only [walk, SortedMap.get?_insert_of_ne hab]

theorem dirMut_fst (p : List String) (n : Node) :
    (dirMut f p n).1 = match walk p n with
      | .error e => .error e
      | .ok (.file _) => .error .notDirectory
      | .ok (.dir es) => (f es).1 := by
  induction p generalizing n with
  | nil =>
    cases n with
    | file content => rfl
    | dir es => rfl
  | cons a p ih =>
    cases n with
    | file content => rfl
    | dir es =>
      rw [dirMut, walk]
      cases SortedMap.get? a es with
      | none => rfl
      | some child => exact ih child

theorem dirMut_unchanged {p : List String} {n : Node} (h : n.WF)
    (hf : ∀ es, walk p n = .ok (.dir es) → (f es).2 = es) : (dirMut f p n).2 = n := by
  induction p generalizing n with
  | nil =>
    cases n with
    | file content => rfl
    | dir es => exact congrArg Node.dir (hf es rfl)
  | cons a p ih =>
    cases n with
    | file content => rfl
    | dir es =>
      rw [dirMut]
      cases hc : SortedMap.get? a es with
      | none => rfl
      | some child =>
        have hch : (dirMut f p child).2 = child := by
          refine ih (h.child hc) fun es' hw => hf es' ?_
          rw [walk, hc]
          exact hw
        simp only [hch, h.sorted.insert_get? hc]

end Edit

/-! ### Calls that fail -/

/-- What is done to a directory leaves it as it is when it fails. -/
def Safe {α : Type} (f : Entries → FsResult α × Entries) : Prop :=
  ∀ es e, (f es).1 = .error e → (f es).2 = es

theorem safe_insertNew (node : Node) (name : String) : Safe (insertNew node name) := by
  intro es e h
  rw [insertNew] at h ⊢
  split at h
  · rename_i hc
    rw [if_pos hc]
  · cases h

theorem safe_editFile (init : List UInt8) (f : List UInt8 → List UInt8) (name : String) :
    Safe (editFile init f name) := by
  intro es e h
  rw [editFile] at h ⊢
  split at h
  · rfl
  · cases h
  · cases h

theorem safe_removeEntry (name : String) : Safe (removeEntry name) := by
  intro es e h
  rw [removeEntry] at h ⊢
  split at h
  · rfl
  · rfl
  · cases h

theorem onEntry_error {α : Type} {f : String → Entries → FsResult α × Entries}
    (hf : ∀ name, Safe (f name)) {path : String} {n : Node} {e : FsError} (h : n.WF)
    (he : (n.onEntry path f).1 = .error e) : (n.onEntry path f).2 = n := by
  rw [onEntry] at he ⊢
  split at he
  · rfl
  · rename_i parent name _
    rw [dirMut_fst] at he
    refine dirMut_unchanged h fun es hes => ?_
    rw [hes] at he
    exact hf name es e he

theorem write_of_touch {path : String} {n : Node} (h : (n.touch path).1 = .ok ())
    (data : List UInt8) : ((n.touch path).2.write path data).1 = .ok () := by
  rw [touch, onEntry] at h ⊢
  rw [write, onEntry]
  split at h
  · cases h
  · rename_i parent name hpath
    rw [dirMut_fst] at h
    cases hw : walk parent n with
    | error e =>
      rw [hw] at h
      cases h
    | ok m =>
      cases m with
      | file content =>
        rw [hw] at h
        cases h
      | dir es =>
        rw [hw] at h
        have hafter := walk_dirMut_below (f := editFile [] id name) hw []
        rw [List.append_nil] at hafter
        rw [dirMut_fst, hafter]
        simp only [walk, editFile] at h ⊢
        split at h
        · cases h
        · simp only [SortedMap.get?_insert_self]
        · simp only [SortedMap.get?_insert_self]

end Node

namespace RamFs

theorem mkdir_error {path : String} {fs : RamFs} {e : FsError} (h : (fs.mkdir path).1 = .error e) :
    (fs.mkdir path).2 = fs := by
  apply RamFs.ext
  show (fs.root.mkdir path).2 = fs.root
  have h' : (fs.root.mkdir path).1 = .error e := h
  rw [Node.mkdir] at h' ⊢
  split at h'
  · rfl
  · rfl
  · exact Node.onEntry_error (Node.safe_insertNew _) fs.wf h'

theorem edit_error {path : String} {init : List UInt8} {f : List UInt8 → List UInt8} {fs : RamFs}
    {e : FsError} (h : (fs.root.onEntry path (Node.editFile init f)).1 = .error e) :
    (fs.root.onEntry path (Node.editFile init f)).2 = fs.root :=
  Node.onEntry_error (Node.safe_editFile init f) fs.wf h

theorem touch_error {path : String} {fs : RamFs} {e : FsError} (h : (fs.touch path).1 = .error e) :
    (fs.touch path).2 = fs :=
  RamFs.ext (edit_error h)

theorem write_error {path : String} {data : List UInt8} {fs : RamFs} {e : FsError}
    (h : (fs.write path data).1 = .error e) : (fs.write path data).2 = fs :=
  RamFs.ext (edit_error h)

theorem append_error {path : String} {data : List UInt8} {fs : RamFs} {e : FsError}
    (h : (fs.append path data).1 = .error e) : (fs.append path data).2 = fs :=
  RamFs.ext (edit_error h)

theorem remove_error {path : String} {fs : RamFs} {e : FsError} (h : (fs.remove path).1 = .error e) :
    (fs.remove path).2 = fs :=
  RamFs.ext (Node.onEntry_error Node.safe_removeEntry fs.wf h)

end RamFs

end Zeronix
