import Zeronix.Syscall.FilePaths
import Zeronix.User.Redirects

/-!
# Commands that fail

A command line is worked off in the order redirections of input, program, command, redirection of
output.  Each of these can fail.  Before the last one a failure leaves the file system alone, a
`mv` apart.  The redirection of output is looked at when the command has already done its work.

`takeRedirects` says which words of a line are redirections, without the loop of the source
(`redirectLoop_ok_iff`), `Changes` which entry a command will change, and `run_command_error_iff`
when a command line that fails changes nothing.
-/

namespace Zeronix

namespace Commands

open Elf

/-! ### The words of a line -/

/-- The redirections of a line, each an operator and a path, and the words that are left.  There
are none when the last word is an operator. -/
def takeRedirects : List String → Option (List (String × String) × List String)
  | [] => some ([], [])
  | word :: words =>
    if isRedirect word then
      match words with
      | [] => none
      | path :: rest => (takeRedirects rest).map fun line => ((word, path) :: line.1, line.2)
    else (takeRedirects words).map fun line => (line.1, word :: line.2)

/-- All files that input is taken from can be read. -/
def Reads (fs : RamFs) (redirects : List (String × String)) : Prop :=
  ∀ path, ("<", path) ∈ redirects → ∃ data, fs.read path = .ok data

/-- The last redirection of output. -/
def lastOutput (out : Option (String × Bool)) (redirects : List (String × String)) :
    Option (String × Bool) :=
  redirects.foldl (fun out r => if r.1 = "<" then out else some (r.2, r.1 == ">>")) out

theorem reads_cons {fs : RamFs} {op path : String} {rs : List (String × String)} :
    Reads fs ((op, path) :: rs) ↔ (op = "<" → ∃ data, fs.read path = .ok data) ∧ Reads fs rs := by
  constructor
  · intro h
    refine ⟨?_, fun p hp => h p (List.mem_cons_of_mem _ hp)⟩
    rintro rfl
    exact h path List.mem_cons_self
  · rintro ⟨hfirst, hrest⟩ p hp
    rcases List.mem_cons.mp hp with heq | hp
    · cases heq
      exact hfirst rfl
    · exact hrest p hp

/-- The words and the redirection of output that are to be found from a place on. -/
def Found (fs : RamFs) (r : Redirects) (index : Nat) (words : List String)
    (out : Option (String × Bool)) : Prop :=
  ∃ rs ws, takeRedirects (r.words.drop index) = some (rs, ws) ∧ Reads fs rs ∧
    words = r.words.take index ++ ws ∧ out = lastOutput r.redirectOut rs

section Found

variable {fs : RamFs} {r : Redirects} {index : Nat} {words : List String}
variable {out : Option (String × Bool)}

theorem takeRedirects_redirect {op path : String} {rest : List String} (h : isRedirect op = true) :
    takeRedirects (op :: path :: rest) =
      (takeRedirects rest).map fun line => ((op, path) :: line.1, line.2) := by
  rw [takeRedirects, if_pos h]

theorem takeRedirects_word {word : String} {rest : List String} (h : isRedirect word = false) :
    takeRedirects (word :: rest) =
      (takeRedirects rest).map fun line => (line.1, word :: line.2) := by
  rw [takeRedirects.eq_def]
  simp only [h, Bool.false_eq_true, if_false]

theorem parseRedirects_ok_iff {line : List String} :
    (∃ input, parseRedirects fs line r = .ok ⟨words, input, out⟩) ↔
      ∃ rs ws, takeRedirects line = some (rs, ws) ∧ Reads fs rs ∧ words = r.words ++ ws ∧
        out = lastOutput r.redirectOut rs := by
  induction line using takeRedirects.induct generalizing r with
  | case1 =>
    constructor
    · rintro ⟨input, heq⟩
      cases heq
      exact ⟨[], [], rfl, nofun, (List.append_nil _).symm, rfl⟩
    · rintro ⟨rs, ws, htake, _, rfl, rfl⟩
      cases htake
      exact ⟨r.input, by rw [List.append_nil]; rfl⟩
  | case2 op hop =>
    rw [parseRedirects_last hop, takeRedirects, if_pos hop]
    exact iff_of_false (by rintro ⟨_, ⟨⟩⟩) (by rintro ⟨_, _, ⟨⟩, _⟩)
  | case3 op hop path rest ih =>
    rw [takeRedirects_redirect hop]
    simp only [Option.map_eq_some_iff, Prod.exists, Prod.mk.injEq]
    have hstep : ∀ r' : Redirects, r'.words = r.words →
        (op = "<" → ∃ data, fs.read path = .ok data) →
        r'.redirectOut = (if op = "<" then r.redirectOut else some (path, op == ">>")) →
        ((∃ input, parseRedirects fs rest r' = .ok ⟨words, input, out⟩) ↔
          ∃ rs ws, (∃ rs' ws', takeRedirects rest = some (rs', ws') ∧ (op, path) :: rs' = rs ∧
            ws' = ws) ∧ Reads fs rs ∧ words = r.words ++ ws ∧ out = lastOutput r.redirectOut rs) := by
      intro r' hwords hread hout
      rw [ih, hwords, hout]
      constructor
      · rintro ⟨rs, ws, htake, hreads, hw, ho⟩
        exact ⟨_, ws, ⟨rs, ws, htake, rfl, rfl⟩, reads_cons.mpr ⟨hread, hreads⟩, hw, ho⟩
      · rintro ⟨_, ws, ⟨rs, _, htake, rfl, rfl⟩, hreads, hw, ho⟩
        exact ⟨rs, _, htake, (reads_cons.mp hreads).2, hw, ho⟩
    by_cases hin : op = "<"
    · subst hin
      rw [parseRedirects_in]
      cases hread : fs.read path with
      | ok input => exact hstep { r with input := input } rfl (fun _ => ⟨input, hread⟩) rfl
      | error e =>
        refine iff_of_false (by rintro ⟨_, ⟨⟩⟩) ?_
        rintro ⟨_, ws, ⟨rs, _, _, rfl, rfl⟩, hreads, _⟩
        obtain ⟨data, hdata⟩ := (reads_cons.mp hreads).1 rfl
        rw [hread] at hdata
        cases hdata
    · rw [parseRedirects_out hop hin]
      exact hstep _ rfl (fun h => absurd h hin) (if_neg hin).symm
  | case4 word rest hop ih =>
    have hword : isRedirect word = false := by simpa using hop
    rw [parseRedirects_word hword, takeRedirects_word hword, ih]
    simp only [Option.map_eq_some_iff, Prod.exists, Prod.mk.injEq, List.append_assoc,
      List.singleton_append]
    constructor
    · rintro ⟨rs, ws, htake, hreads, hw, ho⟩
      exact ⟨rs, _, ⟨rs, ws, htake, rfl, rfl⟩, hreads, hw, ho⟩
    · rintro ⟨_, _, ⟨rs, ws, htake, rfl, rfl⟩, hreads, hw, ho⟩
      exact ⟨rs, ws, htake, hreads, hw, ho⟩

/-- **What the loop over the words finds.** -/
theorem redirectLoop_ok_iff {fuel : Nat} (hfuel : r.words.length ≤ index + fuel) :
    (∃ input, redirectLoop fs fuel index r = some (.ok ⟨words, input, out⟩)) ↔
      Found fs r index words out := by
  rw [redirectLoop_parses hfuel]
  simp only [Option.some.injEq]
  exact parseRedirects_ok_iff

end Found

/-! ### What a command changes -/

/-- The words are a command whose program is there and that changes the entry at `p`: `rm` of a
file or an empty directory, `cp` of other bytes, `touch` of a new name. -/
inductive Changes (fs : RamFs) (words : List String) (p : List String) : Prop
  | rm {path : String} : words.head? = some "rm" → loadProgram fs "rm" = some (.ok .Rm) →
      words[1]? = some path → fs.paths.target path = .ok p → fs.paths.get p ≠ none →
      (fs.paths.get p = some .dir → fs.paths.names p = []) → Changes fs words p
  | cp {src dst : String} {data : List UInt8} : words.head? = some "cp" →
      loadProgram fs "cp" = some (.ok .Cp) → words[1]? = some src → words[2]? = some dst →
      fs.read src = .ok data → fs.paths.target dst = .ok p → fs.paths.get p ≠ some .dir →
      fs.paths.get p ≠ some (.file data) → Changes fs words p
  | touch {path : String} : words.head? = some "touch" → loadProgram fs "touch" = some (.ok .Touch) →
      words[1]? = some path → fs.paths.target path = .ok p → fs.paths.get p = none →
      Changes fs words p

/-- A path can be written, and can still be once the entry at `p` is gone or a file. -/
def StillWritable (fs : RamFs) (path : String) (p : List String) : Prop :=
  ∃ t, fs.paths.target path = .ok t ∧ t.dropLast ≠ p ∧ (fs.paths.get t = some .dir → t = p)

section Edits

variable {fs fs' : RamFs} {path : String} {p t : List String} {e : Option Entry}

theorem target_eq_ok : fs.paths.target path = .ok t ↔
    splitPath path = .ok t ∧ t ≠ [] ∧ fs.paths.get t.dropLast = some .dir := by
  constructor
  · intro h
    obtain ⟨hsplit, hne⟩ := PathMap.split_of_target h
    refine ⟨hsplit, hne, ?_⟩
    simp only [PathMap.target, hsplit, bind, Except.bind, if_neg hne, fs.lookup_paths] at h
    show fs.root.entryAt t.dropLast = some .dir
    rw [Node.entryAt]
    cases hw : fs.root.walk t.dropLast with
    | error e =>
      rw [hw] at h
      cases h
    | ok n =>
      rw [hw] at h
      cases n with
      | file content => cases h
      | dir es => rfl
  · rintro ⟨hsplit, hne, hparent⟩
    rw [← List.dropLast_append_getLast hne] at hsplit ⊢
    refine RamFs.target_of_parent hsplit ?_
    rw [PathMap.kinds, hparent]
    rfl

theorem stillWritable_iff (hpaths : fs'.paths = fs.paths.set p e) (he : e ≠ some .dir) :
    StillWritable fs path p ↔ ∃ t, fs'.Writable path t := by
  refine exists_congr fun t => ?_
  rw [RamFs.Writable, target_eq_ok, target_eq_ok, hpaths]
  have hparent : (fs.paths.set p e).get t.dropLast = some .dir ↔
      fs.paths.get t.dropLast = some .dir ∧ t.dropLast ≠ p := by
    by_cases hp : t.dropLast = p
    · rw [hp, PathMap.set_get_self]
      simp [he]
    · rw [PathMap.set_get_of_ne hp]
      simp [hp]
  have hself : (fs.paths.set p e).get t ≠ some .dir ↔ (fs.paths.get t = some .dir → t = p) := by
    by_cases hp : t = p
    · rw [hp, PathMap.set_get_self]
      simp [he]
    · rw [PathMap.set_get_of_ne hp]
      simp [hp]
  rw [hparent, hself]
  tauto

theorem edit_ok_iff (init : List UInt8) (f : List UInt8 → List UInt8) :
    (fs.paths.onTarget path (PathMap.edit init f)).1 = .ok () ↔ ∃ t, fs.Writable path t := by
  rcases PathMap.edit_cases fs.paths path init f with
    ⟨e, ht, h⟩ | ⟨p, ht, ⟨hp, h⟩ | ⟨c, hp, h⟩ | ⟨hp, h⟩⟩
  · rw [h]
    refine iff_of_false (by simp) ?_
    rintro ⟨t, ht', _⟩
    rw [ht] at ht'
    cases ht'
  · rw [h]
    refine iff_of_false (by simp) ?_
    rintro ⟨t, ht', hdir⟩
    rw [ht] at ht'
    cases ht'
    exact hdir hp
  · exact iff_of_true (by rw [h]) ⟨p, ht, by simp [hp]⟩
  · exact iff_of_true (by rw [h]) ⟨p, ht, by simp [hp]⟩

theorem redirectOutput_cases (output : CommandOutput) (append : Bool) :
    ((∃ t, fs.Writable path t) → ∃ r, (redirectOutput fs output (some (path, append))).1 = .ok r) ∧
    ((¬ ∃ t, fs.Writable path t) → ∃ err, redirectOutput fs output (some (path, append)) = (.error err, fs)) := by
  have hedit : ∀ (res : FsResult Unit × RamFs), (res.1 = .ok () ↔ ∃ t, fs.Writable path t) →
      (∀ e, res.1 = .error e → res.2 = fs) →
      ((∃ t, fs.Writable path t) → ∃ r, (cmdEdit res).1 = .ok r) ∧
      ((¬ ∃ t, fs.Writable path t) → ∃ err, cmdEdit res = (.error err, fs)) := by
    rintro ⟨res, fs'⟩ hok herr
    cases res with
    | ok u => exact ⟨fun _ => ⟨.empty, rfl⟩, fun h => absurd (hok.mp rfl) h⟩
    | error e =>
      refine ⟨fun h => ?_, fun _ => ⟨.Fs e, ?_⟩⟩
      · cases hok.mpr h
      · rw [cmdEdit, show fs' = fs from herr e rfl]
  cases append with
  | true =>
    refine hedit (fs.append path output.stdout) ?_ fun e he => RamFs.append_error he
    rw [(RamFs.append_refines path output.stdout fs).1]
    exact edit_ok_iff _ _
  | false =>
    refine hedit (fs.write path output.stdout) ?_ fun e he => RamFs.write_error he
    rw [(RamFs.write_refines path output.stdout fs).1]
    exact edit_ok_iff _ _

theorem redirectOutput_error {output : CommandOutput} {out : Option (String × Bool)} {e : CommandError}
    (h : redirectOutput fs output out = (.error e, fs')) : fs' = fs := by
  cases out with
  | none => cases h
  | some out =>
    obtain ⟨path, append⟩ := out
    by_cases hw : ∃ t, fs.Writable path t
    · obtain ⟨r, hok⟩ := (redirectOutput_cases output append).1 hw
      rw [h] at hok
      cases hok
    · obtain ⟨err, herr⟩ := (redirectOutput_cases output append).2 hw
      rw [h] at herr
      cases herr
      rfl

end Edits

/-! ### What a command does -/

section Dispatch

variable {fs fs' : RamFs} {name path : String} {words : List String} {p : List String}
variable {program : ProgramId} {input : List UInt8}

theorem name_of_loadProgram (h : loadProgram fs name = some (.ok program)) : program.name = name := by
  rw [loadProgram] at h
  split at h
  · cases h
  · rename_i found hfound
    have hname : found.name = name := by
      have := List.find?_some hfound
      exact eq_of_beq this
    split at h
    · cases h
    · obtain ⟨res, _, hres⟩ := Option.map_eq_some_iff.mp h
      split at hres
      · cases hres
      · split at hres
        · cases hres
          exact hname
        · cases hres

theorem copy_of_read {src dst : String} {data : List UInt8} (h : fs.read src = .ok data) :
    fs.copy src dst = fs.write dst data := by
  have hread : fs.root.read src = .ok data := h
  have hcopy : fs.root.copy src dst = fs.root.write dst data := by rw [Node.copy, hread]
  refine Prod.ext ?_ (RamFs.ext ?_)
  · show (fs.root.copy src dst).1 = (fs.root.write dst data).1
    rw [hcopy]
  · show (fs.root.copy src dst).2 = (fs.root.write dst data).2
    rw [hcopy]

theorem remove_ok (ht : fs.paths.target path = .ok p) (hp : fs.paths.get p ≠ none)
    (hempty : fs.paths.get p = some .dir → fs.paths.names p = []) :
    (fs.remove path).1 = .ok () ∧ (fs.remove path).2.paths = fs.paths.set p none := by
  obtain ⟨hres, hpaths⟩ := RamFs.remove_refines path fs
  have hdelete : PathMap.delete (fs.paths.get p) (decide (fs.paths.names p ≠ [])) = .ok none := by
    cases hget : fs.paths.get p with
    | none => exact absurd hget hp
    | some entry =>
      cases entry with
      | file content => rfl
      | dir => rw [decide_eq_false (not_not.mpr (hempty hget))]; rfl
  rw [PathMap.remove, PathMap.onTarget, ht] at hres hpaths
  simp only [hdelete] at hres hpaths
  exact ⟨hres, hpaths⟩

theorem of_remove_ok (h : (fs.remove path).1 = .ok ()) : ∃ p, fs.paths.target path = .ok p ∧
    fs.paths.get p ≠ none ∧ (fs.paths.get p = some .dir → fs.paths.names p = []) := by
  rw [(RamFs.remove_refines path fs).1, PathMap.remove, PathMap.onTarget] at h
  split at h
  · cases h
  · rename_i p ht
    refine ⟨p, ht, fun hp => ?_, fun hp => ?_⟩
    · simp [hp, PathMap.delete] at h
    · by_contra hne
      simp [hp, hne, PathMap.delete] at h

/-- **A command that changes an entry** succeeds, without output. -/
theorem Changes.dispatch (h : Changes fs words p) (input : List UInt8) :
    ∃ fs' e, Commands.dispatch fs words input = some (.ok .empty, fs') ∧
      fs'.paths = fs.paths.set p e ∧ e ≠ some .dir ∧ fs.paths.get p ≠ e := by
  have hedit : ∀ {res : FsResult Unit × RamFs}, res.1 = .ok () → cmdEdit res = (.ok .empty, res.2) := by
    rintro ⟨res, fs'⟩ rfl
    rfl
  cases h with
  | @rm path hname hload hpath ht hp hempty =>
    obtain ⟨hres, hpaths⟩ := remove_ok ht hp hempty
    refine ⟨(fs.remove path).2, none, ?_, hpaths, by simp, hp⟩
    simp [Commands.dispatch, hname, hload, cmdRm, hpath, hedit hres]
  | @cp src dst data hname hload hsrc hdst hread ht hdir hne =>
    obtain ⟨hres, hpaths⟩ := RamFs.Writable.write ⟨ht, hdir⟩ data
    refine ⟨(fs.write dst data).2, _, ?_, hpaths, by simp, hne⟩
    simp [Commands.dispatch, hname, hload, cmdCp, hsrc, hdst, copy_of_read hread, hedit hres]
  | @touch path hname hload hpath ht hp =>
    obtain ⟨c, hres, hpaths⟩ := RamFs.Writable.touch ⟨ht, by simp [hp]⟩
    refine ⟨(fs.touch path).2, _, ?_, hpaths, by simp, by simp [hp]⟩
    simp [Commands.dispatch, hname, hload, cmdTouch, hpath, hedit hres]

theorem cmdEdit_snd (res : FsResult Unit × RamFs) : (cmdEdit res).2 = res.2 := by
  obtain ⟨res, fs⟩ := res
  cases res <;> rfl

theorem edit_same {init : List UInt8} {f : List UInt8 → List UInt8} {res : FsResult Unit × RamFs}
    (hres : res.2.paths = (fs.paths.onTarget path (PathMap.edit init f)).2) :
    res.2 = fs ∨ ∃ p, fs.paths.target path = .ok p ∧
      (fs.paths.get p = none ∨ ∃ c, fs.paths.get p = some (.file c) ∧ f c ≠ c) := by
  rcases PathMap.edit_cases fs.paths path init f with
    ⟨e, _, h⟩ | ⟨p, ht, ⟨_, h⟩ | ⟨c, hp, h⟩ | ⟨hp, _⟩⟩
  · rw [h] at hres
    exact Or.inl (RamFs.ext_paths hres)
  · rw [h] at hres
    exact Or.inl (RamFs.ext_paths hres)
  · by_cases hc : f c = c
    · left
      rw [h, hc, ← hp] at hres
      refine RamFs.ext_paths (hres.trans (PathMap.ext ?_))
      exact Function.update_eq_self p _
    · exact Or.inr ⟨p, ht, Or.inr ⟨c, hp, hc⟩⟩
  · exact Or.inr ⟨p, ht, Or.inl hp⟩

theorem cmdRm_same (hname : words.head? = some "rm") (hload : loadProgram fs "rm" = some (.ok .Rm)) :
    (cmdRm fs words).2 = fs ∨ ∃ p, Changes fs words p := by
  rw [cmdRm]
  cases hpath : words[1]? with
  | none => exact Or.inl rfl
  | some path =>
    cases hres : (fs.remove path).1 with
    | error e =>
      exact Or.inl ((cmdEdit_snd _).trans (RamFs.remove_error hres))
    | ok u =>
      obtain ⟨p, ht, hp, hempty⟩ := of_remove_ok hres
      exact Or.inr ⟨p, .rm hname hload hpath ht hp hempty⟩

theorem cmdCp_same (hname : words.head? = some "cp") (hload : loadProgram fs "cp" = some (.ok .Cp)) :
    (cmdCp fs words).2 = fs ∨ ∃ p, Changes fs words p := by
  rw [cmdCp]
  split
  · rename_i src dst hsrc hdst
    rw [cmdEdit_snd]
    cases hread : fs.read src with
    | error e =>
      refine Or.inl (RamFs.ext ?_)
      have hread : fs.root.read src = .error e := hread
      show (fs.root.copy src dst).2 = fs.root
      rw [Node.copy, hread]
    | ok data =>
      rw [copy_of_read hread]
      rcases edit_same (RamFs.write_refines dst data fs).2 with hsame | ⟨p, ht, hp⟩
      · exact Or.inl hsame
      · refine Or.inr ⟨p, .cp hname hload hsrc hdst hread ht ?_ ?_⟩
        · rcases hp with hp | ⟨c, hp, _⟩ <;> simp [hp]
        · rcases hp with hp | ⟨c, hp, hne⟩
          · simp [hp]
          · simpa [hp] using Ne.symm hne
  · exact Or.inl rfl

theorem cmdTouch_same (hname : words.head? = some "touch")
    (hload : loadProgram fs "touch" = some (.ok .Touch)) :
    (cmdTouch fs words).2 = fs ∨ ∃ p, Changes fs words p := by
  rw [cmdTouch]
  cases hpath : words[1]? with
  | none => exact Or.inl rfl
  | some path =>
    simp only
    rw [cmdEdit_snd]
    rcases edit_same (RamFs.touch_refines path fs).2 with hsame | ⟨p, ht, hp | ⟨c, _, hne⟩⟩
    · exact Or.inl hsame
    · exact Or.inr ⟨p, .touch hname hload hpath ht hp⟩
    · exact absurd rfl hne

/-- **A command other than `mv`** leaves the file system alone, or changes one entry. -/
theorem dispatch_same {res : CommandResult} (hmv : words.head? ≠ some "mv")
    (h : dispatch fs words input = some (res, fs')) : fs' = fs ∨ ∃ p, Changes fs words p := by
  rw [dispatch] at h
  cases hname : words.head? with
  | none =>
    rw [hname] at h
    cases h
    exact Or.inl rfl
  | some name =>
    rw [hname] at h
    obtain ⟨loaded, hload, hrun⟩ := Option.map_eq_some_iff.mp h
    cases loaded with
    | error e =>
      cases hrun
      exact Or.inl rfl
    | ok program =>
      have hprogram := name_of_loadProgram hload
      subst hprogram
      cases program with
      | Rm =>
        have hrun : cmdRm fs words = (res, fs') := hrun
        have hsame := cmdRm_same hname hload
        rw [hrun] at hsame
        exact hsame
      | Cp =>
        have hrun : cmdCp fs words = (res, fs') := hrun
        have hsame := cmdCp_same hname hload
        rw [hrun] at hsame
        exact hsame
      | Touch =>
        have hrun : cmdTouch fs words = (res, fs') := hrun
        have hsame := cmdTouch_same hname hload
        rw [hrun] at hsame
        exact hsame
      | Mv => exact absurd hname hmv
      | Shell | Ls | Cat | Echo | Sleep | Count =>
        cases hrun
        exact Or.inl rfl

end Dispatch

/-! ### Command lines that fail -/

/-- The command of the line changes an entry, and its output is redirected to a path that cannot
be written then. -/
def LosesOutput (fs : RamFs) (line : List Char) : Prop :=
  ∃ rs words path append p, takeRedirects (splitWhitespace line) = some (rs, words) ∧ Reads fs rs ∧
    lastOutput none rs = some (path, append) ∧ Changes fs words p ∧ ¬ StillWritable fs path p

variable {fs fs' : RamFs} {line : List Char} {stdin : List UInt8}

theorem redirects_ok_iff {words : List String} {out : Option (String × Bool)} :
    (∃ input, redirectLoop fs (splitWhitespace line).length 0 ⟨splitWhitespace line, stdin, none⟩ =
      some (.ok ⟨words, input, out⟩)) ↔ Found fs ⟨splitWhitespace line, stdin, none⟩ 0 words out :=
  redirectLoop_ok_iff (Nat.le_of_eq (Nat.zero_add _).symm)

theorem runCommand_eq {rs : List (String × String)} {words : List String}
    (htake : takeRedirects (splitWhitespace line) = some (rs, words)) (hreads : Reads fs rs)
    (hne : splitWhitespace line ≠ []) (stdin : List UInt8) :
    ∃ input, runCommand fs line stdin = (dispatch fs words input).bind fun
      | (.error e, fs) => some (.error e, fs)
      | (.ok output, fs) => some (redirectOutput fs output (lastOutput none rs)) := by
  have hfound : Found fs ⟨splitWhitespace line, stdin, none⟩ 0 words (lastOutput none rs) :=
    ⟨rs, words, htake, hreads, rfl, rfl⟩
  obtain ⟨input, hloop⟩ := redirects_ok_iff.mpr hfound
  refine ⟨input, ?_⟩
  rw [runCommand]
  simp only [List.isEmpty_iff, hne, if_false, hloop]
  rfl

theorem runCommand_error {e : CommandError} (h : runCommand fs line stdin = some (.error e, fs')) :
    fs' = fs ∨ ∃ rs words input res fs₁,
      takeRedirects (splitWhitespace line) = some (rs, words) ∧ Reads fs rs ∧
      dispatch fs words input = some (res, fs₁) ∧
      ((res = .error e ∧ fs' = fs₁) ∨
        ∃ output, res = .ok output ∧ redirectOutput fs₁ output (lastOutput none rs) = (.error e, fs')) := by
  rw [runCommand] at h
  simp only [List.isEmpty_iff] at h
  split at h
  · cases h
    exact Or.inl rfl
  · cases hloop : redirectLoop fs (splitWhitespace line).length 0 ⟨splitWhitespace line, stdin, none⟩ with
    | none =>
      rw [hloop] at h
      cases h
    | some loop =>
      rw [hloop] at h
      cases loop with
      | error e =>
        cases h
        exact Or.inl rfl
      | ok r =>
        obtain ⟨words, input, out⟩ := r
        obtain ⟨rs, _, htake, hreads, rfl, rfl⟩ := redirects_ok_iff.mp ⟨input, hloop⟩
        cases hdisp : dispatch fs words input with
        | none =>
          simp [hdisp] at h
        | some answer =>
          obtain ⟨res, fs₁⟩ := answer
          refine Or.inr ⟨rs, words, input, res, fs₁, htake, hreads, hdisp, ?_⟩
          simp only [hdisp, bind, Option.bind] at h
          cases res with
          | error e' =>
            cases h
            exact Or.inl ⟨rfl, rfl⟩
          | ok output => exact Or.inr ⟨output, rfl, Option.some.inj h⟩

/-- **A command line that fails changes nothing**, unless its output gets lost. -/
theorem run_command_error_iff (fs : RamFs) (line : List Char) (stdin : List UInt8)
    (hmv : ∀ rs words, takeRedirects (splitWhitespace line) = some (rs, words) → words.head? ≠ some "mv") :
    (∀ e fs', runCommand fs line stdin = some (.error e, fs') → fs' = fs) ↔ ¬ LosesOutput fs line := by
  constructor
  · rintro h ⟨rs, words, path, append, p, htake, hreads, hout, hchanges, hlost⟩
    have hne : splitWhitespace line ≠ [] := by
      intro hnil
      rw [hnil] at htake
      cases htake
      cases hout
    obtain ⟨input, hrun⟩ := runCommand_eq htake hreads hne stdin
    obtain ⟨fs', e, hdisp, hpaths, hdir, hget⟩ := hchanges.dispatch input
    obtain ⟨err, hfail⟩ := (redirectOutput_cases .empty append).2 (mt (stillWritable_iff hpaths hdir).mpr hlost)
    rw [hdisp] at hrun
    simp only [Option.bind_some, hout, hfail] at hrun
    -- the change of the command stays
    rw [h err fs' hrun] at hpaths
    exact hget (by rw [hpaths, PathMap.set_get_self])
  · intro hkept e fs' hrun
    rcases runCommand_error hrun with hsame | ⟨rs, words, input, res, fs₁, htake, hreads, hdisp, hend⟩
    · exact hsame
    rcases dispatch_same (hmv rs words htake) hdisp with rfl | ⟨p, hchanges⟩
    · -- the command changed nothing, and neither does a redirection that fails
      rcases hend with ⟨_, rfl⟩ | ⟨output, _, hfail⟩
      · rfl
      · exact redirectOutput_error hfail
    · obtain ⟨fs₂, entry, hdisp', hpaths, hdir, _⟩ := hchanges.dispatch input
      rw [hdisp] at hdisp'
      cases hdisp'
      rcases hend with ⟨hres, _⟩ | ⟨output, hres, hfail⟩
      · cases hres
      · cases hres
        cases hout : lastOutput none rs with
        | none =>
          rw [hout] at hfail
          cases hfail
        | some out =>
          obtain ⟨path, append⟩ := out
          rw [hout] at hfail
          exfalso
          by_cases hwritable : StillWritable fs path p
          · obtain ⟨r, hok⟩ := (redirectOutput_cases .empty append).1 ((stillWritable_iff hpaths hdir).mp hwritable)
            rw [hfail] at hok
            cases hok
          · exact hkept ⟨rs, words, path, append, p, htake, hreads, hout, hchanges, hwritable⟩

/-- `install_programs`. -/
def installPrograms (fs : RamFs) : RamFs :=
  ProgramId.ALL.foldl (fun fs program =>
    (fs.write ("/bin/" ++ program.name) (buildProgramImage program)).2) fs

/-- A `cat` whose output cannot be written. -/
theorem run_command_error_cat : runCommand (installPrograms .new) "cat > /nowhere/b".toList [] =
    some (.error (.Fs .notFound), installPrograms .new) := by
  have htake : takeRedirects (splitWhitespace "cat > /nowhere/b".toList) =
      some ([(">", "/nowhere/b")], ["cat"]) := by decide +kernel
  have hkeeps : ¬ LosesOutput (installPrograms .new) "cat > /nowhere/b".toList := by
    rintro ⟨rs, words, path, append, p, h, _, _, hchanges, _⟩
    rw [htake] at h
    cases h
    cases hchanges with
    | rm hname => simp at hname
    | cp hname => simp at hname
    | touch hname => simp at hname
  have hrun : (runCommand (installPrograms .new) "cat > /nowhere/b".toList []).map Prod.fst =
      some (.error (.Fs .notFound)) := by decide +kernel
  obtain ⟨⟨res, fs'⟩, hres, rfl⟩ := Option.map_eq_some_iff.mp hrun
  have hsame := (run_command_error_iff _ _ _ (fun rs words h => by rw [htake] at h; cases h; simp)).mpr
    hkeeps _ _ hres
  rw [hres, hsame]

/-- A `touch` whose output cannot be written has made its file. -/
theorem run_command_touch_stays : ¬ ∀ (fs : RamFs) (line : List Char) (stdin : List UInt8),
    (∀ rs words, takeRedirects (splitWhitespace line) = some (rs, words) → words.head? ≠ some "mv") →
    ∀ e fs', runCommand fs line stdin = some (.error e, fs') → fs' = fs := by
  intro h
  have hrun : (runCommand (installPrograms .new) "touch /home/a > /nowhere/b".toList []).map
      (fun res => (res.1, res.2.read "/home/a")) = some (.error (.Fs .notFound), .ok []) := by
    decide +kernel
  have hbefore : (installPrograms .new).read "/home/a" = .error .notFound := by decide +kernel
  have htake : takeRedirects (splitWhitespace "touch /home/a > /nowhere/b".toList) =
      some ([(">", "/nowhere/b")], ["touch", "/home/a"]) := by decide +kernel
  obtain ⟨⟨res, fs'⟩, hres, hmap⟩ := Option.map_eq_some_iff.mp hrun
  obtain ⟨rfl, hafter⟩ := Prod.mk.inj hmap
  have hsame := h _ _ _ (fun rs words hws => by rw [htake] at hws; cases hws; simp) _ _ hres
  rw [hsame, hbefore] at hafter
  cases hafter

end Commands

end Zeronix
