import Zeronix.User.CommandFailures

/-!
# `echo` and `cat`

What `echo` writes through a redirection, `cat` shows.  A line is split into the words it was
joined from (`splitWhitespace_lineOf`), the redirection is taken out of them, and the file of the
program is the image it was installed with as long as nothing else is written there
(`loadProgram_of_image`).  Along the lines the file system stays the first one with one file set
(`echoes_spec`).
-/

namespace Zeronix

namespace Commands

open Elf

/-! ### Lines -/

/-- The words with one space between two of them. -/
def lineOf (words : List String) : List Char := (" ".intercalate words).toList

/-- A word as `split_whitespace` gives it. -/
def IsWord (word : String) : Prop := word ≠ "" ∧ ∀ c ∈ word.toList, isWhitespace c = false

theorem splitWhitespace_word {word : String} (h : IsWord word) :
    splitWhitespace word.toList = [word] := by
  have hne : word.toList ≠ [] := fun hnil => h.1 (String.toList_eq_nil_iff.mp hnil)
  rw [splitWhitespace, List.splitOnP_eq_singleton h.2]
  simp [hne]

theorem splitWhitespace_cons {word : String} (h : IsWord word) (text : List Char) :
    splitWhitespace (word.toList ++ ' ' :: text) = word :: splitWhitespace text := by
  have hne : word.toList ≠ [] := fun hnil => h.1 (String.toList_eq_nil_iff.mp hnil)
  rw [splitWhitespace, List.splitOnP_append_cons_of_forall_mem h.2 ' ' (by decide)]
  simp [splitWhitespace, hne]

/-- **A line is split into its words.** -/
theorem splitWhitespace_lineOf {words : List String} (h : ∀ word ∈ words, IsWord word) :
    splitWhitespace (lineOf words) = words := by
  induction words with
  | nil => decide
  | cons word words ih =>
    have hword := h word List.mem_cons_self
    have hrest := ih fun w hw => h w (List.mem_cons_of_mem _ hw)
    cases words with
    | nil => rw [lineOf, String.intercalate_singleton, splitWhitespace_word hword]
    | cons next words =>
      have hline :
          lineOf (word :: next :: words) = word.toList ++ ' ' :: lineOf (next :: words) := by
        simp [lineOf, String.intercalate_cons_cons]
      rw [hline, splitWhitespace_cons hword, hrest]

theorem runCommand_of_parse {fs : RamFs} {words : List String} {stdin : List UInt8} {r : Redirects}
    (hne : words ≠ []) (hwords : ∀ word ∈ words, IsWord word)
    (h : parseRedirects fs words ⟨[], stdin, none⟩ = .ok r) :
    runCommand fs (lineOf words) stdin = (dispatch fs r.words r.input).bind fun
      | (.error e, fs) => some (.error e, fs)
      | (.ok output, fs) => some (redirectOutput fs output r.redirectOut) := by
  have hloop : redirectLoop fs words.length 0 ⟨words, stdin, none⟩ = some (.ok r) := by
    refine (redirectLoop_parses ?_).trans (congrArg some h)
    exact Nat.le_of_eq (Nat.zero_add _).symm
  rw [runCommand, splitWhitespace_lineOf hwords]
  simp only [List.isEmpty_iff, hne, if_false, hloop]
  rfl

/-! ### Programs -/

/-- `install_programs` has been here: the file of each program is its image. -/
def Installed (fs : RamFs) : Prop :=
  ∀ program ∈ ProgramId.ALL, fs.read ("/bin/" ++ program.name) = .ok (buildProgramImage program)

/-- The file of one program is its image. -/
def Ready (fs : RamFs) (program : ProgramId) : Prop :=
  fs.paths.get ["bin", program.name] = some (.file (buildProgramImage program))

theorem splitPath_bin (program : ProgramId) :
    splitPath ("/bin/" ++ program.name) = .ok ["bin", program.name] := by
  cases program <;> decide

theorem fromName_name (program : ProgramId) : ProgramId.fromName program.name = some program := by
  cases program <;> decide

theorem name_inj {program program' : ProgramId} (h : program.name = program'.name) :
    program = program' := by
  have hfound := fromName_name program
  rw [h, fromName_name program', Option.some.injEq] at hfound
  exact hfound.symm

theorem mem_all (program : ProgramId) : program ∈ ProgramId.ALL := by
  cases program <;> decide

theorem Installed.ready {fs : RamFs} (h : Installed fs) (program : ProgramId) : Ready fs program :=
  RamFs.get_of_read (splitPath_bin program) (h program (mem_all program))

theorem parse_image (program : ProgramId) :
    ∃ load, Elf.parse (buildProgramImage program) = some (.ok ⟨program.entry, program, load⟩) := by
  have hparse : (Elf.parse (buildProgramImage program)).map (fun answer =>
      answer.toOption.map fun parsed => (parsed.entry, parsed.program)) =
      some (some (program.entry, program)) := by
    cases program <;> decide +kernel
  obtain ⟨answer, hanswer, hmap⟩ := Option.map_eq_some_iff.mp hparse
  cases answer with
  | error e => cases hmap
  | ok parsed =>
    obtain ⟨entry, program', load⟩ := parsed
    simp only [Except.toOption, Option.map_some, Option.some.injEq, Prod.mk.injEq] at hmap
    obtain ⟨rfl, rfl⟩ := hmap
    exact ⟨load, hanswer⟩

/-- **A program that is in place is loaded.** -/
theorem Ready.load {fs : RamFs} {program : ProgramId} (h : Ready fs program) :
    loadProgram fs program.name = some (.ok program) := by
  have hread : fs.read ("/bin/" ++ program.name) = .ok (buildProgramImage program) :=
    RamFs.read_of_get (splitPath_bin program) h
  obtain ⟨load, hparse⟩ := parse_image program
  rw [loadProgram, fromName_name]
  simp only [hread, hparse, Option.map_some, if_true]

/-! ### One line -/

section Line

variable {fs : RamFs} {path : String} {ws : List String}

/-- What `echo` prints. -/
def echoed (ws : List String) : List UInt8 := utf8 (" ".intercalate ws ++ "\n")

/-- A word that is not an operator. -/
def IsArgument (word : String) : Prop := IsWord word ∧ isRedirect word = false

theorem runCommand_echo {op : String} (hop : op = ">" ∨ op = ">>") (hready : Ready fs .Echo)
    (hpath : IsWord path) (hws : ∀ word ∈ ws, IsArgument word) (stdin : List UInt8) :
    runCommand fs (lineOf ("echo" :: ws ++ [op, path])) stdin =
      some (redirectOutput fs (.ofStdout (echoed ws)) (some (path, op == ">>"))) := by
  have hisop : isRedirect op = true := by
    rcases hop with rfl | rfl <;> decide
  have hnotin : op ≠ "<" := by
    rcases hop with rfl | rfl <;> decide
  have hword : IsWord op := by
    rcases hop with rfl | rfl <;> simp [IsWord, isWhitespace]
  have hparse : parseRedirects fs ("echo" :: ws ++ [op, path]) ⟨[], stdin, none⟩ =
      .ok ⟨"echo" :: ws, stdin, some (path, op == ">>")⟩ := by
    rw [parseRedirects_append, parseRedirects_out hisop hnotin]
    · rfl
    · intro word hmem
      rcases List.mem_cons.mp hmem with rfl | hmem
      · decide
      · exact (hws word hmem).2
  have hwords : ∀ word ∈ "echo" :: ws ++ [op, path], IsWord word := by
    intro word hmem
    rcases List.mem_append.mp hmem with hmem | hmem
    · rcases List.mem_cons.mp hmem with rfl | hmem
      · simp [IsWord, isWhitespace]
      · exact (hws word hmem).1
    · simp only [List.mem_cons, List.not_mem_nil, or_false] at hmem
      rcases hmem with rfl | rfl
      · exact hword
      · exact hpath
  have hload : loadProgram fs "echo" = some (.ok .Echo) := hready.load
  rw [runCommand_of_parse (by simp) hwords hparse, dispatch]
  simp only [List.head?_cons, hload]
  rfl

theorem runCommand_cat {c : List UInt8} (hready : Ready fs .Cat) (hpath : IsArgument path)
    (hread : fs.read path = .ok c) (stdin : List UInt8) :
    runCommand fs (lineOf ["cat", path]) stdin = some (.ok (.ofStdout c), fs) ∧
      runCommand fs (lineOf ["cat", "<", path]) stdin = some (.ok (.ofStdout c), fs) := by
  have hcat : IsWord "cat" := by simp [IsWord, isWhitespace]
  have hin : IsWord "<" := by simp [IsWord, isWhitespace]
  have hload : loadProgram fs "cat" = some (.ok .Cat) := hready.load
  constructor
  · have hparse : parseRedirects fs ["cat", path] ⟨[], stdin, none⟩ =
        .ok ⟨["cat", path], stdin, none⟩ := by
      rw [parseRedirects_word (by decide), parseRedirects_word hpath.2]
      rfl
    rw [runCommand_of_parse (by simp) (by simp [hcat, hpath.1]) hparse, dispatch]
    simp only [List.head?_cons, hload]
    simp [cmdCat, hread, ofFs, Except.mapError, redirectOutput, pure, Except.pure, bind, Except.bind]
  · have hparse : parseRedirects fs ["cat", "<", path] ⟨[], stdin, none⟩ =
        .ok ⟨["cat"], c, none⟩ := by
      rw [parseRedirects_word (by decide), parseRedirects_in, hread]
      rfl
    rw [runCommand_of_parse (by simp) (by simp [hcat, hin, hpath.1]) hparse, dispatch]
    simp only [List.head?_cons, hload]
    rfl

end Line

/-! ### Lines in a row -/

/-- Lines one after the other, with the answer of each. -/
def runLines (stdin : List UInt8) : List (List Char) → RamFs → Option (List CommandResult × RamFs)
  | [], fs => some ([], fs)
  | line :: lines, fs => do
    let (res, fs) ← runCommand fs line stdin
    let (answers, fs) ← runLines stdin lines fs
    some (res :: answers, fs)

section Lines

variable {fs fs' : RamFs} {path : String} {t : List String} {c : List UInt8}

/-- The file system `fs` with the bytes `c` in the file at `t`. -/
def Holds (fs : RamFs) (t : List String) (c : List UInt8) (fs' : RamFs) : Prop :=
  fs'.paths = fs.paths.set t (some (.file c))

theorem Holds.get (h : Holds fs t c fs') : fs'.paths.get t = some (.file c) := by
  rw [h, PathMap.set_get_self]

theorem Holds.get_of_ne (h : Holds fs t c fs') {q : List String} (hq : q ≠ t) :
    fs'.paths.get q = fs.paths.get q := by
  rw [h, PathMap.set_get_of_ne hq]

theorem Holds.ready {program : ProgramId} (h : Holds fs t c fs') (hready : Ready fs program)
    (ht : t ≠ ["bin", program.name]) : Ready fs' program := by
  rw [Ready, h.get_of_ne ht.symm]
  exact hready

theorem dropLast_ne (ht : t ≠ []) : t.dropLast ≠ t := by
  intro heq
  have hlen := congrArg List.length heq
  rw [List.length_dropLast] at hlen
  have hpos := List.length_pos_iff.mpr ht
  omega

theorem Holds.writable {q : List String} (h : Holds fs t c fs') (hw : fs.Writable path q)
    (hq : q.dropLast ≠ t) : fs'.Writable path q := by
  obtain ⟨hsplit, hne, hparent⟩ := target_eq_ok.mp hw.1
  refine ⟨target_eq_ok.mpr ⟨hsplit, hne, ?_⟩, ?_⟩
  · rw [h.get_of_ne hq, hparent]
  · by_cases hself : q = t
    · rw [hself, h.get]
      simp
    · rw [h.get_of_ne hself]
      exact hw.2

/-- **`install_programs`** puts the programs in place, if they can be written below `/bin`. -/
theorem ready_install (programs : List ProgramId)
    (hw : ∀ program : ProgramId, fs.Writable ("/bin/" ++ program.name) ["bin", program.name])
    {program : ProgramId} (h : program ∈ programs ∨ Ready fs program) :
    Ready (programs.foldl (fun fs program =>
      (fs.write ("/bin/" ++ program.name) (buildProgramImage program)).2) fs) program := by
  induction programs generalizing fs with
  | nil => exact h.resolve_left (List.not_mem_nil)
  | cons next programs ih =>
    have hnext : Holds fs ["bin", next.name] (buildProgramImage next)
        (fs.write ("/bin/" ++ next.name) (buildProgramImage next)).2 := ((hw next).write _).2
    rw [List.foldl_cons]
    refine ih (fun other => hnext.writable (hw other) (by simp)) ?_
    by_cases hself : program = next
    · subst hself
      exact Or.inr hnext.get
    · rcases h with hmem | hready
      · exact Or.inl ((List.mem_cons.mp hmem).resolve_left hself)
      · refine Or.inr (hnext.ready hready fun heq => hself ?_)
        have hname : next.name = program.name := by simpa using heq
        exact name_inj hname.symm

theorem installed_installPrograms
    (hw : ∀ program : ProgramId, fs.Writable ("/bin/" ++ program.name) ["bin", program.name]) :
    Installed (installPrograms fs) := fun program hmem =>
  RamFs.read_of_get (splitPath_bin program) (ready_install ProgramId.ALL hw (.inl hmem))

theorem cmdEdit_ok {res : FsResult Unit × RamFs} (h : res.1 = .ok ()) :
    cmdEdit res = (.ok .empty, res.2) := by
  obtain ⟨res, fs⟩ := res
  cases h
  rfl

theorem echo_write {ws : List String} (hw : fs.Writable path t) (hpath : IsWord path)
    (hready : Ready fs .Echo) (hws : ∀ word ∈ ws, IsArgument word) (stdin : List UInt8) :
    ∃ fs', runCommand fs (lineOf ("echo" :: ws ++ [">", path])) stdin = some (.ok .empty, fs') ∧
      Holds fs t (echoed ws) fs' := by
  obtain ⟨hres, hpaths⟩ := hw.write (echoed ws)
  refine ⟨_, ?_, hpaths⟩
  rw [runCommand_echo (.inl rfl) hready hpath hws]
  exact congrArg some (cmdEdit_ok hres)

theorem echo_append {ws : List String} (hw : fs.Writable path t) (hpath : IsWord path)
    (hready : Ready fs .Echo) (hws : ∀ word ∈ ws, IsArgument word) (stdin : List UInt8) :
    ∃ fs', runCommand fs (lineOf ("echo" :: ws ++ [">>", path])) stdin = some (.ok .empty, fs') ∧
      Holds fs t (Entry.content (fs.paths.get t) ++ echoed ws) fs' := by
  obtain ⟨hres, hpaths⟩ := hw.append (echoed ws)
  refine ⟨_, ?_, hpaths⟩
  rw [runCommand_echo (.inr rfl) hready hpath hws]
  exact congrArg some (cmdEdit_ok hres)

theorem Holds.trans {c' : List UInt8} {fs'' : RamFs} (h : Holds fs t c fs')
    (h' : Holds fs' t c' fs'') : Holds fs t c' fs'' := by
  rw [Holds, h', h, PathMap.set_set]

/-- **The lines that append.** -/
theorem appends_spec (hw : fs.Writable path t) (hpath : IsWord path) (hready : Ready fs .Echo)
    (ht : t ≠ ["bin", "echo"]) (lists : List (List String))
    (hlists : ∀ ws ∈ lists, ∀ word ∈ ws, IsArgument word) (stdin : List UInt8)
    (h : Holds fs t c fs') :
    ∃ fs'', runLines stdin (lists.map fun ws => lineOf ("echo" :: ws ++ [">>", path])) fs' =
        some (lists.map fun _ => .ok .empty, fs'') ∧
      Holds fs t (c ++ lists.flatMap echoed) fs'' := by
  induction lists generalizing c fs' with
  | nil => exact ⟨fs', rfl, by rwa [List.flatMap_nil, List.append_nil]⟩
  | cons ws lists ih =>
    have hne := (target_eq_ok.mp hw.1).2.1
    obtain ⟨fs₁, hline, hnext⟩ := echo_append (h.writable hw (dropLast_ne hne)) hpath
      (h.ready hready ht) (hlists ws List.mem_cons_self) stdin
    rw [h.get] at hnext
    obtain ⟨fs'', hrun, hend⟩ := ih (fun ws hws => hlists ws (List.mem_cons_of_mem _ hws))
      (h.trans hnext)
    refine ⟨fs'', ?_, ?_⟩
    · rw [List.map_cons, runLines, hline]
      simp only [Option.bind_eq_bind, Option.bind_some, hrun]
      rfl
    · rw [List.flatMap_cons, ← List.append_assoc]
      exact hend

/-- **What was echoed to a file is what `cat` shows**, and no other entry changes. -/
theorem echo_cat_round_trip (fs : RamFs) (hinstalled : Installed fs) {path : String}
    {t : List String} (hsplit : splitPath path = .ok t)
    (hspace : ∀ c ∈ path.toList, isWhitespace c = false)
    (hparent : fs.paths.get t.dropLast = some .dir) (hdir : fs.paths.get t ≠ some .dir)
    (hecho : t ≠ ["bin", "echo"]) (hcat : t ≠ ["bin", "cat"])
    (first : List String) (rest : List (List String))
    (hwords : ∀ ws ∈ first :: rest, ∀ word ∈ ws, IsWord word ∧ word ≠ ">" ∧ word ≠ ">>" ∧ word ≠ "<")
    (stdin : List UInt8) :
    ∃ fs', runLines stdin (lineOf ("echo" :: first ++ [">", path]) ::
        rest.map fun ws => lineOf ("echo" :: ws ++ [">>", path])) fs =
          some ((first :: rest).map fun _ => .ok .empty, fs') ∧
      (∀ stdin', runCommand fs' (lineOf ["cat", path]) stdin' =
        some (.ok (.ofStdout ((first :: rest).flatMap echoed)), fs')) ∧
      (∀ stdin', runCommand fs' (lineOf ["cat", "<", path]) stdin' =
        some (.ok (.ofStdout ((first :: rest).flatMap echoed)), fs')) ∧
      ∀ q, q ≠ t → fs'.paths.get q = fs.paths.get q := by
  have hne : t ≠ [] := by
    rintro rfl
    exact hdir hparent
  have hw : fs.Writable path t := ⟨target_eq_ok.mpr ⟨hsplit, hne, hparent⟩, hdir⟩
  have hslash : path.toList.head? = some '/' := by
    rw [splitPath] at hsplit
    split at hsplit
    · assumption
    · cases hsplit
  have hpath : IsArgument path := by
    refine ⟨⟨?_, hspace⟩, decide_eq_false ?_⟩
    · rintro rfl
      cases hslash
    · rintro (rfl | rfl | rfl) <;> cases hslash
  have hargs : ∀ ws ∈ first :: rest, ∀ word ∈ ws, IsArgument word := by
    intro ws hws word hword
    obtain ⟨hw, h1, h2, h3⟩ := hwords ws hws word hword
    exact ⟨hw, decide_eq_false (by simp [h1, h2, h3])⟩
  have hready := hinstalled.ready .Echo
  obtain ⟨fs₁, hline, hfirst⟩ := echo_write hw hpath.1 hready (hargs first List.mem_cons_self) stdin
  obtain ⟨fs', hrun, hend⟩ := appends_spec hw hpath.1 hready hecho rest
    (fun ws hws => hargs ws (List.mem_cons_of_mem _ hws)) stdin hfirst
  have hread : fs'.read path = .ok ((first :: rest).flatMap echoed) :=
    RamFs.read_of_get hsplit hend.get
  have hcats := runCommand_cat (hend.ready (hinstalled.ready .Cat) hcat) hpath hread
  refine ⟨fs', ?_, fun stdin' => (hcats stdin').1, fun stdin' => (hcats stdin').2,
    fun q hq => hend.get_of_ne hq⟩
  rw [runLines, hline]
  simp only [Option.bind_eq_bind, Option.bind_some, hrun]
  rfl

/-- Two lines into a log, on the file system after boot. -/
theorem echo_cat_round_trip_log : ∃ fs', runLines [] [lineOf ["echo", "first", ">", "/home/log"],
      lineOf ["echo", "second", ">>", "/home/log"]] (installPrograms .new) =
        some ([.ok .empty, .ok .empty], fs') ∧
    runCommand fs' (lineOf ["cat", "<", "/home/log"]) [] =
      some (.ok (.ofStdout (utf8 "first\nsecond\n")), fs') := by
  have hbin : RamFs.new.root.entryAt ["bin"] = some .dir := by decide
  have hinstalled : Installed (installPrograms .new) := installed_installPrograms fun program =>
    ⟨target_eq_ok.mpr ⟨splitPath_bin program, by simp, hbin⟩, by
      show RamFs.new.root.entryAt ["bin", program.name] ≠ some .dir
      cases program <;> decide⟩
  have hsplit : splitPath "/home/log" = .ok ["home", "log"] := by decide
  have hhome : (installPrograms .new).root.entryAt ["home"] = some .dir := by decide +kernel
  have hlog : (installPrograms .new).root.entryAt ["home", "log"] = none := by decide +kernel
  obtain ⟨fs', hrun, -, hcat, -⟩ := echo_cat_round_trip (installPrograms .new) hinstalled hsplit
    (by simp [isWhitespace]) hhome
    (by show (installPrograms .new).root.entryAt ["home", "log"] ≠ _; simp [hlog])
    (by simp) (by simp) ["first"] [["second"]] (by simp [IsWord, isWhitespace]) []
  exact ⟨fs', hrun, hcat []⟩

end Lines

end Commands

end Zeronix
