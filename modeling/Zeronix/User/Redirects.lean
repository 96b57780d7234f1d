import Zeronix.User.Commands

/-!
# The redirections of a line

`run_command` takes the redirections out of the words it is walking over.  `parseRedirects` is the
grammar that this loop is meant to read: one pass from left to right, in which an operator takes
the next word, whatever it is, and every other word is kept.

At an index the words before it have been kept and the words from it on are still to be read
(`redirectLoop_parses`); draining an operator and its path leaves the index where it is.
-/

namespace Zeronix

namespace Commands

def isRedirect (word : String) : Bool := word = ">" ∨ word = ">>" ∨ word = "<"

/-- The grammar.  The first error ends the pass: an operator at the end, or a file that cannot be
read. -/
def parseRedirects (fs : RamFs) : List String → Redirects → Except CommandError Redirects
  | [], r => .ok r
  | word :: words, r =>
    if isRedirect word then
      match words with
      | [] => .error .MissingArgument
      | path :: words =>
        if word = "<" then
          match fs.read path with
          | .error e => .error (.Fs e)
          | .ok input => parseRedirects fs words { r with input := input }
        else parseRedirects fs words { r with redirectOut := some (path, word == ">>") }
    else parseRedirects fs words { r with words := r.words ++ [word] }

section Parse

variable {fs : RamFs} {word path : String} {words : List String} {r : Redirects}

theorem parseRedirects_word (h : isRedirect word = false) :
    parseRedirects fs (word :: words) r =
      parseRedirects fs words { r with words := r.words ++ [word] } := by
  rw [parseRedirects.eq_def]
  simp only [h, Bool.false_eq_true, if_false]

theorem parseRedirects_last (h : isRedirect word = true) :
    parseRedirects fs [word] r = .error .MissingArgument := by
  rw [parseRedirects, if_pos h]

theorem parseRedirects_in : parseRedirects fs ("<" :: path :: words) r =
    match fs.read path with
    | .error e => .error (.Fs e)
    | .ok input => parseRedirects fs words { r with input := input } := rfl

theorem parseRedirects_out (h : isRedirect word = true) (hin : word ≠ "<") :
    parseRedirects fs (word :: path :: words) r =
      parseRedirects fs words { r with redirectOut := some (path, word == ">>") } := by
  rw [parseRedirects, if_pos h, if_neg hin]

/-- Words in front of the first operator are kept. -/
theorem parseRedirects_append {front : List String} (h : ∀ word ∈ front, isRedirect word = false) :
    parseRedirects fs (front ++ words) r =
      parseRedirects fs words { r with words := r.words ++ front } := by
  induction front generalizing r with
  | nil => rw [List.append_nil, List.nil_append]
  | cons word front ih =>
    rw [List.cons_append, parseRedirects_word (h word List.mem_cons_self),
      ih fun w hw => h w (List.mem_cons_of_mem _ hw)]
    simp only [List.append_assoc, List.singleton_append]

end Parse

section Loop

variable {fs : RamFs} {r : Redirects} {index : Nat} {word : String}

theorem drained_take (l : List String) (h : index < l.length) :
    (l.take index ++ l.drop (index + 2)).take index = l.take index := by
  rw [List.take_append_of_le_length (by rw [List.length_take]; omega), List.take_take, min_self]

theorem drained_drop (l : List String) (h : index < l.length) :
    (l.take index ++ l.drop (index + 2)).drop index = l.drop (index + 2) := by
  rw [List.drop_append_of_le_length (by rw [List.length_take]; omega),
    List.drop_eq_nil_of_le (by rw [List.length_take]; omega), List.nil_append]

/-- **The loop from an index on** parses the words from there on, with those before it kept.  Each
round leaves fewer words behind the index, so that as many rounds as words are enough. -/
theorem redirectLoop_parses {fuel : Nat} (hfuel : r.words.length ≤ index + fuel) :
    redirectLoop fs fuel index r =
      some (parseRedirects fs (r.words.drop index) { r with words := r.words.take index }) := by
  induction fuel generalizing index r with
  | zero =>
    rw [redirectLoop, if_neg (by omega), List.drop_eq_nil_of_le (by omega),
      List.take_of_length_le (by omega)]
    rfl
  | succ fuel ih =>
    rw [redirectLoop]
    cases hop : r.words[index]? with
    | none =>
      have hend := List.getElem?_eq_none_iff.mp hop
      rw [List.drop_eq_nil_of_le hend, List.take_of_length_le hend]
      rfl
    | some op =>
      obtain ⟨hlt, hget⟩ := List.getElem?_eq_some_iff.mp hop
      rw [List.drop_eq_getElem_cons hlt, hget]
      simp only
      by_cases hredirect : op = ">" ∨ op = ">>" ∨ op = "<"
      · rw [if_pos hredirect]
        have hop' : isRedirect op = true := decide_eq_true hredirect
        cases hpath : r.words[index + 1]? with
        | none =>
          rw [List.drop_eq_nil_of_le (List.getElem?_eq_none_iff.mp hpath),
            parseRedirects_last hop']
        | some path =>
          obtain ⟨hlt', hget'⟩ := List.getElem?_eq_some_iff.mp hpath
          have hlen : (r.words.take index ++ r.words.drop (index + 2)).length ≤ index + fuel := by
            rw [List.length_append, List.length_take, List.length_drop]
            omega
          rw [List.drop_eq_getElem_cons hlt', hget']
          simp only
          by_cases hin : op = "<"
          · subst hin
            rw [if_pos rfl, parseRedirects_in]
            cases hread : fs.read path with
            | error e => rfl
            | ok input =>
              have hnext := ih (r := { r with
                words := r.words.take index ++ r.words.drop (index + 2), input := input }) hlen
              simp only [drained_take r.words hlt, drained_drop r.words hlt] at hnext
              exact hnext
          · rw [if_neg hin, parseRedirects_out hop' hin]
            have hnext := ih (r := { r with
              words := r.words.take index ++ r.words.drop (index + 2)
              redirectOut := some (path, op == ">>") }) hlen
            simp only [drained_take r.words hlt, drained_drop r.words hlt] at hnext
            exact hnext
      · rw [if_neg hredirect, parseRedirects_word (decide_eq_false hredirect), ih (by omega)]
        rw [List.take_add_one, hop]
        rfl

/-- **The loop of `run_command` reads the grammar**: on the words of any line it ends, with what
one pass over them finds. -/
theorem redirect_grammar (fs : RamFs) (words : List String) (stdin : List UInt8) :
    redirectLoop fs words.length 0 ⟨words, stdin, none⟩ =
      some (parseRedirects fs words ⟨[], stdin, none⟩) :=
  redirectLoop_parses (Nat.le_of_eq (Nat.zero_add _).symm)

end Loop

end Commands

end Zeronix
