import Zeronix.Fs.RamFs
import Zeronix.User.Elf

/-!
# Commands of the shell

`src/user/commands.rs`: a command line is split into words, the redirections are taken out of
them, and the first word names a built-in program, whose file under `/bin` must be its image.

A command answers with a result and the file system it leaves behind.  The outer `Option` is the
panic of `elf::parse`, or a loop over the words that does not end.
-/

namespace Zeronix

/-- The bytes of a text. -/
def utf8 (text : String) : List UInt8 := text.toList.flatMap String.utf8EncodeChar

/-- `char::is_whitespace`, the characters with the property `White_Space`. -/
def isWhitespace (c : Char) : Bool :=
  let n := c.toNat
  (9 ≤ n && n ≤ 13) || n == 0x20 || n == 0x85 || n == 0xA0 || n == 0x1680 ||
    (0x2000 ≤ n && n ≤ 0x200A) || n == 0x2028 || n == 0x2029 || n == 0x202F || n == 0x205F ||
    n == 0x3000

/-- `str::split_whitespace`. -/
def splitWhitespace (text : List Char) : List String :=
  ((text.splitOnP isWhitespace).filter fun word => !word.isEmpty).map String.ofList

inductive CommandError where
  | Empty
  | Unknown
  | MissingArgument
  | BadExecutable
  | Fs (e : FsError)
  deriving DecidableEq, Repr

structure CommandOutput where
  stdout : List UInt8
  stderr : List UInt8
  deriving DecidableEq, Repr

namespace CommandOutput

def ofStdout (text : List UInt8) : CommandOutput := { stdout := text, stderr := [] }

def empty : CommandOutput := { stdout := [], stderr := [] }

end CommandOutput

abbrev CommandResult := Except CommandError CommandOutput

/-- `?` on a result of the file system. -/
def ofFs {α : Type} (r : FsResult α) : Except CommandError α := r.mapError CommandError.Fs

namespace Commands

open Elf

/-! ### Programs -/

def loadProgram (fs : RamFs) (name : String) : Option (Except CommandError ProgramId) :=
  match ProgramId.fromName name with
  | none => some (.error .Unknown)
  | some program =>
    match fs.read ("/bin/" ++ program.name) with
    | .error e => some (.error (.Fs e))
    | .ok image => (Elf.parse image).map fun
      | .error _ => .error .BadExecutable
      | .ok parsed => if parsed.program = program then .ok program else .error .BadExecutable

/-! ### The commands -/

def cmdLs (fs : RamFs) (words : List String) : CommandResult := do
  let names ← ofFs (fs.list ((words[1]?).getD "/"))
  let names := names.mergeSort fun a b => decide (a ≤ b)
  return .ofStdout (utf8 (String.join (names.map (· ++ "\n"))))

/-- A command on paths that has no output. -/
def cmdEdit : FsResult Unit × RamFs → CommandResult × RamFs
  | (.error e, fs) => (.error (.Fs e), fs)
  | (.ok _, fs) => (.ok .empty, fs)

def cmdRm (fs : RamFs) (words : List String) : CommandResult × RamFs :=
  match words[1]? with
  | none => (.error .MissingArgument, fs)
  | some path => cmdEdit (fs.remove path)

def cmdMv (fs : RamFs) (words : List String) : CommandResult × RamFs :=
  match words[1]?, words[2]? with
  | some old, some new => cmdEdit (fs.rename old new)
  | _, _ => (.error .MissingArgument, fs)

def cmdCp (fs : RamFs) (words : List String) : CommandResult × RamFs :=
  match words[1]?, words[2]? with
  | some src, some dst => cmdEdit (fs.copy src dst)
  | _, _ => (.error .MissingArgument, fs)

def cmdTouch (fs : RamFs) (words : List String) : CommandResult × RamFs :=
  match words[1]? with
  | none => (.error .MissingArgument, fs)
  | some path => cmdEdit (fs.touch path)

def cmdCat (fs : RamFs) (words : List String) (stdin : List UInt8) : CommandResult :=
  if words.length = 1 then .ok (.ofStdout stdin)
  else do
    let contents ← (words.drop 1).mapM fun path => ofFs (fs.read path)
    return .ofStdout contents.flatten

def cmdEcho (words : List String) : CommandOutput :=
  .ofStdout (utf8 (" ".intercalate (words.drop 1) ++ "\n"))

def dispatch (fs : RamFs) (words : List String) (stdin : List UInt8) :
    Option (CommandResult × RamFs) :=
  match words.head? with
  | none => some (.error .Empty, fs)
  | some name => (loadProgram fs name).map fun
    | .error e => (.error e, fs)
    | .ok .Ls => (cmdLs fs words, fs)
    | .ok .Rm => cmdRm fs words
    | .ok .Mv => cmdMv fs words
    | .ok .Cp => cmdCp fs words
    | .ok .Touch => cmdTouch fs words
    | .ok .Cat => (cmdCat fs words stdin, fs)
    | .ok .Echo => (.ok (cmdEcho words), fs)
    | .ok .Sleep | .ok .Count | .ok .Shell => (.error .Unknown, fs)

/-! ### Redirections -/

/-- What the loop over the words keeps: the words that are left, the input, and the path of the
last `>` or `>>` with whether it appends. -/
structure Redirects where
  words : List String
  input : List UInt8
  redirectOut : Option (String × Bool)

/-- The `while index < words.len()` loop of `run_command`; an operator and the word after it are
drained from the words. -/
def redirectLoop (fs : RamFs) : Nat → Nat → Redirects → Option (Except CommandError Redirects)
  | 0, index, r => if index < r.words.length then none else some (.ok r)
  | fuel + 1, index, r =>
    match r.words[index]? with
    | none => some (.ok r)
    | some op =>
      if op = ">" ∨ op = ">>" ∨ op = "<" then
        match r.words[index + 1]? with
        | none => some (.error .MissingArgument)
        | some path =>
          let words := r.words.take index ++ r.words.drop (index + 2)
          if op = "<" then
            match fs.read path with
            | .error e => some (.error (.Fs e))
            | .ok input => redirectLoop fs fuel index { r with words := words, input := input }
          else
            redirectLoop fs fuel index
              { r with words := words, redirectOut := some (path, op == ">>") }
      else redirectLoop fs fuel (index + 1) r

/-- The output of a command goes to the file of the redirection, if there is one. -/
def redirectOutput (fs : RamFs) (output : CommandOutput) :
    Option (String × Bool) → CommandResult × RamFs
  | none => (.ok output, fs)
  | some (path, true) => cmdEdit (fs.append path output.stdout)
  | some (path, false) => cmdEdit (fs.write path output.stdout)

def runCommand (fs : RamFs) (line : List Char) (stdin : List UInt8) :
    Option (CommandResult × RamFs) := do
  let words := splitWhitespace line
  if words.isEmpty then some (.error .Empty, fs)
  else match ← redirectLoop fs words.length 0 ⟨words, stdin, none⟩ with
    | .error e => some (.error e, fs)
    | .ok r =>
      match ← dispatch fs r.words r.input with
      | (.error e, fs) => some (.error e, fs)
      | (.ok output, fs) => some (redirectOutput fs output r.redirectOut)

end Commands

end Zeronix
