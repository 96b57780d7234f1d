import Zeronix.Task.Proc
import Zeronix.User.Commands

/-!
# The shell

`Shell` of `src/main.rs`, a task of the kernel: it reads a line from the serial console, runs it,
and keeps the jobs that `sleep` and `count` start, one of them in the foreground.  Once a second it
ticks all of them; a job in the background goes on, also after Ctrl-Z.

The console is the list of what the shell has written, as messages; how they read is left out.
`none` is a panic.
-/

namespace Zeronix

/-! ### Jobs and messages -/

inductive JobKind where
  | Sleep
  | Count
  deriving DecidableEq, Repr

structure Job where
  id : Nat
  name : String
  kind : JobKind
  remaining : Nat
  total : Nat
  background : Bool
  deriving DecidableEq, Repr

/-- What the shell writes. -/
inductive Message where
  | prompt
  | newline
  | rubout
  | echo (byte : UInt8)
  | output (bytes : List UInt8)
  | commandFailed (err : CommandError)
  | noFilesystem
  | usageRun
  | runNotFound
  | started (pid : Nat)
  | runInvalid
  | notFound
  | startedJob (job : Job)
  | running (job : Job)
  | finished (job : Job)
  | finishedJob (job : Job)
  | stopped (job : Job)
  | noJobs
  | listed (job : Job)
  | usageFg
  | noSuchJob
  | foreground (job : Job)
  | count (job : Job) (current : Nat)
  deriving DecidableEq, Repr

structure Shell where
  line : List Char
  jobs : List Job
  active : Option Job
  nextJobId : Nat
  lastSecond : Nat

def Shell.new : Shell where
  line := []
  jobs := []
  active := none
  nextJobId := 1
  lastSecond := 0

/-- The shell with what it uses: the file system of the system calls, the processes, and the
console. -/
structure Terminal where
  shell : Shell
  fs : Option RamFs
  sys : System
  console : List Message

/-! ### Reading numbers -/

/-- The loop of `parse_u32` and `parse_u64`, for numbers below `limit`. -/
def parseUint (limit : Nat) (text : String) : Option Nat :=
  text.toList.foldlM (fun value c =>
    if !c.isDigit then none
    else if value * 10 < limit then
      let value := value * 10 + (c.toNat - '0'.toNat)
      if value < limit then some value else none
    else none) 0

def parseU32 (text : String) : Option Nat := parseUint (2 ^ 32) text

def parseU64 (text : String) : Option Nat := parseUint (2 ^ 64) text

/-! ### Texts -/

/-- `str::trim_end`. -/
def trimEnd (text : List Char) : List Char := (text.reverse.dropWhile isWhitespace).reverse

/-- `str::trim`. -/
def trim (text : List Char) : List Char := trimEnd (text.dropWhile isWhitespace)

/-- `trim_start_matches("/bin/")`. -/
def trimBin : List Char → List Char
  | '/' :: 'b' :: 'i' :: 'n' :: '/' :: rest => trimBin rest
  | text => text

namespace Terminal

/-- `stdio::serial_write`. -/
def write (t : Terminal) (m : Message) : Terminal := { t with console := t.console ++ [m] }

def setActive (t : Terminal) (job : Option Job) : Terminal :=
  { t with shell := { t.shell with active := job } }

def setJobs (t : Terminal) (jobs : List Job) : Terminal :=
  { t with shell := { t.shell with jobs := jobs } }

/-! ### The clock -/

/-- `tick_job`: the job that is left and what it writes. -/
def tickJob (job : Job) : Option (Job × List Message) :=
  if job.remaining = 0 then some (job, [])
  else
    let job := { job with remaining := job.remaining - 1 }
    if job.kind = .Count then
      (Word.sub job.total job.remaining).map fun current => (job, [.count job current])
    else some (job, [])

/-- `tick_job` on a terminal. -/
def runJob (t : Terminal) (job : Job) : Option (Job × Terminal) :=
  (tickJob job).map fun (job, messages) => (job, { t with console := t.console ++ messages })

/-- The foreground job is taken out, and put back unless it is done. -/
def tickActive (t : Terminal) : Option Terminal :=
  match t.shell.active with
  | none => some t
  | some job => do
    let (job, t) ← (t.setActive none).runJob job
    if job.remaining = 0 then return (t.write (.finished job)).write .prompt
    else return t.setActive (some job)

/-- The `while index < self.jobs.len()` loop of `tick_one_second`, with `n` jobs to go. -/
def tickJobs : Nat → Nat → Terminal → Option Terminal
  | 0, _, t => some t
  | n + 1, index, t =>
    match t.shell.jobs[index]? with
    | none => some t
    | some job => do
      let (job, t) ← t.runJob job
      if job.remaining = 0 then
        let t := (t.setJobs (t.shell.jobs.eraseIdx index)).write (.finishedJob job)
        tickJobs n index (if t.shell.active.isNone then t.write .prompt else t)
      else tickJobs n (index + 1) (t.setJobs (t.shell.jobs.set index job))

def tickOneSecond (t : Terminal) : Option Terminal := do
  let t ← t.tickActive
  tickJobs t.shell.jobs.length 0 t

/-- The `while` loop of `poll_jobs`, `n` times. -/
def pollLoop : Nat → Terminal → Option Terminal
  | 0, t => some t
  | n + 1, t => do
    let lastSecond ← Word.add t.shell.lastSecond 1
    let t ← tickOneSecond { t with shell := { t.shell with lastSecond := lastSecond } }
    pollLoop n t

/-- `poll_jobs`, with the count of `timer_ticks`. -/
def pollJobs (t : Terminal) (timerTicks : Nat) : Option Terminal :=
  pollLoop (timerTicks / 100 - t.shell.lastSecond) t

/-! ### Commands of the shell -/

def suspendActiveJob (t : Terminal) : Terminal :=
  match t.shell.active with
  | none => t
  | some job =>
    let job := { job with background := true }
    let t := (t.setActive none).write (.stopped job)
    (t.setJobs (t.shell.jobs ++ [job])).write .prompt

def printJobs (t : Terminal) : Terminal :=
  if t.shell.jobs.isEmpty then t.write .noJobs
  else { t with console := t.console ++ t.shell.jobs.map .listed }

def foregroundJob (t : Terminal) (id : Option String) : Terminal :=
  match id.bind parseU64 with
  | none => t.write .usageFg
  | some id =>
    match t.shell.jobs.findIdx? fun job => job.id == id with
    | none => t.write .noSuchJob
    | some index =>
      match t.shell.jobs[index]? with
      | none => t
      | some job =>
        let job := { job with background := false }
        ((t.setJobs (t.shell.jobs.eraseIdx index)).write (.foreground job)).setActive (some job)

def runElf (t : Terminal) (program : Option String) : Option Terminal :=
  match program with
  | none => some (t.write .usageRun)
  | some program =>
    match t.fs.map (RamFs.read ("/bin/" ++ String.ofList (trimBin program.toList))) with
    | some (.ok image) => do
      match ← t.sys.spawnElf image with
      | (.ok i, sys) =>
        let p ← sys.procs[i]?
        return { t with sys := sys }.write (.started p.pid)
      | (.error _, sys) => return { t with sys := sys }.write .runInvalid
    | _ => some (t.write .runNotFound)

/-- The new job of `start_long_job`. -/
def newJob (id : Nat) (command : String) (words : List String) (background : Bool) : Job :=
  let seconds := max ((words[1]?.bind parseU32).getD 5) 1
  { id := id
    name := command
    kind := if command = "count" then .Count else .Sleep
    remaining := seconds
    total := seconds
    background := background }

def startJob (t : Terminal) (job : Job) : Terminal :=
  if job.background then
    let t := t.write (.startedJob job)
    t.setJobs (t.shell.jobs ++ [job])
  else (t.write (.running job)).setActive (some job)

def startLongJob (t : Terminal) (command : String) (words : List String) (background : Bool) :
    Option Terminal :=
  match t.fs with
  | none => some (t.write .noFilesystem)
  | some fs => do
    match ← Commands.loadProgram fs command with
    | .error _ => return t.write .notFound
    | .ok _ =>
      let id := t.shell.nextJobId
      let nextJobId ← Word.add id 1
      let t := { t with shell := { t.shell with nextJobId := nextJobId } }
      return t.startJob (newJob id command words background)

/-- The answer says whether the command was one of the shell. -/
def runShellCommand (t : Terminal) (line : List Char) (background : Bool) :
    Option (Bool × Terminal) :=
  let words := splitWhitespace line
  match words.head? with
  | none => some (true, t)
  | some "jobs" => some (true, t.printJobs)
  | some "fg" => some (true, t.foregroundJob words[1]?)
  | some "run" => (t.runElf words[1]?).map (true, ·)
  | some "exec" => (t.runElf words[1]?).map (true, ·)
  | some "sleep" => (t.startLongJob "sleep" words background).map (true, ·)
  | some "count" => (t.startLongJob "count" words background).map (true, ·)
  | some _ => some (false, t)

/-- A line that is no command of the shell. -/
def runProgram (t : Terminal) (line : List Char) : Option Terminal :=
  match t.fs with
  | none => some (t.write .noFilesystem)
  | some fs => (Commands.runCommand fs line []).map fun
    | (.ok output, fs) =>
      ({ t with fs := some fs }.write (.output output.stdout)).write (.output output.stderr)
    | (.error err, fs) => { t with fs := some fs }.write (.commandFailed err)

/-- A line without its `&`. -/
def runForeground (t : Terminal) (line : List Char) (background : Bool) : Option Terminal := do
  let (handled, t) ← t.runShellCommand line background
  if handled then return t else t.runProgram line

def runLine (t : Terminal) : Option Terminal :=
  let line := trim t.shell.line
  if line.isEmpty then some t
  else if line.getLast? = some '&' then
    let line := trimEnd line.dropLast
    if line.isEmpty then some t else t.runForeground line true
  else t.runForeground line false

/-! ### Input -/

def isAsciiGraphic (byte : UInt8) : Bool := 33 ≤ byte && byte ≤ 126

def setLine (t : Terminal) (line : List Char) : Terminal :=
  { t with shell := { t.shell with line := line } }

def handleByte (t : Terminal) (byte : UInt8) : Option Terminal :=
  if t.shell.active.isSome then
    if byte = 26 then some t.suspendActiveJob else some t
  else if byte = 13 ∨ byte = 10 then do
    let t ← (t.write .newline).runLine
    return (t.setLine []).write .prompt
  else if byte = 8 ∨ byte = 127 then
    if t.shell.line.isEmpty then some t
    else some ((t.setLine t.shell.line.dropLast).write .rubout)
  else if isAsciiGraphic byte ∨ byte = 32 then
    some ((t.setLine (t.shell.line ++ [Char.ofNat byte.toNat])).write (.echo byte))
  else some t

end Terminal

end Zeronix
