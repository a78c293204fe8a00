/-
# The command line

```text
mufi [PATH] [--config FILE] [--trace] [--disassemble] [--log-level FILTER]
```

With a path the script there is run; without one, every line of the standard input is
run as it comes, on one machine, after a prompt.

| exit | when |
| ---: | --- |
| 0 | the script ran to its end; the input ended; help was asked for |
| 64 | the arguments or the settings are faulty |
| 65 | the script is faulty |
| 70 | the run of the script ended with a fault |
| 74 | the script or the input cannot be read |

Reading the arguments and the settings file, wording a chain of causes and filtering the log
is left to libraries (`Libraries`), and what the program finds around it is its `System`. Both
are arbitrary here.
-/
import StackScript.Machine.Run

namespace StackScript
namespace CommandLine

/-! ## Exit codes -/

/-- How the program ends. -/
inductive ExitCode where
  | success
  | usage
  | faultyScript
  | faultyRun
  | unreadable
  deriving DecidableEq, Repr

/-- The number of an exit code. -/
def ExitCode.toNat : ExitCode → Nat
  | success => 0
  | usage => 64
  | faultyScript => 65
  | faultyRun => 70
  | unreadable => 74

/-- The exit code of a script. -/
def ExitCode.ofResult : RunResult → ExitCode
  | .ok => success
  | .compileError => faultyScript
  | .runtimeError => faultyRun

/-! ## Files and failures -/

/-- The contents of each path, or why it cannot be read. -/
abbrev Files := String → Except String (List UInt8)

/-- Why bytes are not read as a text. -/
def noText : String := "stream did not contain valid UTF-8"

/-- The contents of a file as text. -/
def Files.text (files : Files) (path : String) : Except String (List Char) := do
  match Utf8.decode? (← files path) with
  | some text => return text
  | none => .error noText

/-- Why the program gives up. -/
inductive Failure where
  | config (path cause : String)
  | settings (path fault : String)
  | noStack
  | script (path cause : String)
  | input
  deriving DecidableEq, Repr

/-- What the program could not do, and then why. -/
def Failure.chain : Failure → List String
  | config path cause => [s!"reading config: {path}", cause]
  | settings path fault => [s!"parsing config: {path}", fault]
  | noStack => ["stack_max must be at least 1"]
  | script path cause => [s!"reading script: {path}", cause]
  | input => ["reading stdin", noText]

/-! ## What the program is built on -/

/-- What the arguments ask for. -/
structure Options where
  path : Option String := none
  config : Option String := none
  logLevel : Option String := none
  trace : Bool := false
  disassemble : Bool := false
  deriving DecidableEq, Repr

/-- A reply to arguments that ask for no run: what is wrong with them, or the help that they
ask for. -/
structure Reply where
  text : String
  isFault : Bool
  deriving DecidableEq, Repr

/-- A logger: what it warns of when it is set up, and which records it shows. -/
structure Logger where
  warnings : List String
  shows : Log.Record → Bool

/-- The libraries that the program uses. -/
structure Libraries where
  /-- The options that arguments stand for. -/
  options : List String → Except Reply Options
  /-- The settings that the text of a file stands for, or what is wrong with it. -/
  settings : List Char → Except String Settings
  /-- A chain of causes in words. -/
  wording : List String → String
  /-- The logger for a filter, some of which may be overridden by another. -/
  logger : String → Option String → Logger

/-- What the program finds around it. -/
structure System where
  files : Files
  /-- The log filter of the environment. -/
  logFilter? : Option String
  /-- Whether there is memory for a stack of so many values. -/
  fits : Nat → Bool

/-! ## Settings -/

/-- The settings that the options ask for. -/
def Options.settings (libraries : Libraries) (files : Files) (o : Options) :
    Except Failure Settings := do
  let fromFile ←
    match o.config with
    | none => pure default
    | some path =>
      match files.text path with
      | .error cause => .error (.config path cause)
      | .ok text => (libraries.settings text).mapError (.settings path)
  if fromFile.stackMax = 0 then .error .noStack
  else return { fromFile with traceExecution := fromFile.traceExecution || o.trace }

/-- The log filter without any that is asked for: warnings and worse. -/
def standardFilter : String := "warn"

/-- The logger that the options ask for. -/
def Options.logger (libraries : Libraries) (system : System) (o : Options) : Logger :=
  libraries.logger (system.logFilter?.getD standardFilter) o.logLevel

/-! ## Sources -/

/-- Runs a source, and shows its listing before if asked for. -/
def execute (m : Machine) (source title : String) (disassemble : Bool) : RunResult × Machine :=
  if disassemble then
    match m.compile source with
    | (.ok chunk, m) => (m.note (.reported (chunk.listing m.pool title))).interpretChunk chunk
    | (.error diagnostics, m) =>
      (.compileError, diagnostics.foldl (fun m d => m.note (.reported (d.text ++ "\n"))) m)
  else m.interpret source

/-- The log record of a failure. -/
def Failure.record (wording : List String → String) (failure : Failure) : Log.Record :=
  ⟨.error, .commandLine, wording failure.chain⟩

/-- Logs a failure. -/
def fail (wording : List String → String) (m : Machine) (failure : Failure) : Machine :=
  m.note (.logged (failure.record wording))

/-- Runs the script at a path. -/
def runScript (wording : List String → String) (files : Files) (path : String)
    (disassemble : Bool) (m : Machine) : ExitCode × Machine :=
  match files.text path with
  | .error cause => (.unreadable, fail wording m (.script path cause))
  | .ok source =>
    let (result, m) := execute m (String.ofList source) path disassemble
    (.ofResult result, m)

/-! ## Sessions -/

/-- The lines of some input, each with its line end. -/
def inputLines : List UInt8 → List (List UInt8)
  | [] => []
  | b :: rest =>
    if b = 10 then [b] :: inputLines rest
    else
      match inputLines rest with
      | [] => [[b]]
      | line :: others => (b :: line) :: others

/-- Shows the prompt. -/
def prompt (m : Machine) : Machine :=
  m.note (.printed "> ")

/-- Runs one line of input; `none` if it cannot be read. -/
def runLine (disassemble : Bool) (m : Machine) (line : List UInt8) : Option Machine :=
  (Utf8.decode? line).map fun source => (execute m (String.ofList source) "repl" disassemble).2

/-- The end of a session whose input has ended. -/
def endOfInput (m : Machine) : Except Failure Unit × Machine :=
  (.ok (), m.note (.printed "\n"))

/-- The end of a session whose input cannot be read further. -/
def unreadableInput (m : Machine) : Except Failure Unit × Machine :=
  (.error .input, m)

/-- Runs the lines of the input in turn, each after a prompt. -/
def runLines (disassemble : Bool) :
    List (List UInt8) → Machine → Except Failure Unit × Machine
  | [], m => endOfInput (prompt m)
  | line :: others, m =>
    let m := prompt m
    match runLine disassemble m line with
    | some m => runLines disassemble others m
    | none => unreadableInput m

/-- How the program ends after a session. A failure is logged. -/
def afterSession (wording : List String → String) :
    Except Failure Unit × Machine → ExitCode × Machine
  | (.ok (), m) => (.success, m)
  | (.error failure, m) => (.unreadable, fail wording m failure)

/-! ## The program -/

/-- A machine with the settings, ready to run. -/
def start (settings : Settings) : Machine :=
  (Machine.create settings .unlimited .unlimited).log .debug .commandLine
    s!"vm config: {settings.text}"

/-- What the program did: its exit code, the events in their order, and which of the log
records among them are shown. -/
structure Outcome where
  exit : ExitCode
  events : List Event
  shows : Log.Record → Bool

/-- The outcome of arguments that ask for no run. -/
def Reply.outcome (reply : Reply) : Outcome :=
  if reply.isFault then ⟨.usage, [.reported reply.text], fun _ => false⟩
  else ⟨.success, [.printed reply.text], fun _ => false⟩

/-- Runs the program on its arguments and its input. `none` if there is no memory for the stack:
then the program is stopped where it sets up the machine. -/
def run (libraries : Libraries) (system : System) (args : List String) (input : List UInt8) :
    Option Outcome :=
  match libraries.options args with
  | .error reply => some reply.outcome
  | .ok o =>
    let logger := o.logger libraries system
    let warnings := logger.warnings.map Event.reported
    match o.settings libraries system.files with
    | .error failure =>
      some ⟨.usage, warnings ++ [.logged (failure.record libraries.wording)], logger.shows⟩
    | .ok settings =>
      if system.fits settings.stackMax then
        let m := start settings
        let (exit, m) :=
          match o.path with
          | some path => runScript libraries.wording system.files path o.disassemble m
          | none => afterSession libraries.wording (runLines o.disassemble (inputLines input) m)
        some ⟨exit, warnings ++ m.close.transcript.toList, logger.shows⟩
      else none

/-- What an event adds to the standard output. -/
def outputText : Event → String
  | .printed text => text
  | _ => ""

/-- What an event adds to the standard error, where `line` is how a record is shown. -/
def errorText (shows : Log.Record → Bool) (line : Log.Record → String) : Event → String
  | .printed _ => ""
  | .reported text => text
  | .logged r => if shows r then line r else ""

end CommandLine
end StackScript
