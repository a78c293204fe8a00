/-
# The program

Reads arguments, files and standard input, and writes what `StackScript.CommandLine`
decides. A session writes what each line of input leads to before it reads the next.
-/
import StackScript.CommandLine

namespace StackScript
namespace CommandLine

/-- The contents of a file. -/
def contents (path : String) : IO (Except String (List UInt8)) := do
  try
    return .ok (← IO.FS.readBinFile path).toList
  catch fault =>
    return .error (toString fault)

/-- The files that the options name. -/
def readFiles (o : Options) : IO Files := do
  let named := o.config.toList ++ o.path.toList
  let read ← named.mapM fun path => do return (path, ← contents path)
  return fun path => (read.lookup path).getD (.error path)

/-- Writes some events. -/
def writeEvents (shows : Log.Record → Bool) (line : Log.Record → String) (events : List Event) :
    IO Unit := do
  for event in events do
    IO.print (outputText event)
    IO.eprint (errorText shows line event)
  (← IO.getStdout).flush

/-- Reads a line with its line end; no bytes at the end of the input. -/
partial def readLine (input : IO.FS.Stream) (line : List UInt8) : IO (List UInt8) := do
  let bytes ← input.read 1
  match bytes.toList with
  | [b] => if b = 10 then return (b :: line).reverse else readLine input (b :: line)
  | _ => return line.reverse

/-- Runs the lines of the input as they come. -/
partial def serve (write : Machine → IO Machine) (disassemble : Bool) (input : IO.FS.Stream)
    (m : Machine) : IO (Except Failure Unit × Machine) := do
  let m ← write (prompt m)
  match ← readLine input [] with
  | [] => return endOfInput m
  | line =>
    match runLine disassemble m line with
    | some m => serve write disassemble input m
    | none => return unreadableInput m

/-- Runs the program with some libraries, where `line` is how a log record is shown. -/
def runMain (libraries : Libraries) (line : Log.Record → String) (args : List String) :
    IO ExitCode := do
  match libraries.options args with
  | .error reply =>
    let outcome := reply.outcome
    writeEvents outcome.shows line outcome.events
    return outcome.exit
  | .ok o =>
    let system : System :=
      ⟨← readFiles o, ← IO.getEnv "RUST_LOG", fun _ => true⟩
    let logger := o.logger libraries system
    let write (m : Machine) : IO Machine := do
      writeEvents logger.shows line m.transcript.toList
      return m.withoutTranscript
    writeEvents logger.shows line (logger.warnings.map .reported)
    match o.settings libraries system.files with
    | .error failure =>
      writeEvents logger.shows line [.logged (failure.record libraries.wording)]
      return .usage
    | .ok settings =>
      let m := start settings
      let (exit, m) ←
        match o.path with
        | some path => pure (runScript libraries.wording system.files path o.disassemble m)
        | none =>
          pure (afterSession libraries.wording
            (← serve write o.disassemble (← IO.getStdin) m))
      let _ ← write m.close
      return exit

end CommandLine
end StackScript
