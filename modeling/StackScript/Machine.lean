/-
# The machine

A machine holds a stack, the global variables and the strings of a session. Beside
that it has two sinks, for printed and for reported text, and a transcript of what it
did that can be seen from outside, in order: texts that were printed or reported, and
log records.

What a session does never depends on its transcript.
-/
import StackScript.Globals
import StackScript.Log
import StackScript.Settings
import StackScript.Sink
import StackScript.Stack
import StackScript.StringPool

namespace StackScript

/-- Something that can be seen from outside. -/
inductive Event where
  | printed (text : String)
  | reported (text : String)
  | logged (record : Log.Record)
  deriving DecidableEq, Repr

/-- The state of a session. -/
structure Machine where
  settings : Settings
  stack : Stack
  globals : Globals
  pool : StringPool
  output : Sink
  errors : Sink
  transcript : Array Event

namespace Machine

/-- A new machine. -/
def create (settings : Settings) (output errors : Sink) : Machine :=
  { settings, output, errors
    stack := .empty settings.stackMax
    globals := .empty
    pool := .empty
    transcript := #[] }

/-- Adds an event to the transcript. -/
def note (m : Machine) (event : Event) : Machine :=
  { m with transcript := m.transcript.push event }

/-- Logs a message. -/
def log (m : Machine) (level : Log.Level) (part : Log.Part) (message : String) : Machine :=
  m.note (.logged ⟨level, part, message⟩)

/-- The machine with an empty transcript. -/
def withoutTranscript (m : Machine) : Machine :=
  { m with transcript := #[] }

/-- Prints a text, and answers why the output refused it, if it did. -/
def print (m : Machine) (text : String) : Option String × Machine :=
  let (refusal, output) := m.output.write text
  let m := { m with output }
  (refusal, if refusal.isNone then m.note (.printed text) else m)

/-- Prints a text and then a line end, up to the first that is refused. -/
def printLine (m : Machine) (text : String) : Option String × Machine :=
  let (refusal, m) := m.print text
  if refusal.isNone then m.print "\n" else (refusal, m)

/-- Reports a text, and answers why the error stream refused it, if it did. -/
def report (m : Machine) (text : String) : Option String × Machine :=
  let (refusal, errors) := m.errors.write text
  let m := { m with errors }
  (refusal, if refusal.isNone then m.note (.reported text) else m)

/-- Reports a text and then a line end, up to the first that is refused. A refusal is
logged. -/
def reportLine (m : Machine) (text : String) : Machine :=
  let (refusal, m) := m.report text
  let (refusal, m) := if refusal.isNone then m.report "\n" else (refusal, m)
  match refusal with
  | none => m
  | some why => m.log .warn .machine s!"failed to write diagnostic: {why}"

/-- The value of a global variable. -/
def global? (m : Machine) (name : List Char) : Option Value :=
  (m.pool.find? (Utf8.encode name)).bind m.globals.find?

/-- Puts a string into the pool. -/
def intern (m : Machine) (bytes : List UInt8) : Handle × Machine :=
  let (h, pool) := m.pool.intern bytes
  (h, { m with pool })

/-- Drops all strings. Handles that are still about then stand for nothing, or for
strings that come later. -/
def freeStrings (m : Machine) : Machine :=
  let freed := { m with pool := .empty }
  if m.pool.size = 0 then freed
  else
    freed.log .debug .strings
      s!"freeing {m.pool.size} heap objects ({m.pool.byteCount} bytes of string data)"

/-- Ends the session. -/
def close (m : Machine) : Machine :=
  { m with globals := .empty }.freeStrings

end Machine
end StackScript
