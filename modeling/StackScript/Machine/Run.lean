/-
# Runs

A run executes the slots of a chunk from the first on. It ends at a `finish`, at the
first fault, or with a fault at the end of the code. A fault is reported with its line,
which is that of the last code byte read, and empties the stack:

```text
Division by zero.
[line 3] in script
```

`interpret` runs a source. A faulty source is not run; its diagnostics are reported.
-/
import StackScript.Compilation
import StackScript.Listing
import StackScript.Machine.Step

namespace StackScript

/-- How running a source ends. -/
inductive RunResult where
  | ok
  | compileError
  | runtimeError
  deriving DecidableEq, Repr

namespace Machine

/-- Logs the stack, if instructions are logged. -/
def traceStack (m : Machine) : Machine :=
  if m.settings.traceExecution then
    let values := m.stack.toList.map fun v => s!"[ {v.text m.pool} ]"
    m.log .trace .machine ("          " ++ String.join values)
  else m

/-- Logs the stack and the instruction that comes next, if instructions are logged. -/
def trace (m : Machine) (chunk : Chunk) (slot : Slot) : Machine :=
  let m := m.traceStack
  if m.settings.traceExecution then
    m.log .trace .machine (slot.text m.pool chunk.constants)
  else m

/-- How a run ends: well, or with a fault on a line. -/
inductive Ending where
  | finished
  | failed (fault : RuntimeFault) (line : Nat)
  deriving DecidableEq, Repr

/-- How far a run has come: it goes on, or it has ended. -/
inductive Progress where
  | running (m : Machine)
  | ended (ending : Ending) (m : Machine)

/-- Executes what a slot of a chunk holds. -/
def runSlot (chunk : Chunk) (slot : Slot) (m : Machine) : Progress :=
  let m := m.trace chunk slot
  match slot.content with
  | .unknown byte => .ended (.failed (.code (.unknownOpcode byte slot.offset)) slot.lastLine) m
  | .truncated _ => .ended (.failed (.code (.unexpectedEnd (slot.offset + 1))) slot.lastLine) m
  | .instruction i =>
    match m.step chunk.constants i with
    | .next m => .running m
    | .finished m => .ended .finished m
    | .failed fault m => .ended (.failed fault slot.lastLine) m

/-- Executes some slots of a chunk in turn, up to the first that ends the run. -/
def runSlots (chunk : Chunk) : List Slot → Machine → Progress
  | [], m => .running m
  | slot :: others, m =>
    match runSlot chunk slot m with
    | .running m => runSlots chunk others m
    | .ended ending m => .ended ending m

/-- Some slots and then others. -/
theorem runSlots_append (chunk : Chunk) (slots others : List Slot) (m : Machine) :
    runSlots chunk (slots ++ others) m =
      match runSlots chunk slots m with
      | .running m => runSlots chunk others m
      | .ended ending m => .ended ending m := by
  induction slots generalizing m with
  | nil => rfl
  | cons slot slots ih =>
    simp only [List.cons_append, runSlots]
    cases runSlot chunk slot m with
    | running m => exact ih m
    | ended ending m => rfl

/-- Executes a chunk, without reporting. The end of the code is no good end. -/
def run (m : Machine) (chunk : Chunk) : Ending × Machine :=
  match runSlots chunk chunk.slots m with
  | .ended ending m => (ending, m)
  | .running m =>
    (.failed (.code (.unexpectedEnd chunk.size)) (chunk.lineAt (chunk.size - 1)), m.traceStack)

/-- The text that is reported for a fault. -/
def faultText (fault : RuntimeFault) (line : Nat) : String :=
  s!"{fault.message}\n[line {line}] in script"

/-- Reports a fault and empties the stack. -/
def abort (m : Machine) (fault : RuntimeFault) (line : Nat) : Machine :=
  let m := m.log .debug .machine s!"runtime error at line {line}: {fault.message}"
  let m := m.reportLine (faultText fault line)
  { m with stack := m.stack.clear }

/-- Runs a chunk. -/
def interpretChunk (m : Machine) (chunk : Chunk) : RunResult × Machine :=
  let m := m.log .debug .machine s!"running chunk: {chunk.size} bytes"
  match m.run chunk with
  | (.finished, m) =>
    (.ok, m.log .debug .machine s!"run finished, {m.globals.size} globals defined")
  | (.failed fault line, m) => (.runtimeError, m.abort fault line)

/-- Compiles a source with the strings of the machine. -/
def compile (m : Machine) (source : String) : Except (List Diagnostic) Chunk × Machine :=
  match StackScript.compile source m.pool with
  | (.ok chunk, pool) => (.ok chunk, { m with pool })
  | (.error diagnostics, pool) =>
    (.error diagnostics,
      { m with pool }.log .debug .compiler
        s!"compile failed with {diagnostics.length} error(s)")

/-- The message about a faulty source. -/
def compileMessage (diagnostics : List Diagnostic) : String :=
  s!"compilation failed with {diagnostics.length} error(s)"

/-- Reports the diagnostics of a faulty source. -/
def reject (m : Machine) (diagnostics : List Diagnostic) : Machine :=
  let m := m.log .debug .machine (compileMessage diagnostics)
  diagnostics.foldl (fun m d => m.reportLine d.text) m

/-- Runs a source. -/
def interpret (m : Machine) (source : String) : RunResult × Machine :=
  match m.compile source with
  | (.ok chunk, m) => m.interpretChunk chunk
  | (.error diagnostics, m) => (.compileError, m.reject diagnostics)

end Machine
end StackScript
