/-
# Settings

What can be set about a machine: how many values its stack holds, and whether it logs
each instruction that it executes.
-/

namespace StackScript

/-- The settings of a machine. -/
structure Settings where
  /-- How many values the stack holds. -/
  stackMax : Nat := 256
  /-- Whether every instruction is logged. -/
  traceExecution : Bool := false
  deriving DecidableEq, Repr

instance : Inhabited Settings := ⟨{}⟩

/-- The settings as the log shows them. -/
def Settings.text (s : Settings) : String :=
  s!"VmConfig \x7b stack_max: {s.stackMax}, trace_execution: {s.traceExecution} \x7d"

end StackScript
