/-
# Faults of a run

What can end a run before its time, with the message that is reported for it. Code
that comes from a source never runs into a `CodeFault`.
-/
import StackScript.Hex

namespace StackScript

/-- What can be wrong with code. -/
inductive CodeFault where
  | unknownOpcode (byte : UInt8) (offset : Nat)
  | unexpectedEnd (offset : Nat)
  | constantOutOfRange (index poolSize : Nat)
  | notAString (index : Nat)
  | stackUnderflow
  deriving DecidableEq, Repr

/-- The message of a fault in the code. -/
def CodeFault.message : CodeFault → String
  | unknownOpcode byte offset =>
    s!"invalid opcode 0x{Hex.byte byte} at offset {offset}"
  | unexpectedEnd offset => s!"unexpected end of code at offset {offset}"
  | constantOutOfRange index poolSize =>
    s!"constant index {index} out of range (pool size {poolSize})"
  | notAString index => s!"constant {index} is not a string"
  | stackUnderflow => "stack underflow"

/-- What can end a run before its time. -/
inductive RuntimeFault where
  | undefinedVariable (name : String)
  | operandMismatch
  | negateNonNumber
  | divisionByZero
  | stackOverflow (limit : Nat)
  | code (fault : CodeFault)
  /-- The output was not written, or not flushed, for the reason that it gives. -/
  | output (why : String)
  deriving DecidableEq, Repr

/-- The message of a fault. -/
def RuntimeFault.message : RuntimeFault → String
  | undefinedVariable name => "Undefined variable '" ++ name ++ "'."
  | operandMismatch => "Operands must be either both integer or both double numbers."
  | negateNonNumber => "Operand must be a number (int/double)."
  | divisionByZero => "Division by zero."
  | stackOverflow limit => s!"Stack overflow (limit={limit})."
  | code fault => s!"Corrupt bytecode: {fault.message}"
  | output why => s!"Failed to write program output: {why}"

end StackScript
