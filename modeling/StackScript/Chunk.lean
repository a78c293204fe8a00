/-
# Chunks

A chunk is a piece of code: bytes, each with the source line that it comes from, and
the constants that its instructions refer to by index. An operand is one byte, so
only the first `maxConstants` constants can be referred to.
-/
import StackScript.Value

namespace StackScript

/-- A byte of code with its source line. -/
structure CodeByte where
  byte : UInt8
  line : Nat
  deriving DecidableEq, Repr

/-- Code with its constants. -/
structure Chunk where
  code : List CodeByte
  constants : List Value
  deriving DecidableEq

namespace Chunk

/-- How many constants an operand can tell apart. -/
def maxConstants : Nat := 256

/-- No code and no constants. -/
def empty : Chunk := ⟨[], []⟩

/-- The number of bytes. -/
def size (chunk : Chunk) : Nat :=
  chunk.code.length

/-- The chunk with one byte more. -/
def write (chunk : Chunk) (byte : UInt8) (line : Nat) : Chunk :=
  { chunk with code := chunk.code ++ [⟨byte, line⟩] }

/-- The chunk with one constant more, at the index answered. -/
def addConstant (chunk : Chunk) (v : Value) : Nat × Chunk :=
  (chunk.constants.length, { chunk with constants := chunk.constants ++ [v] })

/-- The constant at an index. -/
def constant? (chunk : Chunk) (index : Nat) : Option Value :=
  chunk.constants[index]?

/-- The source line of a byte; `0` where there is none. -/
def lineAt (chunk : Chunk) (offset : Nat) : Nat :=
  (chunk.code[offset]?.map (·.line)).getD 0

/-- A constant that was added stands at the index that was answered. -/
theorem constant?_addConstant (chunk : Chunk) (v : Value) :
    (chunk.addConstant v).2.constant? (chunk.addConstant v).1 = some v := by
  simp [addConstant, constant?]

end Chunk
end StackScript
