/-
# Operation codes

An instruction starts with one byte, its operation code. Four operations take the
index of a constant in a second byte; the others stand alone.

| code | operation | operand |
| ---: | --- | --- |
| 0 | push a constant | constant |
| 1–3 | push `nil`, `true`, `false` | |
| 4 | drop the top value | |
| 5–7 | read, define, assign a global variable | constant, its name |
| 8–10 | compare two values | |
| 11–14 | arithmetic on two values | |
| 15, 16 | logical and arithmetic negation | |
| 17 | print the top value | |
| 18 | end the run | |
-/

namespace StackScript

/-- The operations of the machine. -/
inductive Opcode where
  | constant
  | pushNil
  | pushTrue
  | pushFalse
  | pop
  | getGlobal
  | defineGlobal
  | setGlobal
  | equal
  | greater
  | less
  | add
  | subtract
  | multiply
  | divide
  | not
  | negate
  | print
  | finish
  deriving DecidableEq, Repr

namespace Opcode

/-- The operations in the order of their codes. -/
def all : List Opcode :=
  [constant, pushNil, pushTrue, pushFalse, pop, getGlobal, defineGlobal, setGlobal, equal,
    greater, less, add, subtract, multiply, divide, not, negate, print, finish]

/-- The code of an operation. -/
def toByte (op : Opcode) : UInt8 :=
  UInt8.ofNat (all.idxOf op)

/-- The operation with a code. -/
def ofByte? (b : UInt8) : Option Opcode :=
  all[b.toNat]?

/-- The code of an operation is read as that operation. -/
@[simp] theorem ofByte?_toByte (op : Opcode) : ofByte? op.toByte = some op := by
  cases op <;> rfl

/-- What is read as an operation is the code of it. -/
theorem toByte_of_ofByte? {b : UInt8} {op : Opcode} (h : ofByte? b = some op) : op.toByte = b := by
  have lt : b.toNat < 19 := by
    obtain ⟨lt, -⟩ := List.getElem?_eq_some_iff.1 h
    exact lt
  have : ∀ n < 19, ∀ op, all[n]? = some op → op.toByte = UInt8.ofNat n := by decide
  simpa using this b.toNat lt op h

/-- The plain name of an operation. -/
def name : Opcode → String
  | constant => "Constant"
  | pushNil => "Nil"
  | pushTrue => "True"
  | pushFalse => "False"
  | pop => "Pop"
  | getGlobal => "GetGlobal"
  | defineGlobal => "DefineGlobal"
  | setGlobal => "SetGlobal"
  | equal => "Equal"
  | greater => "Greater"
  | less => "Less"
  | add => "Add"
  | subtract => "Subtract"
  | multiply => "Multiply"
  | divide => "Divide"
  | not => "Not"
  | negate => "Negate"
  | print => "Print"
  | finish => "Return"

/-- The name of an operation in a listing. -/
def mnemonic : Opcode → String
  | constant => "CONSTANT"
  | pushNil => "NIL"
  | pushTrue => "TRUE"
  | pushFalse => "FALSE"
  | pop => "POP"
  | getGlobal => "GET_GLOBAL"
  | defineGlobal => "DEFINE_GLOBAL"
  | setGlobal => "SET_GLOBAL"
  | equal => "EQUAL"
  | greater => "GREATER"
  | less => "LESS"
  | add => "ADD"
  | subtract => "SUBTRACT"
  | multiply => "MULTIPLY"
  | divide => "DIVIDE"
  | not => "NOT"
  | negate => "NEGATE"
  | print => "PRINT"
  | finish => "RETURN"

/-- The number of operand bytes of an operation. -/
def operandLength : Opcode → Nat
  | constant | getGlobal | defineGlobal | setGlobal => 1
  | _ => 0

end Opcode
end StackScript
