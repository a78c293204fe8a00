/-
# Instructions

An instruction is an operation together with its operand, if it takes one. `encode`
writes it in bytes. What an operation code announces is its `Opcode.form`: a whole
instruction, or one that waits for its operand.
-/
import StackScript.Opcode

namespace StackScript

/-- An operation with its operand. -/
inductive Instruction where
  | constant (index : UInt8)
  | pushNil
  | pushTrue
  | pushFalse
  | pop
  | getGlobal (name : UInt8)
  | defineGlobal (name : UInt8)
  | setGlobal (name : UInt8)
  | equal
  | greater
  | less
  | add
  | subtract
  | multiply
  | divide
  | not
  | negate
  | print
  | finish
  deriving DecidableEq, Repr

namespace Instruction

/-- The operation of an instruction. -/
def opcode : Instruction → Opcode
  | constant _ => .constant
  | pushNil => .pushNil
  | pushTrue => .pushTrue
  | pushFalse => .pushFalse
  | pop => .pop
  | getGlobal _ => .getGlobal
  | defineGlobal _ => .defineGlobal
  | setGlobal _ => .setGlobal
  | equal => .equal
  | greater => .greater
  | less => .less
  | add => .add
  | subtract => .subtract
  | multiply => .multiply
  | divide => .divide
  | not => .not
  | negate => .negate
  | print => .print
  | finish => .finish

/-- The operand of an instruction. -/
def operand? : Instruction → Option UInt8
  | constant k | getGlobal k | defineGlobal k | setGlobal k => some k
  | _ => none

/-- The bytes of an instruction. -/
def encode (i : Instruction) : List UInt8 :=
  i.opcode.toByte :: i.operand?.toList

end Instruction

/-- What an operation code announces. -/
inductive Opcode.Form where
  | whole (i : Instruction)
  | awaits (complete : UInt8 → Instruction)

/-- The instruction that an operation code starts. -/
def Opcode.form : Opcode → Form
  | constant => .awaits .constant
  | pushNil => .whole .pushNil
  | pushTrue => .whole .pushTrue
  | pushFalse => .whole .pushFalse
  | pop => .whole .pop
  | getGlobal => .awaits .getGlobal
  | defineGlobal => .awaits .defineGlobal
  | setGlobal => .awaits .setGlobal
  | equal => .whole .equal
  | greater => .whole .greater
  | less => .whole .less
  | add => .whole .add
  | subtract => .whole .subtract
  | multiply => .whole .multiply
  | divide => .whole .divide
  | not => .whole .not
  | negate => .whole .negate
  | print => .whole .print
  | finish => .whole .finish

/-- The code of an instruction announces that instruction. -/
theorem Instruction.form_opcode (i : Instruction) :
    (∃ k complete, i.operand? = some k ∧ i.opcode.form = .awaits complete ∧ complete k = i) ∨
      (i.operand? = none ∧ i.opcode.form = .whole i) := by
  cases i <;> simp [operand?, opcode, Opcode.form]

end StackScript
