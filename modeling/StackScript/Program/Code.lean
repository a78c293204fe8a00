/-
# The code of a program

An expression is turned into the instructions that leave its value on the stack: the
code of the operands in their order, then the operation. A constant is numbered by how
many constants come before it in the source; `next` is the number of the first
constant of the tree at hand.

| tree | code |
| --- | --- |
| constant, `nil`, boolean, name | one instruction that pushes the value |
| `name = e` | `e`, assign to the global `name` |
| `(e)` | `e` |
| `-e`, `!e` | `e`, the operation |
| `l op r` | `l`, `r`, the operation; `!=`, `>=` and `<=` are negated `==`, `<` and `>` |
| `var name = e;` | `e` or `nil`, define the global `name` |
| `print e;` | `e`, print |
| `e;` | `e`, pop |

Every instruction is traced to the line of the token read last when the operation was
complete: the token itself, the last token of the operand, or the semicolon.
-/
import StackScript.Chunk
import StackScript.Instruction
import StackScript.Program

namespace StackScript

/-- An instruction with its source line. -/
structure TracedInstruction where
  instruction : Instruction
  line : Nat
  deriving DecidableEq, Repr

/-- The bytes of an instruction, all of its line. -/
def TracedInstruction.bytes (i : TracedInstruction) : List CodeByte :=
  i.instruction.encode.map (⟨·, i.line⟩)

/-- The operation of an operator with one operand. -/
def UnaryOp.code : UnaryOp → Instruction
  | negate => .negate
  | not => .not

/-- The operations of an operator with two operands. -/
def BinaryOp.code : BinaryOp → List Instruction
  | equal => [.equal]
  | notEqual => [.equal, .not]
  | greater => [.greater]
  | greaterEqual => [.less, .not]
  | less => [.less]
  | lessEqual => [.greater, .not]
  | add => [.add]
  | subtract => [.subtract]
  | multiply => [.multiply]
  | divide => [.divide]

/-- The code of an expression whose first constant has the number `next`. -/
def Expr.code (next : Nat) : Expr → List TracedInstruction
  | literal _ line => [⟨.constant (.ofNat next), line⟩]
  | nil line => [⟨.pushNil, line⟩]
  | bool true line => [⟨.pushTrue, line⟩]
  | bool false line => [⟨.pushFalse, line⟩]
  | global _ line => [⟨.getGlobal (.ofNat next), line⟩]
  | assign _ _ value =>
    value.code (next + 1) ++ [⟨.setGlobal (.ofNat next), value.lastLine⟩]
  | group inner _ => inner.code next
  | unary op operand => operand.code next ++ [⟨op.code, operand.lastLine⟩]
  | binary op left right =>
    left.code next ++ right.code (next + left.constants.length) ++
      op.code.map (⟨·, right.lastLine⟩)

/-- The code of a declaration whose first constant has the number `next`. -/
def Declaration.code (next : Nat) : Declaration → List TracedInstruction
  | define _ nameLine none endLine =>
    [⟨.pushNil, nameLine⟩, ⟨.defineGlobal (.ofNat next), endLine⟩]
  | define _ _ (some value) endLine =>
    value.code (next + 1) ++ [⟨.defineGlobal (.ofNat next), endLine⟩]
  | print value endLine => value.code next ++ [⟨.print, endLine⟩]
  | expression value endLine => value.code next ++ [⟨.pop, endLine⟩]

/-- The code of some declarations, of which the first constant has the number `next`. -/
def Declaration.codeOfList (next : Nat) : List Declaration → List TracedInstruction
  | [] => []
  | d :: others => d.code next ++ codeOfList (next + d.constants.length) others

/-- The code of a program. It ends the run on the last line of the source. -/
def Program.code (p : Program) : List TracedInstruction :=
  Declaration.codeOfList 0 p.declarations ++ [⟨.finish, p.lastLine⟩]

end StackScript
