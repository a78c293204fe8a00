/-
# Single instructions

What each instruction does to the stack, where `a` and `b` are the two values on top,
`b` the topmost, and `k` the constant that the operand names:

| instruction | taken | left | else |
| --- | --- | --- | --- |
| constant `k` | | `k` | |
| `nil`, `true`, `false` | | the value | |
| pop | `b` | | |
| read global `k` | | its value | undefined variable |
| define global `k` | `b` | | binds `b` |
| assign global `k` | | | rebinds `b`; undefined variable |
| equal, greater, less | `a`, `b` | a boolean | mismatch (not for equal) |
| arithmetic | `a`, `b` | the result | mismatch, zero divisor |
| add, two strings | `a`, `b` | the joined string | |
| not, negate | `b` | the result | not a number (negate) |
| print | `b` | | output refused |
| finish | | | flushing failed |

Reading the operand comes before looking at the stack, and looking at the stack before
changing it. An instruction that fails changes neither globals nor strings.
-/
import StackScript.Instruction
import StackScript.Machine
import StackScript.Value.Arithmetic
import StackScript.Value.Text

namespace StackScript
namespace Machine

/-- How an instruction ends. -/
inductive Step where
  | next (m : Machine)
  | finished (m : Machine)
  | failed (fault : RuntimeFault) (m : Machine)

/-- The constant that an operand names. -/
def constant (constants : List Value) (index : UInt8) : Except RuntimeFault Value :=
  match constants[index.toNat]? with
  | some v => .ok v
  | none => .error (.code (.constantOutOfRange index.toNat constants.length))

/-- The name that an operand names: a reference to a string. -/
def nameConstant (m : Machine) (constants : List Value) (index : UInt8) :
    Except RuntimeFault Handle := do
  match ← constant constants index with
  | .object h => if m.pool.isLive h then .ok h else .error (.code (.notAString index.toNat))
  | _ => .error (.code (.notAString index.toNat))

/-- The fault of a name that is not bound. -/
def undefinedVariable (m : Machine) (name : Handle) : RuntimeFault :=
  .undefinedVariable (((m.pool.get? name).map (String.ofList ·.text)).getD "")

/-- Pushes a value. -/
def push (m : Machine) (v : Value) : Except RuntimeFault Machine := do
  let stack ← m.stack.push v
  return { m with stack }

/-- Takes the top value. -/
def pop (m : Machine) : Except RuntimeFault (Value × Machine) := do
  let (v, stack) ← m.stack.pop
  return (v, { m with stack })

/-- Puts what `f` makes of the top value in its place. -/
def mapTop (m : Machine) (f : Value → Except RuntimeFault Value) :
    Except RuntimeFault Machine := do
  let (b, m) ← m.pop
  m.push (← f b)

/-- Puts what `f` makes of the two top values in their place. -/
def mapTop2 (m : Machine) (f : Value → Value → Except RuntimeFault Value) :
    Except RuntimeFault Machine := do
  let (b, m) ← m.pop
  let (a, m) ← m.pop
  m.push (← f a b)

/-- The string that a value refers to. -/
def string? (m : Machine) : Value → Option StoredString
  | .object h => m.pool.get? h
  | _ => none

/-- Joins the two strings on top, or else adds the two numbers. -/
def add (m : Machine) : Except RuntimeFault Machine := do
  let b ← m.stack.peek 0
  let a ← m.stack.peek 1
  match m.string? a, m.string? b with
  | some s, some t =>
    let (_, m) ← m.pop
    let (_, m) ← m.pop
    let (h, m) := m.intern (s.bytes ++ t.bytes)
    m.push (.object h)
  | _, _ => m.mapTop2 (Value.arithmetic .add)

/-- Reads a global variable. -/
def getGlobal (m : Machine) (name : Handle) : Except RuntimeFault Machine :=
  match m.globals.find? name with
  | some v => m.push v
  | none => .error (m.undefinedVariable name)

/-- Binds a global variable to the top value, which is taken. -/
def defineGlobal (m : Machine) (name : Handle) : Except RuntimeFault Machine := do
  let (v, m) ← m.pop
  return { m with globals := m.globals.bind name v }

/-- Rebinds a global variable to the top value, which stays. -/
def setGlobal (m : Machine) (name : Handle) : Except RuntimeFault Machine := do
  let v ← m.stack.peek 0
  if m.globals.isBound name then return { m with globals := m.globals.bind name v }
  else .error (m.undefinedVariable name)

/-- Takes the top value and prints it on a line. -/
def printTop (m : Machine) : Step :=
  match m.pop with
  | .error fault => .failed fault m
  | .ok (v, m) =>
    match m.printLine (v.text m.pool) with
    | (none, m) => .next m
    | (some why, m) => .failed (.output why) m

/-- The end of an instruction that leaves the machine `m` as it is if it fails. -/
def Step.ofExcept (m : Machine) : Except RuntimeFault Machine → Step
  | .ok after => .next after
  | .error fault => .failed fault m

/-- Executes an instruction. -/
def step (constants : List Value) (m : Machine) : Instruction → Step
  | .constant k => .ofExcept m do m.push (← constant constants k)
  | .pushNil => .ofExcept m (m.push .nil)
  | .pushTrue => .ofExcept m (m.push (.bool true))
  | .pushFalse => .ofExcept m (m.push (.bool false))
  | .pop => .ofExcept m do return (← m.pop).2
  | .getGlobal k => .ofExcept m do m.getGlobal (← m.nameConstant constants k)
  | .defineGlobal k => .ofExcept m do m.defineGlobal (← m.nameConstant constants k)
  | .setGlobal k => .ofExcept m do m.setGlobal (← m.nameConstant constants k)
  | .equal => .ofExcept m (m.mapTop2 fun a b => .ok (.bool (a.same b)))
  | .greater => .ofExcept m (m.mapTop2 (Value.order .greater))
  | .less => .ofExcept m (m.mapTop2 (Value.order .less))
  | .add => .ofExcept m m.add
  | .subtract => .ofExcept m (m.mapTop2 (Value.arithmetic .subtract))
  | .multiply => .ofExcept m (m.mapTop2 (Value.arithmetic .multiply))
  | .divide => .ofExcept m (m.mapTop2 (Value.arithmetic .divide))
  | .not => .ofExcept m (m.mapTop fun b => .ok (.bool b.isFalsey))
  | .negate => .ofExcept m (m.mapTop Value.negate)
  | .print => m.printTop
  | .finish =>
    match m.output.flush with
    | none => .finished m
    | some why => .failed (.output why) m

end Machine
end StackScript
