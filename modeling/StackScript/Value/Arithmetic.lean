/-
# Arithmetic on values

Arithmetic and order take two integers or two doubles, never one of each. Integer
results wrap to 32 bits; integer division rounds toward zero and has no result for a
zero divisor. Doubles follow IEEE 754.
-/
import StackScript.RuntimeFault
import StackScript.Value

namespace StackScript

/-- The arithmetic operations. -/
inductive ArithmeticOp where
  | add
  | subtract
  | multiply
  | divide
  deriving DecidableEq, Repr

namespace ArithmeticOp

/-- An operation on integers. -/
def onInts : ArithmeticOp → Int32 → Int32 → Except RuntimeFault Int32
  | add, a, b => .ok (a + b)
  | subtract, a, b => .ok (a - b)
  | multiply, a, b => .ok (a * b)
  | divide, a, b => if b = 0 then .error .divisionByZero else .ok (a / b)

/-- An operation on doubles. -/
def onDoubles : ArithmeticOp → Float → Float → Float
  | add, a, b => a + b
  | subtract, a, b => a - b
  | multiply, a, b => a * b
  | divide, a, b => a / b

end ArithmeticOp

/-- The order relations. -/
inductive OrderOp where
  | greater
  | less
  deriving DecidableEq, Repr

namespace OrderOp

/-- A relation between integers. -/
def onInts : OrderOp → Int32 → Int32 → Bool
  | greater, a, b => b < a
  | less, a, b => a < b

/-- A relation between doubles. -/
def onDoubles : OrderOp → Float → Float → Bool
  | greater, a, b => b < a
  | less, a, b => a < b

end OrderOp

namespace Value

/-- The result of an arithmetic operation. -/
def arithmetic (op : ArithmeticOp) : Value → Value → Except RuntimeFault Value
  | int a, int b => (op.onInts a b).map int
  | double a, double b => .ok (double (op.onDoubles a b))
  | _, _ => .error .operandMismatch

/-- Whether an order relation holds. -/
def order (op : OrderOp) : Value → Value → Except RuntimeFault Value
  | int a, int b => .ok (bool (op.onInts a b))
  | double a, double b => .ok (bool (op.onDoubles a b))
  | _, _ => .error .operandMismatch

/-- The negative of a number. -/
def negate : Value → Except RuntimeFault Value
  | int a => .ok (int (-a))
  | double a => .ok (double (-a))
  | _ => .error .negateNonNumber

end Value
end StackScript
