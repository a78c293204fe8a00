/-
# Evaluating the tree of a program

What a program means, read off its tree, without code, stack or handles. A world binds the
names of the global variables to what they stand for and keeps the bytes that were
printed; evaluation goes through the tree and changes the world.

| tree | meaning |
| --- | --- |
| literal | what it stands for |
| name | what it is bound to; it must be bound |
| `name = e` | `e`, to which the name is then bound; it must be bound already |
| `-e`, `!e` | `e`, then the negative of a number; whether it is `nil` or `false` |
| `l op r` | `l`, then `r`, then the operation |
| `var name = e;` | `e`, or `nil`, to which the name is then bound |
| `print e;` | `e`, of which the text is printed on a line |
| `e;` | `e` |

Operations take two integers or two doubles, `+` also two texts. Integers are computed
exactly and then wrapped to 32 bits; a quotient is rounded toward zero. Only `==` and `!=`
take all values, and two values of different kinds are never the same. `>=` and `<=` say
that `<` and `>` do not hold, so they hold where a NaN is compared.

While an expression is evaluated, the left operands of the operations around it are still
to be used: `height` counts them. No more than `limit` values can be held at once.
-/
import StackScript.Proofs.Content

namespace StackScript

/-- What a program can change: the global variables, by the bytes of their names, and the
bytes that were printed. -/
structure World where
  globals : List UInt8 → Option Datum
  output : List UInt8

namespace World

/-- The world with a name bound. -/
def bind (w : World) (name : List UInt8) (d : Datum) : World :=
  { w with globals := fun other => if other = name then some d else w.globals other }

/-- The world with more bytes printed. -/
def print (w : World) (bytes : List UInt8) : World :=
  { w with output := w.output ++ bytes }

end World

/-- An evaluation: it changes the world, and has a result or ends with a fault. -/
abbrev Evaluation := EStateM RuntimeFault World

namespace Evaluation

/-- A value that is held while there are `height` others. -/
def hold (limit height : Nat) (d : Datum) : Evaluation Datum :=
  if height < limit then pure d else throw (.stackOverflow limit)

/-- What a name is bound to. -/
def lookup (name : List Char) : Evaluation Datum := fun w =>
  match w.globals (Utf8.encode name) with
  | some d => .ok d w
  | none => .error (.undefinedVariable (String.ofList name)) w

/-- Binds a name. -/
def define (name : List Char) (d : Datum) : Evaluation Unit :=
  modify (·.bind (Utf8.encode name) d)

end Evaluation

namespace Datum

/-- Whether two values are the same. -/
def same : Datum → Datum → Bool
  | nil, nil => true
  | bool a, bool b => a == b
  | int a, int b => a == b
  | double a, double b => a == b
  | text a, text b => a == b
  | _, _ => false

/-- Only `nil` and `false` count as false. -/
def isFalse : Datum → Bool
  | nil => true
  | bool b => !b
  | _ => false

/-- An integer, wrapped to 32 bits. -/
def wrap (n : Int) : Datum :=
  int (.ofInt n)

/-- What an operation on integers and doubles makes of two values. -/
def numeric (ints : Int → Int → Except RuntimeFault Datum) (doubles : Float → Float → Datum) :
    Datum → Datum → Except RuntimeFault Datum
  | int a, int b => ints a.toInt b.toInt
  | double a, double b => .ok (doubles a b)
  | _, _ => .error .operandMismatch

/-- The text in which a value is printed. -/
def toText : Datum → String
  | nil => "nil"
  | bool true => "true"
  | bool false => "false"
  | int n => toString n.toInt
  | double x => String.ofList (Decimal.text x)
  | text bytes => String.ofList (Utf8.lossy bytes)

end Datum

/-- What an operator makes of its operand. -/
def UnaryOp.compute : UnaryOp → Datum → Except RuntimeFault Datum
  | not, d => .ok (.bool d.isFalse)
  | negate, .int n => .ok (.wrap (-n.toInt))
  | negate, .double x => .ok (.double (-x))
  | negate, _ => .error .negateNonNumber

/-- What an operator makes of its operands. -/
def BinaryOp.compute : BinaryOp → Datum → Datum → Except RuntimeFault Datum
  | equal, a, b => .ok (.bool (a.same b))
  | notEqual, a, b => .ok (.bool (!a.same b))
  | greater, a, b => a.numeric (fun m n => .ok (.bool (m > n))) (fun x y => .bool (x > y)) b
  | greaterEqual, a, b => a.numeric (fun m n => .ok (.bool (m ≥ n))) (fun x y => .bool (!(x < y))) b
  | less, a, b => a.numeric (fun m n => .ok (.bool (m < n))) (fun x y => .bool (x < y)) b
  | lessEqual, a, b => a.numeric (fun m n => .ok (.bool (m ≤ n))) (fun x y => .bool (!(x > y))) b
  | add, .text s, .text t => .ok (.text (s ++ t))
  | add, a, b => a.numeric (fun m n => .ok (.wrap (m + n))) (fun x y => .double (x + y)) b
  | subtract, a, b => a.numeric (fun m n => .ok (.wrap (m - n))) (fun x y => .double (x - y)) b
  | multiply, a, b => a.numeric (fun m n => .ok (.wrap (m * n))) (fun x y => .double (x * y)) b
  | divide, a, b => a.numeric
      (fun m n => if n = 0 then .error .divisionByZero else .ok (.wrap (m.tdiv n)))
      (fun x y => .double (x / y)) b

open Evaluation

/-- The value of an expression, evaluated while `height` values are held. -/
def Expr.eval (limit height : Nat) : Expr → Evaluation Datum
  | literal value _ => hold limit height value.datum
  | nil _ => hold limit height .nil
  | bool b _ => hold limit height (.bool b)
  | global name _ => do hold limit height (← lookup name)
  | assign name _ value => do
    let d ← value.eval limit height
    let _ ← lookup name
    define name d
    return d
  | group inner _ => inner.eval limit height
  | unary op operand => do ofExcept (op.compute (← operand.eval limit height))
  | binary op left right => do
    let a ← left.eval limit height
    let b ← right.eval limit (height + 1)
    ofExcept (op.compute a b)

/-- What a declaration does. -/
def Declaration.eval (limit : Nat) : Declaration → Evaluation Unit
  | define name _ none _ => do Evaluation.define name (← hold limit 0 .nil)
  | define name _ (some value) _ => do Evaluation.define name (← value.eval limit 0)
  | print value _ => do
    let d ← value.eval limit 0
    modify (·.print (Utf8.encode (d.toText.toList ++ ['\n'])))
  | expression value _ => do
    let _ ← value.eval limit 0

/-- What some declarations do, one after the other. -/
def Declaration.evalAll (limit : Nat) : List Declaration → Evaluation Unit
  | [] => return
  | d :: others => do
    d.eval limit
    evalAll limit others

/-- What a program does. -/
def Program.eval (limit : Nat) (p : Program) : Evaluation Unit :=
  Declaration.evalAll limit p.declarations

end StackScript
