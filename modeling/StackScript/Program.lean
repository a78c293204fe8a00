/-
# Programs

A program is a list of declarations, and its trees keep the source lines that the
code will need:

```text
declaration = "var" NAME ( "=" expression )? ";" | "print" expression ";" | expression ";"
expression  = NAME "=" expression | equality
equality    = comparison ( ( "==" | "!=" ) comparison )*
comparison  = term ( ( ">" | ">=" | "<" | "<=" ) term )*
term        = factor ( ( "+" | "-" ) factor )*
factor      = unary ( ( "*" | "/" ) unary )*
unary       = ( "-" | "!" ) unary | primary
primary     = NUMBER | STRING | NAME | "true" | "false" | "nil" | "(" expression ")"
```

Binary operators associate to the left, assignment to the right.
-/
import StackScript.Token

namespace StackScript

/-- A constant of a program: a number, or the text of a string literal or a name. -/
inductive Literal where
  | int (n : Int32)
  | double (x : Float)
  | text (s : List Char)
  deriving DecidableEq

namespace Literal

/-- The greatest integer literal. -/
def maxInt : Nat := 2147483647

/-- The constant that a number token denotes: a double, rounded to nearest, if it has a
point, and otherwise an integer, which must not exceed `maxInt`. -/
def ofNumber? (text : List Char) : Option Literal :=
  match text.span (· != '.') with
  | (whole, _ :: fraction) =>
    let digits := Nat.ofDigitChars 10 (whole ++ fraction) 0
    some (.double (Float.ofScientific digits true fraction.length))
  | (whole, []) =>
    let n := Nat.ofDigitChars 10 whole 0
    if n ≤ maxInt then some (.int (Int32.ofNat n)) else none

/-- The constant that a string token denotes: what stands between the quotes. -/
def ofQuoted (text : List Char) : Literal :=
  .text text.tail.dropLast

end Literal

/-- How tightly operators bind, from the loosest. -/
inductive Precedence where
  | assignment
  | equality
  | comparison
  | term
  | factor
  | unary
  deriving DecidableEq, Repr

namespace Precedence

/-- The rank of a precedence; the tighter, the higher. -/
def rank : Precedence → Nat
  | assignment => 0
  | equality => 1
  | comparison => 2
  | term => 3
  | factor => 4
  | unary => 5

/-- The next tighter precedence. -/
def next : Precedence → Precedence
  | assignment => equality
  | equality => comparison
  | comparison => term
  | term => factor
  | factor => unary
  | unary => unary

end Precedence

/-- The operators with one operand. -/
inductive UnaryOp where
  | negate
  | not
  deriving DecidableEq, Repr

/-- The operators with two operands. -/
inductive BinaryOp where
  | equal
  | notEqual
  | greater
  | greaterEqual
  | less
  | lessEqual
  | add
  | subtract
  | multiply
  | divide
  deriving DecidableEq, Repr

namespace BinaryOp

/-- How tightly an operator binds. -/
def precedence : BinaryOp → Precedence
  | equal | notEqual => .equality
  | greater | greaterEqual | less | lessEqual => .comparison
  | add | subtract => .term
  | multiply | divide => .factor

/-- The operator that a token denotes between two operands. -/
def ofKind? : Token.Kind → Option BinaryOp
  | .equalEqual => some equal
  | .bangEqual => some notEqual
  | .greater => some greater
  | .greaterEqual => some greaterEqual
  | .less => some less
  | .lessEqual => some lessEqual
  | .plus => some add
  | .minus => some subtract
  | .star => some multiply
  | .slash => some divide
  | _ => none

end BinaryOp

/-- An expression. The lines are those of the tokens that the code is traced to. -/
inductive Expr where
  | literal (value : Literal) (line : Nat)
  | nil (line : Nat)
  | bool (b : Bool) (line : Nat)
  | global (name : List Char) (line : Nat)
  | assign (name : List Char) (line : Nat) (value : Expr)
  | group (inner : Expr) (closeLine : Nat)
  | unary (op : UnaryOp) (operand : Expr)
  | binary (op : BinaryOp) (left right : Expr)
  deriving DecidableEq

namespace Expr

/-- The line of the last token of an expression. -/
def lastLine : Expr → Nat
  | literal _ line | nil line | bool _ line | global _ line => line
  | assign _ _ value => value.lastLine
  | group _ closeLine => closeLine
  | unary _ operand => operand.lastLine
  | binary _ _ right => right.lastLine

/-- The constants of an expression, in the order of their tokens. -/
def constants : Expr → List Literal
  | literal value _ => [value]
  | nil _ | bool _ _ => []
  | global name _ => [.text name]
  | assign name _ value => .text name :: value.constants
  | group inner _ => inner.constants
  | unary _ operand => operand.constants
  | binary _ left right => left.constants ++ right.constants

end Expr

/-- A declaration or statement. `endLine` is the line of its semicolon. -/
inductive Declaration where
  | define (name : List Char) (nameLine : Nat) (initial : Option Expr) (endLine : Nat)
  | print (value : Expr) (endLine : Nat)
  | expression (value : Expr) (endLine : Nat)
  deriving DecidableEq

/-- The constants of a declaration, in the order of their tokens. -/
def Declaration.constants : Declaration → List Literal
  | define name _ initial _ => .text name :: (initial.map Expr.constants).getD []
  | print value _ | expression value _ => value.constants

/-- A program. -/
structure Program where
  declarations : List Declaration
  lastLine : Nat
  deriving DecidableEq

end StackScript
