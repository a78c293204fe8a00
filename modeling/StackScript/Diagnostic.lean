/-
# Diagnostics

A diagnostic says what is wrong with a source, on which line and at which token. It
is written as

`[line 3] Error at 'x': Expect ';' after value.`

with `at end` in place of a token for the end of the source, and with no place at all
for a part of the source that is no token.
-/
import StackScript.Token

namespace StackScript

/-- What can be wrong with a source. -/
inductive SyntaxFault where
  | lexical (fault : LexicalFault)
  | expectExpression
  | expectClosingParen
  | expectVariableName
  | expectSemicolonAfterDeclaration
  | expectSemicolonAfterValue
  | expectSemicolonAfterExpression
  | invalidAssignmentTarget
  | integerOutOfRange
  | tooManyConstants
  | nestingTooDeep
  deriving DecidableEq, Repr

/-- The message of a fault. -/
def SyntaxFault.message : SyntaxFault → String
  | lexical fault => fault.message
  | expectExpression => "Expect expression."
  | expectClosingParen => "Expect ')' after expression."
  | expectVariableName => "Expect variable name."
  | expectSemicolonAfterDeclaration => "Expect ';' after variable declaration."
  | expectSemicolonAfterValue => "Expect ';' after value."
  | expectSemicolonAfterExpression => "Expect ';' after expression."
  | invalidAssignmentTarget => "Invalid assignment target."
  | integerOutOfRange => "Integer literal out of range."
  | tooManyConstants => "Too many constants in one chunk."
  | nestingTooDeep => "Expression nesting too deep."

/-- Where a diagnostic stands. -/
inductive Location where
  | token (text : List Char)
  | finish
  | unknown
  deriving DecidableEq, Repr

/-- The place of a token. -/
def Location.ofToken (t : Token) : Location :=
  match t.kind with
  | .finish => finish
  | .fault _ => unknown
  | _ => token t.text

/-- A fault with its line and place. -/
structure Diagnostic where
  line : Nat
  location : Location
  fault : SyntaxFault
  deriving DecidableEq, Repr

namespace Diagnostic

/-- A fault at a token. -/
def ofToken (t : Token) (fault : SyntaxFault) : Diagnostic :=
  ⟨t.line, .ofToken t, fault⟩

/-- The text of a diagnostic. -/
def text (d : Diagnostic) : String :=
  let place :=
    match d.location with
    | .token text => " at '" ++ String.ofList text ++ "'"
    | .finish => " at end"
    | .unknown => ""
  s!"[line {d.line}] Error{place}: {d.fault.message}"

end Diagnostic
end StackScript
