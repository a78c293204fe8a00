/-
# From tokens to programs

The parser reads a token stream from left to right with one token in view, and never
stops early: a fault is reported and reading goes on.

* Of the faults that follow one another only the first is reported. The parser then
  panics, and reports again after it has recovered at the end of a declaration: past a
  semicolon, or in front of a word that starts a statement.
* Parts of the source that are no tokens are reported when they come into view, and
  passed over.
* Every number, string and name is noted among the constants when it is read, faulty
  or not. A constant that an operand cannot refer to is reported.
* Expressions nest at most `maxNesting` deep. What is nested too deep is not read.

Where the source is faulty the tree holds `nil` in place of what could not be read. It
is used only if nothing was reported.

Each step says by how much it shortens the unread tokens, and these bounds end the
loops: `Nested.length_le`, `length_infixes_le`, `length_recover_le`,
`length_declaration`.
-/
import StackScript.Chunk
import StackScript.Diagnostic
import StackScript.Program

namespace StackScript

/-- What has been reported. Nothing is added while `panicking`. -/
structure Reports where
  panicking : Bool
  diagnostics : Array Diagnostic
  deriving DecidableEq

namespace Reports

/-- Nothing reported. -/
def none : Reports := ⟨false, #[]⟩

/-- Reports a fault at a token. -/
def add (reports : Reports) (t : Token) (fault : SyntaxFault) : Reports :=
  if reports.panicking then reports
  else ⟨true, reports.diagnostics.push (.ofToken t fault)⟩

end Reports

/-- The place that the parser has reached. -/
structure Parser where
  /-- The token read last. -/
  previous : Token
  /-- The tokens not read yet, of which the first is in view. -/
  unread : List Token
  /-- The line on which the source ends. -/
  lastLine : Nat
  reports : Reports
  constants : Array Literal
  deriving DecidableEq

namespace Parser

/-- How deep expressions may nest. -/
def maxNesting : Nat := 256

/-! ## Single tokens -/

/-- Reports and drops the faults at the beginning of some tokens. -/
def skipFaults : List Token → Reports → List Token × Reports
  | [], reports => ([], reports)
  | t :: rest, reports =>
    match t.kind with
    | .fault fault => skipFaults rest (reports.add t (.lexical fault))
    | _ => (t :: rest, reports)

/-- The parser in front of a token stream. -/
def ofStream (stream : TokenStream) : Parser :=
  let (unread, reports) := skipFaults stream.tokens .none
  ⟨stream.finish, unread, stream.lastLine, reports, #[]⟩

/-- The token in view. -/
def current (p : Parser) : Token :=
  p.unread.headD (.atEnd p.lastLine)

/-- Whether the token in view is of a kind. -/
def sees (p : Parser) (kind : Token.Kind) : Bool :=
  p.current.kind == kind

/-- Reads the token in view. At the end of the source this stays in view. -/
def advance (p : Parser) : Parser :=
  let (unread, reports) := skipFaults p.unread.tail p.reports
  { p with previous := p.current, unread, reports }

/-- Reports a fault at a token. -/
def report (p : Parser) (t : Token) (fault : SyntaxFault) : Parser :=
  { p with reports := p.reports.add t fault }

/-- Reads a token of a kind, or reports a fault at the token in view. -/
def expect (p : Parser) (kind : Token.Kind) (fault : SyntaxFault) : Parser :=
  if p.sees kind then p.advance else p.report p.current fault

/-- Notes a constant that comes from the token read last. -/
def note (p : Parser) (value : Literal) : Parser :=
  let q := { p with constants := p.constants.push value }
  if p.constants.size < Chunk.maxConstants then q else q.report p.previous .tooManyConstants

/-- Faults that are dropped are unread no more. -/
theorem length_skipFaults_le (tokens : List Token) (reports : Reports) :
    (skipFaults tokens reports).1.length ≤ tokens.length := by
  fun_induction skipFaults tokens reports with
  | case1 => simp
  | case2 _ t rest _ _ ih => simp only [List.length_cons]; omega
  | case3 => simp

/-- Reading a token leaves one fewer unread at least, if any was. -/
theorem length_advance (p : Parser) : p.advance.unread.length ≤ p.unread.length - 1 := by
  simpa [advance] using length_skipFaults_le p.unread.tail p.reports

@[simp] theorem unread_report (p : Parser) (t : Token) (fault : SyntaxFault) :
    (p.report t fault).unread = p.unread := rfl

@[simp] theorem unread_note (p : Parser) (value : Literal) : (p.note value).unread = p.unread := by
  unfold note; dsimp only; split <;> rfl

/-- Asking for a token reads none again. -/
theorem length_expect_le (p : Parser) (kind : Token.Kind) (fault : SyntaxFault) :
    (p.expect kind fault).unread.length ≤ p.unread.length := by
  have := p.length_advance
  unfold expect
  split
  · omega
  · simp

/-- Unless the end is in view, there is a token to read. -/
theorem unread_pos {p : Parser} (h : p.current.kind ≠ .finish) : 0 < p.unread.length := by
  rcases p with ⟨_, _ | _, _, _, _⟩
  · exact absurd rfl h
  · simp

/-! ## Expressions -/

/-- A way to read the expressions at one depth of nesting. -/
structure Nested where
  read : Precedence → Parser → Expr × Parser
  length_le : ∀ k p, (read k p).2.unread.length ≤ p.unread.length

/-- Reads the operators that follow a left operand and bind at least as tightly as `k`,
each with its right operand. -/
def infixes (inner : Nested) (k : Precedence) (left : Expr) (p : Parser) : Expr × Parser :=
  match _seen : BinaryOp.ofKind? p.current.kind with
  | none => (left, p)
  | some op =>
    if k.rank ≤ op.precedence.rank then
      let right := inner.read op.precedence.next p.advance
      infixes inner k (.binary op left right.1) right.2
    else (left, p)
termination_by p.unread.length
decreasing_by
  have pos : 0 < p.unread.length := unread_pos (by intro h; simp [h, BinaryOp.ofKind?] at _seen)
  have := inner.length_le op.precedence.next p.advance
  have := p.length_advance
  omega

/-- Operators are read off the unread tokens. -/
theorem length_infixes_le (inner : Nested) (k : Precedence) (left : Expr) (p : Parser) :
    (infixes inner k left p).2.unread.length ≤ p.unread.length := by
  fun_induction infixes inner k left p with
  | case1 => simp
  | case2 left p op _ _ right ih =>
    have : right.2.unread.length ≤ p.advance.unread.length := inner.length_le ..
    have := p.length_advance
    omega
  | case3 => simp

/-- The expression that starts with a name, already read. A name followed by `=` is
assigned to, where an assignment may stand. -/
def name (inner : Nested) (k : Precedence) (t : Token) (p : Parser) : Expr × Parser :=
  let p := p.note (.text t.text)
  if k = .assignment && p.sees .equal then
    let value := inner.read .assignment p.advance
    (.assign t.text t.line value.1, value.2)
  else (.global t.text t.line, p)

/-- The expression that starts with a number, already read. -/
def number (t : Token) (p : Parser) : Expr × Parser :=
  match Literal.ofNumber? t.text with
  | some value => (.literal value t.line, p.note value)
  | none => (.nil t.line, p.report t .integerOutOfRange)

/-- The expression that starts with the token `t`, already read, up to the operators
that may follow it. -/
def operand? (inner : Nested) (k : Precedence) (t : Token) (p : Parser) : Option Expr × Parser :=
  match t.kind with
  | .leftParen =>
    let group := inner.read .assignment p
    let p := group.2.expect .rightParen .expectClosingParen
    (some (.group group.1 p.previous.line), p)
  | .minus =>
    let operand := inner.read .unary p
    (some (.unary .negate operand.1), operand.2)
  | .bang =>
    let operand := inner.read .unary p
    (some (.unary .not operand.1), operand.2)
  | .identifier =>
    let expr := name inner k t p
    (some expr.1, expr.2)
  | .string => (some (.literal (.ofQuoted t.text) t.line), p.note (.ofQuoted t.text))
  | .number =>
    let expr := number t p
    (some expr.1, expr.2)
  | .keyword .nilWord => (some (.nil t.line), p)
  | .keyword .trueWord => (some (.bool true t.line), p)
  | .keyword .falseWord => (some (.bool false t.line), p)
  | _ => (none, p.report t .expectExpression)

/-- Reads an expression whose operators bind at least as tightly as `k`. An `=` that
follows it, where an assignment may stand, has no name to assign to. -/
def expression (inner : Nested) (k : Precedence) (p : Parser) : Expr × Parser :=
  match operand? inner k p.current p.advance with
  | (none, q) => (.nil p.current.line, q)
  | (some left, q) =>
    let expr := infixes inner k left q
    if k = .assignment && expr.2.sees .equal then
      let q := expr.2.advance
      (expr.1, q.report q.previous .invalidAssignmentTarget)
    else expr

/-- An operand is read off the unread tokens. -/
theorem length_operand?_le (inner : Nested) (k : Precedence) (t : Token) (p : Parser) :
    (operand? inner k t p).2.unread.length ≤ p.unread.length := by
  unfold operand?
  split
  · exact Nat.le_trans (length_expect_le ..) (inner.length_le ..)
  · exact inner.length_le ..
  · exact inner.length_le ..
  · unfold name
    dsimp only
    split
    · have := inner.length_le .assignment (p.note (.text t.text)).advance
      have := (p.note (.text t.text)).length_advance
      simp only [unread_note] at this ⊢
      omega
    · simp
  · simp
  · unfold number
    dsimp only
    split <;> simp
  all_goals simp

/-- Reading an expression reads a token at least. -/
theorem length_expression (inner : Nested) (k : Precedence) (p : Parser) :
    (expression inner k p).2.unread.length ≤ p.unread.length - 1 := by
  have first := length_operand?_le inner k p.current p.advance
  have := p.length_advance
  unfold expression
  split <;> rename_i q eq
  · simp only [eq] at first ⊢
    omega
  · rename_i left
    simp only [eq] at first
    have := length_infixes_le inner k left q
    have := (infixes inner k left q).2.length_advance
    dsimp only
    split
    · simp only [unread_report]; omega
    · omega

/-- Nothing is read where expressions would nest too deep. -/
def tooDeep : Nested where
  read _ p := (.nil p.current.line, p.report p.current .nestingTooDeep)
  length_le := by simp

/-- Expressions that may nest `n` deep. -/
def nested : Nat → Nested
  | 0 => tooDeep
  | n + 1 =>
    { read := expression (nested n)
      length_le := fun k p => Nat.le_trans (length_expression _ k p) (Nat.sub_le ..) }

/-- Reads a whole expression. -/
def wholeExpression (p : Parser) : Expr × Parser :=
  (nested maxNesting).read .assignment p

/-- A whole expression takes a token at least, if any is unread. -/
theorem length_wholeExpression (p : Parser) :
    p.wholeExpression.2.unread.length ≤ p.unread.length - 1 :=
  length_expression (nested 255) .assignment p

/-! ## Declarations -/

/-- Whether a token starts a statement. -/
def startsStatement : Token.Kind → Bool
  | .keyword .classWord | .keyword .funWord | .keyword .varWord | .keyword .forWord
  | .keyword .ifWord | .keyword .whileWord | .keyword .printWord | .keyword .returnWord => true
  | _ => false

/-- Drops tokens up to the end of the declaration: past a semicolon, or in front of a
word that starts a statement. -/
def skipDeclaration (p : Parser) : Parser :=
  if _more : p.current.kind = .finish then p
  else if p.previous.kind = .semicolon then p
  else if startsStatement p.current.kind then p
  else skipDeclaration p.advance
termination_by p.unread.length
decreasing_by
  have := unread_pos _more
  have := p.length_advance
  omega

/-- After a fault, drops the rest of the declaration and ends the panic. -/
def recover (p : Parser) : Parser :=
  if p.reports.panicking then
    skipDeclaration { p with reports := { p.reports with panicking := false } }
  else p

/-- A variable declaration, after its first word. Where the name is missing, the token
read last is noted in its place. -/
def variableDeclaration (p : Parser) : Declaration × Parser :=
  let p := p.expect .identifier .expectVariableName
  let name := p.previous
  let p := p.note (.text name.text)
  if p.sees .equal then
    let value := p.advance.wholeExpression
    let p := value.2.expect .semicolon .expectSemicolonAfterDeclaration
    (.define name.text name.line (some value.1) p.previous.line, p)
  else
    let p := p.expect .semicolon .expectSemicolonAfterDeclaration
    (.define name.text name.line none p.previous.line, p)

/-- A print statement, after its first word. -/
def printStatement (p : Parser) : Declaration × Parser :=
  let value := p.wholeExpression
  let p := value.2.expect .semicolon .expectSemicolonAfterValue
  (.print value.1 p.previous.line, p)

/-- An expression statement. -/
def expressionStatement (p : Parser) : Declaration × Parser :=
  let value := p.wholeExpression
  let p := value.2.expect .semicolon .expectSemicolonAfterExpression
  (.expression value.1 p.previous.line, p)

/-- Reads a declaration. -/
def declaration (p : Parser) : Declaration × Parser :=
  let read :=
    match p.current.kind with
    | .keyword .varWord => variableDeclaration p.advance
    | .keyword .printWord => printStatement p.advance
    | _ => expressionStatement p
  (read.1, read.2.recover)

/-- Dropping the rest of a declaration reads no token again. -/
theorem length_skipDeclaration_le (p : Parser) :
    (skipDeclaration p).unread.length ≤ p.unread.length := by
  fun_induction skipDeclaration p with
  | case4 p _ _ _ ih =>
    have := p.length_advance
    omega
  | _ => simp

/-- Recovery reads no token again. -/
theorem length_recover_le (p : Parser) : p.recover.unread.length ≤ p.unread.length := by
  unfold recover
  split
  · exact length_skipDeclaration_le _
  · exact Nat.le_refl _

/-- A variable declaration reads no token again. -/
theorem length_variableDeclaration_le (p : Parser) :
    p.variableDeclaration.2.unread.length ≤ p.unread.length := by
  have start := p.length_expect_le .identifier .expectVariableName
  unfold variableDeclaration
  generalize p.expect .identifier .expectVariableName = q at start
  dsimp only
  generalize eq : q.note (.text q.previous.text) = r
  have same : r.unread.length = q.unread.length := eq ▸ congrArg List.length (unread_note ..)
  have := r.length_advance
  have := r.advance.length_wholeExpression
  split
  · have := r.advance.wholeExpression.2.length_expect_le .semicolon .expectSemicolonAfterDeclaration
    dsimp only
    omega
  · have := r.length_expect_le .semicolon .expectSemicolonAfterDeclaration
    dsimp only
    omega

/-- A print statement reads no token again. -/
theorem length_printStatement_le (p : Parser) :
    p.printStatement.2.unread.length ≤ p.unread.length := by
  have := p.length_wholeExpression
  have := p.wholeExpression.2.length_expect_le .semicolon .expectSemicolonAfterValue
  unfold printStatement
  dsimp only
  omega

/-- An expression statement takes a token at least, if any is unread. -/
theorem length_expressionStatement (p : Parser) :
    p.expressionStatement.2.unread.length ≤ p.unread.length - 1 := by
  have := p.length_wholeExpression
  have := p.wholeExpression.2.length_expect_le .semicolon .expectSemicolonAfterExpression
  unfold expressionStatement
  dsimp only
  omega

/-- Reading a declaration reads a token at least. -/
theorem length_declaration (p : Parser) :
    p.declaration.2.unread.length ≤ p.unread.length - 1 := by
  have := p.length_advance
  unfold declaration
  dsimp only
  refine Nat.le_trans (length_recover_le _) ?_
  split
  · have := p.advance.length_variableDeclaration_le
    omega
  · have := p.advance.length_printStatement_le
    omega
  · exact p.length_expressionStatement

/-- Reads declarations to the end of the source. -/
def declarations (p : Parser) : List Declaration × Parser :=
  if _more : p.current.kind = .finish then ([], p)
  else
    let first := p.declaration
    let others := declarations first.2
    (first.1 :: others.1, others.2)
termination_by p.unread.length
decreasing_by
  have := unread_pos _more
  have := p.length_declaration
  omega

end Parser

/-- What reading a source gives: the program, its constants in the order of their
tokens, and what was reported. -/
structure ParsedSource where
  program : Program
  constants : List Literal
  diagnostics : List Diagnostic
  deriving DecidableEq

namespace ParsedSource

/-- Reads a token stream. -/
def ofStream (stream : TokenStream) : ParsedSource :=
  let (declarations, p) := (Parser.ofStream stream).declarations
  ⟨⟨declarations, stream.lastLine⟩, p.constants.toList, p.reports.diagnostics.toList⟩

end ParsedSource
end StackScript
