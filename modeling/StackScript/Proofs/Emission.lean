/-
# Code can be emitted while the source is read

`compile` builds the trees of a source before it makes code of them. No tree is needed for that: a
compiler can write the code of an expression as soon as it has read it.

| what was read | what is written | on the line of |
| --- | --- | --- |
| number, string, `nil`, `true`, `false`, name | an instruction that pushes the value | the token |
| `name =` and a value | assign global | the last token of the value |
| an operator and its operand, or its right one | the operation | the last token of the operand |
| a declaration | define global, print or pop | the semicolon |
| the source | finish | its end |

So a line is that of the token read last, and an operand is the index that its constant gets when it
is added to the chunk. This compiler (`Emitter`) reads with the steps of `Parser`, and what it
answers is what `compile` does (`Emitter.compile_eq`): the order in which the trees are put
together (`Expr.code`) is the order of their tokens.
-/
import StackScript.Proofs.Acceptance
import StackScript.Proofs.Parser.Order

namespace StackScript

/-! ## Constants, one at a time -/

/-- The last constant is linked in the pool that the others leave. -/
theorem Literal.linkAll_concat (pool : StringPool) (literals : List Literal) (value : Literal) :
    linkAll pool (literals ++ [value]) =
      ((linkAll pool literals).1 ++ [(value.link (linkAll pool literals).2).1],
        (value.link (linkAll pool literals).2).2) := by
  induction literals generalizing pool with
  | nil => rfl
  | cons first others ih => simp only [List.cons_append, linkAll, ih]

namespace Parser

/-- Asking for a token notes no constant. -/
theorem constants_expect (p : Parser) (kind : Token.Kind) (fault : SyntaxFault) :
    (p.expect kind fault).constants = p.constants := by
  unfold expect
  split <;> rfl

/-- Dropping the rest of a declaration notes no constant. -/
theorem constants_skipDeclaration (p : Parser) : p.skipDeclaration.constants = p.constants := by
  fun_induction skipDeclaration p with
  | case4 p _ _ _ ih => exact ih
  | _ => rfl

/-- Recovery notes no constant. -/
theorem constants_recover (p : Parser) : p.recover.constants = p.constants := by
  unfold recover
  split
  · exact constants_skipDeclaration _
  · rfl

end Parser

/-! ## The emitter -/

/-- The chunk with more bytes, all of one line. -/
def Chunk.writeAll (chunk : Chunk) (bytes : List UInt8) (line : Nat) : Chunk :=
  bytes.foldl (·.write · line) chunk

/-- The bytes are put behind the code, all on the line. -/
theorem Chunk.writeAll_eq (chunk : Chunk) (bytes : List UInt8) (line : Nat) :
    chunk.writeAll bytes line =
      { chunk with code := chunk.code ++ bytes.map (⟨·, line⟩) } := by
  unfold writeAll
  induction bytes generalizing chunk with
  | nil => simp
  | cons b bytes ih => rw [List.foldl_cons, ih, write, List.append_assoc]; rfl

/-- A compiler on its way through a source, with a pool that was `start` in the beginning. The
constants that the parser has noted are in the chunk, and their strings in the pool. -/
structure Emitter (start : StringPool) where
  parser : Parser
  chunk : Chunk
  pool : StringPool
  linked : Literal.linkAll start parser.constants.toList = (chunk.constants, pool)

namespace Emitter

variable {start : StringPool} {inner : Parser.Nested}

/-- The emitter in front of a token stream. -/
def ofStream (stream : TokenStream) (start : StringPool) : Emitter start :=
  ⟨.ofStream stream, .empty, start, rfl⟩

/-- The parser goes on, without a further constant. -/
def moveTo (e : Emitter start) (p : Parser) (same : p.constants = e.parser.constants) :
    Emitter start where
  parser := p
  chunk := e.chunk
  pool := e.pool
  linked := by rw [same, e.linked]

/-- Reads the token in view. -/
def advance (e : Emitter start) : Emitter start :=
  e.moveTo e.parser.advance rfl

/-- Reports a fault at the token read last. -/
def report (e : Emitter start) (fault : SyntaxFault) : Emitter start :=
  e.moveTo (e.parser.report e.parser.previous fault) rfl

/-- Reads a token of a kind, or reports a fault at the token in view. -/
def expect (e : Emitter start) (kind : Token.Kind) (fault : SyntaxFault) : Emitter start :=
  e.moveTo (e.parser.expect kind fault) (e.parser.constants_expect kind fault)

/-- Writes an instruction on the line of the token read last. -/
def emit (e : Emitter start) (i : Instruction) : Emitter start where
  parser := e.parser
  chunk := e.chunk.writeAll i.encode e.parser.previous.line
  pool := e.pool
  linked := by rw [e.linked, Chunk.writeAll_eq]

/-- Writes some instructions. -/
def emitAll (e : Emitter start) (instructions : List Instruction) : Emitter start :=
  instructions.foldl emit e

/-- A constant that is added to the chunk is the next one that the parser notes. -/
theorem linked_note (e : Emitter start) (value : Literal) :
    Literal.linkAll start (e.parser.note value).constants.toList =
      ((e.chunk.addConstant (value.link e.pool).1).2.constants, (value.link e.pool).2) := by
  rw [(Parser.Moves.note e.parser value).constants, Literal.linkAll_concat, e.linked]
  rfl

/-- Adds a constant, and answers the operand that refers to it. -/
def makeConstant (e : Emitter start) (value : Literal) : UInt8 × Emitter start :=
  let index := (e.chunk.addConstant (value.link e.pool).1).1
  (if index < Chunk.maxConstants then .ofNat index else 0,
    { parser := e.parser.note value
      chunk := (e.chunk.addConstant (value.link e.pool).1).2
      pool := (value.link e.pool).2
      linked := e.linked_note value })

/-- Adds a constant and writes the instruction that pushes it. -/
def emitConstant (e : Emitter start) (value : Literal) : Emitter start :=
  let constant := e.makeConstant value
  constant.2.emit (.constant constant.1)

/-- The operations are written and nothing is read. -/
@[simp] theorem parser_emitAll (e : Emitter start) (instructions : List Instruction) :
    (e.emitAll instructions).parser = e.parser := by
  unfold emitAll
  induction instructions generalizing e with
  | nil => rfl
  | cons i others ih => exact ih _

/-! ## Expressions -/

/-- A way to emit the expressions at one depth of nesting. It reads what `inner` does. -/
structure Pass (start : StringPool) (inner : Parser.Nested) where
  run : Precedence → Emitter start → Emitter start
  parser_run : ∀ k e, (run k e).parser = (inner.read k e.parser).2

/-- Emits the operators that follow a left operand and bind at least as tightly as `k`, each
behind its right operand. -/
def infixes (pass : Pass start inner) (k : Precedence) (e : Emitter start) : Emitter start :=
  match _seen : BinaryOp.ofKind? e.parser.current.kind with
  | none => e
  | some op =>
    if k.rank ≤ op.precedence.rank then
      infixes pass k ((pass.run op.precedence.next e.advance).emitAll op.code)
    else e
termination_by e.parser.unread.length
decreasing_by
  have pos : 0 < e.parser.unread.length :=
    Parser.unread_pos (by intro h; simp [h, BinaryOp.ofKind?] at _seen)
  have := inner.length_le op.precedence.next e.parser.advance
  have := e.parser.length_advance
  rw [parser_emitAll, pass.parser_run]
  simp only [advance, moveTo]
  omega

/-- Emits the expression that starts with a name, read last. A name followed by `=` is assigned
to, where an assignment may stand. -/
def name (pass : Pass start inner) (k : Precedence) (e : Emitter start) : Emitter start :=
  let name := e.makeConstant (.text e.parser.previous.text)
  if k = .assignment && name.2.parser.sees .equal then
    (pass.run .assignment name.2.advance).emit (.setGlobal name.1)
  else name.2.emit (.getGlobal name.1)

/-- Emits a number, read last. -/
def number (e : Emitter start) : Emitter start :=
  match Literal.ofNumber? e.parser.previous.text with
  | some value => e.emitConstant value
  | none => e.report .integerOutOfRange

/-- Emits the expression that starts with the token read last, up to the operators that may
follow it, and answers whether there is one. -/
def operand (pass : Pass start inner) (k : Precedence) (e : Emitter start) :
    Bool × Emitter start :=
  match e.parser.previous.kind with
  | .leftParen => (true, (pass.run .assignment e).expect .rightParen .expectClosingParen)
  | .minus => (true, (pass.run .unary e).emit .negate)
  | .bang => (true, (pass.run .unary e).emit .not)
  | .identifier => (true, name pass k e)
  | .string => (true, e.emitConstant (.ofQuoted e.parser.previous.text))
  | .number => (true, e.number)
  | .keyword .nilWord => (true, e.emit .pushNil)
  | .keyword .trueWord => (true, e.emit .pushTrue)
  | .keyword .falseWord => (true, e.emit .pushFalse)
  | _ => (false, e.report .expectExpression)

/-- Emits an expression whose operators bind at least as tightly as `k`. -/
def expression (pass : Pass start inner) (k : Precedence) (e : Emitter start) : Emitter start :=
  let first := operand pass k e.advance
  if first.1 then
    let e := infixes pass k first.2
    if k = .assignment && e.parser.sees .equal then e.advance.report .invalidAssignmentTarget
    else e
  else first.2

/-! ### What an emitter reads -/

/-- Operators are read as the parser reads them, whatever their left operand is. -/
theorem parser_infixes (pass : Pass start inner) (k : Precedence) (left : Expr)
    (e : Emitter start) :
    (infixes pass k e).parser = (Parser.infixes inner k left e.parser).2 := by
  fun_induction infixes pass k e generalizing left with
  | case1 e seen => rw [Parser.infixes_of_none seen]
  | case2 e op seen tight ih =>
    rw [ih, Parser.infixes_of_some seen, if_pos tight, parser_emitAll, pass.parser_run]
    rfl
  | case3 e op seen loose => rw [Parser.infixes_of_some seen, if_neg loose]

/-- What starts with a name is read as the parser reads it. -/
theorem parser_name (pass : Pass start inner) (k : Precedence) (e : Emitter start) :
    (name pass k e).parser = (Parser.name inner k e.parser.previous e.parser).2 := by
  unfold name Parser.name
  dsimp only [makeConstant]
  split
  · exact pass.parser_run ..
  · rfl

/-- A number is read as the parser reads it. -/
theorem parser_number (e : Emitter start) :
    e.number.parser = (Parser.number e.parser.previous e.parser).2 := by
  unfold number Parser.number
  cases Literal.ofNumber? e.parser.previous.text <;> rfl

/-- An operand is read as the parser reads it, and found where the parser finds one. -/
theorem parser_operand (pass : Pass start inner) (k : Precedence) (e : Emitter start) :
    (operand pass k e).1 = (Parser.operand? inner k e.parser.previous e.parser).1.isSome ∧
      (operand pass k e).2.parser =
        (Parser.operand? inner k e.parser.previous e.parser).2 := by
  unfold operand Parser.operand?
  cases e.parser.previous.kind with
  | leftParen =>
    exact ⟨rfl, congrArg (Parser.expect · .rightParen .expectClosingParen)
      (pass.parser_run .assignment e)⟩
  | minus | bang => exact ⟨rfl, pass.parser_run ..⟩
  | identifier => exact ⟨rfl, parser_name pass k e⟩
  | number => exact ⟨rfl, e.parser_number⟩
  | keyword word => cases word <;> exact ⟨rfl, rfl⟩
  | _ => exact ⟨rfl, rfl⟩

/-- The same, in front of the token that the operand starts with. -/
theorem parser_operand_advance (pass : Pass start inner) (k : Precedence) (e : Emitter start) :
    (operand pass k e.advance).1 =
        (Parser.operand? inner k e.parser.current e.parser.advance).1.isSome ∧
      (operand pass k e.advance).2.parser =
        (Parser.operand? inner k e.parser.current e.parser.advance).2 :=
  parser_operand pass k e.advance

/-- An expression is read as the parser reads it. -/
theorem parser_expression (pass : Pass start inner) (k : Precedence) (e : Emitter start) :
    (expression pass k e).parser = (Parser.expression inner k e.parser).2 := by
  obtain ⟨found, first⟩ := parser_operand_advance pass k e
  unfold expression Parser.expression
  rcases read : Parser.operand? inner k e.parser.current e.parser.advance with ⟨_ | left, q⟩ <;>
    rw [read] at found first <;> dsimp only at found first ⊢
  · rw [if_neg (by rw [found]; nofun), first]
  · rw [if_pos (show (operand pass k e.advance).1 = true from found), ← first,
      ← parser_infixes pass]
    split
    · rfl
    · exact parser_infixes ..

/-- Expressions that may nest `n` deep. -/
def nested : (n : Nat) → Pass start (Parser.nested n)
  | 0 =>
    { run := fun _ e => e.moveTo (e.parser.report e.parser.current .nestingTooDeep) rfl
      parser_run := fun _ _ => rfl }
  | n + 1 =>
    { run := expression (nested n)
      parser_run := parser_expression (nested n) }

/-- Emits a whole expression. -/
def wholeExpression (e : Emitter start) : Emitter start :=
  (nested Parser.maxNesting).run .assignment e

/-- A whole expression is read as the parser reads it. -/
theorem parser_wholeExpression (e : Emitter start) :
    e.wholeExpression.parser = e.parser.wholeExpression.2 :=
  (nested Parser.maxNesting).parser_run ..

/-- A whole expression and what closes it are read as the parser reads them. -/
theorem parser_closed (e : Emitter start) (kind : Token.Kind) (fault : SyntaxFault) :
    (e.wholeExpression.expect kind fault).parser =
      e.parser.wholeExpression.2.expect kind fault :=
  congrArg (Parser.expect · kind fault) e.parser_wholeExpression

/-! ## Declarations -/

/-- Emits a variable declaration, after its first word. -/
def variableDeclaration (e : Emitter start) : Emitter start :=
  let e := e.expect .identifier .expectVariableName
  let name := e.makeConstant (.text e.parser.previous.text)
  let e := if name.2.parser.sees .equal then name.2.advance.wholeExpression
    else name.2.emit .pushNil
  (e.expect .semicolon .expectSemicolonAfterDeclaration).emit (.defineGlobal name.1)

/-- Emits a print statement, after its first word. -/
def printStatement (e : Emitter start) : Emitter start :=
  (e.wholeExpression.expect .semicolon .expectSemicolonAfterValue).emit .print

/-- Emits an expression statement. -/
def expressionStatement (e : Emitter start) : Emitter start :=
  (e.wholeExpression.expect .semicolon .expectSemicolonAfterExpression).emit .pop

/-- Emits a declaration, up to the recovery after it. -/
def unrecovered (e : Emitter start) : Emitter start :=
  match e.parser.current.kind with
  | .keyword .varWord => e.advance.variableDeclaration
  | .keyword .printWord => e.advance.printStatement
  | _ => e.expressionStatement

/-- Emits a declaration. -/
def declaration (e : Emitter start) : Emitter start :=
  e.unrecovered.moveTo e.unrecovered.parser.recover e.unrecovered.parser.constants_recover

/-- A variable declaration is read as the parser reads it. -/
theorem parser_variableDeclaration (e : Emitter start) :
    e.variableDeclaration.parser = e.parser.variableDeclaration.2 := by
  unfold variableDeclaration Parser.variableDeclaration
  dsimp only [makeConstant, emit, expect, moveTo]
  split
  · rw [parser_wholeExpression]
    rfl
  · rfl

/-- A print statement is read as the parser reads it. -/
theorem parser_printStatement (e : Emitter start) :
    e.printStatement.parser = e.parser.printStatement.2 :=
  e.parser_closed ..

/-- An expression statement is read as the parser reads it. -/
theorem parser_expressionStatement (e : Emitter start) :
    e.expressionStatement.parser = e.parser.expressionStatement.2 :=
  e.parser_closed ..

/-- A declaration is read as the parser reads it, and so is the recovery. -/
theorem parser_declaration (e : Emitter start) :
    e.declaration.parser = e.parser.declaration.2 := by
  show e.unrecovered.parser.recover = _
  have plain := congrArg Parser.recover e.parser_expressionStatement
  unfold unrecovered Parser.declaration
  cases e.parser.current.kind with
  | keyword word =>
    cases word with
    | varWord => exact congrArg Parser.recover e.advance.parser_variableDeclaration
    | printWord => exact congrArg Parser.recover e.advance.parser_printStatement
    | _ => exact plain
  | _ => exact plain

/-- Emits declarations to the end of the source. -/
def declarations (e : Emitter start) : Emitter start :=
  if _more : e.parser.current.kind = .finish then e else declarations e.declaration
termination_by e.parser.unread.length
decreasing_by
  have := Parser.unread_pos _more
  have := e.parser.length_declaration
  rw [parser_declaration]
  omega

/-- **The emitter reads what the parser reads.** -/
theorem parser_declarations (e : Emitter start) :
    e.declarations.parser = e.parser.declarations.2 := by
  fun_induction declarations e with
  | case1 e last => rw [Parser.declarations_of_finish last]
  | case2 e more ih => rw [ih, Parser.declarations_of_more more, parser_declaration]

/-! ## The code that is written -/

/-- From one emitter to another, some constants were added and some code was written. -/
structure Emits (e : Emitter start) (constants : Nat) (code : List TracedInstruction)
    (e' : Emitter start) : Prop where
  size : e'.chunk.constants.length = e.chunk.constants.length + constants
  code : e'.chunk.code = e.chunk.code ++ code.flatMap (·.bytes)

namespace Emits

variable {e e₁ e₂ : Emitter start} {m n : Nat} {first second : List TracedInstruction}

/-- Constants add up, and code is put behind code. -/
theorem trans (h₁ : e.Emits m first e₁) (h₂ : e₁.Emits n second e₂) :
    e.Emits (m + n) (first ++ second) e₂ where
  size := by rw [h₂.size, h₁.size, Nat.add_assoc]
  code := by rw [h₂.code, h₁.code, List.append_assoc, List.flatMap_append]

/-- The same constants and the same code, said in another way. -/
theorem congr (h : e.Emits m first e₁) (size : m = n) (code : first = second) :
    e.Emits n second e₁ :=
  size ▸ code ▸ h

/-- Where the parser only goes on, nothing is written. -/
theorem moveTo (e : Emitter start) (p : Parser) (same : p.constants = e.parser.constants) :
    e.Emits 0 [] (e.moveTo p same) :=
  ⟨rfl, (List.append_nil _).symm⟩

/-- Reading a token writes nothing. -/
theorem advance (e : Emitter start) : e.Emits 0 [] e.advance :=
  moveTo e e.parser.advance rfl

/-- Asking for a token writes nothing. -/
theorem expect (e : Emitter start) (kind : Token.Kind) (fault : SyntaxFault) :
    e.Emits 0 [] (e.expect kind fault) :=
  moveTo e _ _

/-- An instruction is written on the line of the token read last. -/
theorem emit (e : Emitter start) (i : Instruction) :
    e.Emits 0 [⟨i, e.parser.previous.line⟩] (e.emit i) := by
  constructor <;> simp [Emitter.emit, Chunk.writeAll_eq, TracedInstruction.bytes]

/-- Some instructions are written on one line. -/
theorem emitAll (e : Emitter start) (instructions : List Instruction) :
    e.Emits 0 (instructions.map (⟨·, e.parser.previous.line⟩)) (e.emitAll instructions) := by
  unfold Emitter.emitAll
  induction instructions generalizing e with
  | nil => exact ⟨rfl, (List.append_nil _).symm⟩
  | cons i others ih => exact (emit e i).trans (ih (e.emit i))

/-- A constant is added, and no code. -/
theorem makeConstant (e : Emitter start) (value : Literal) :
    e.Emits 1 [] (e.makeConstant value).2 := by
  constructor <;> simp [Emitter.makeConstant, Chunk.addConstant]

end Emits

/-- Where nothing is reported, the operand is the number of the constant. -/
theorem operand_makeConstant {e : Emitter start} {value : Literal}
    (quiet : (e.makeConstant value).2.parser.reports = .none) :
    (e.makeConstant value).1 = .ofNat e.chunk.constants.length := by
  have size : e.chunk.constants.length = e.parser.constants.size := by
    rw [← Array.length_toList, ← Literal.length_linkAll start, e.linked]
  have few : e.parser.constants.size < Chunk.maxConstants := by
    by_contra many
    have noted : (e.parser.note value).reports = .none := quiet
    rw [Parser.note, if_neg many] at noted
    exact Reports.add_ne_none _ _ _ noted
  rw [← size] at few
  exact if_pos few

/-- Adding a constant reads no token. -/
theorem previous_makeConstant (e : Emitter start) (value : Literal) :
    (e.makeConstant value).2.parser.previous = e.parser.previous :=
  (Parser.Moves.note e.parser value).previous

/-- An instruction that refers to a new constant. -/
theorem emits_constant {e : Emitter start} {value : Literal}
    (quiet : (e.makeConstant value).2.parser.reports = .none) (refer : UInt8 → Instruction) :
    e.Emits 1 [⟨refer (.ofNat e.chunk.constants.length), e.parser.previous.line⟩]
      ((e.makeConstant value).2.emit (refer (e.makeConstant value).1)) := by
  rw [← operand_makeConstant quiet, ← previous_makeConstant e value]
  exact (Emits.makeConstant e value).trans (.emit ..)

/-- From one emitter to another an expression was read, and its code written. -/
structure Writes (e : Emitter start) (x : Expr) (e' : Emitter start) : Prop extends
    Emits e x.constants.length (x.code e.chunk.constants.length) e' where
  line : e'.parser.previous.line = x.lastLine

/-- What `pass` reads without a report is written. -/
def Pass.Writes (pass : Pass start inner) : Prop :=
  ∀ (k : Precedence) (e : Emitter start), (pass.run k e).parser.reports = .none →
    Emitter.Writes e (inner.read k e.parser).1 (pass.run k e)

section Expressions

variable {pass : Pass start inner} {k : Precedence} {e : Emitter start}

/-- Where nothing is reported behind a pass, nothing was reported before it. -/
theorem Pass.quiet_of_run (grows : inner.Grows) (quiet : (pass.run k e).parser.reports = .none) :
    e.parser.reports = .none := by
  rw [pass.parser_run] at quiet
  exact (grows k e.parser).none_of_none quiet

/-- The operation stands behind its operands. -/
theorem writes_infixes (grows : inner.Grows) (writes : pass.Writes) {before : Emitter start}
    {left : Expr} (first : before.Writes left e)
    (quiet : (infixes pass k e).parser.reports = .none) :
    before.Writes (Parser.infixes inner k left e.parser).1 (infixes pass k e) := by
  fun_induction infixes pass k e generalizing left with
  | case1 e seen => rwa [Parser.infixes_of_none seen]
  | case2 e op seen tight ih =>
    rw [Parser.infixes_of_some seen, if_pos tight]
    have quiet₁ : (pass.run op.precedence.next e.advance).parser.reports = .none := by
      rw [parser_infixes pass k left, parser_emitAll] at quiet
      exact (Parser.grows_infixes grows ..).none_of_none quiet
    have second := writes op.precedence.next e.advance quiet₁
    have both : before.Writes (.binary op left (inner.read op.precedence.next e.parser.advance).1)
        ((pass.run op.precedence.next e.advance).emitAll op.code) := by
      refine ⟨(first.toEmits.trans ((Emits.advance e).trans
        (second.toEmits.trans (.emitAll _ op.code)))).congr ?_ ?_, ?_⟩
      · simp [Expr.constants, advance, moveTo]
      · have next : e.advance.chunk.constants.length = _ := first.size
        rw [second.line, next, List.nil_append, Expr.code, List.append_assoc]
        rfl
      · rw [parser_emitAll, second.line]
        rfl
    have others := ih both quiet
    rwa [parser_emitAll, pass.parser_run] at others
  | case3 e op seen loose => rwa [Parser.infixes_of_some seen, if_neg loose]

/-- What starts with a name is written: the value first, if there is one, and then the operation. -/
theorem writes_name (grows : inner.Grows) (writes : pass.Writes)
    (quiet : (name pass k e).parser.reports = .none) :
    e.Writes (Parser.name inner k e.parser.previous e.parser).1 (name pass k e) := by
  have line := congrArg Token.line (previous_makeConstant e (.text e.parser.previous.text))
  have sees : (e.makeConstant (.text e.parser.previous.text)).2.parser.sees .equal =
      (e.parser.note (.text e.parser.previous.text)).sees .equal := rfl
  unfold name Parser.name at *
  dsimp only at quiet ⊢
  rw [sees] at quiet ⊢
  split at quiet <;> rename_i assigned
  · rw [if_pos assigned, if_pos assigned]
    have named := (Emits.makeConstant e (.text e.parser.previous.text)).trans (.advance _)
    have value := writes .assignment _ quiet
    have noted := (Parser.grows_advance _).none_of_none (pass.quiet_of_run grows quiet)
    refine ⟨(named.trans (value.toEmits.trans (.emit _ _))).congr ?_ ?_, value.line⟩
    · rw [Expr.constants, List.length_cons]
      exact Nat.add_comm ..
    · rw [operand_makeConstant noted, value.line, named.size]
      rfl
  · rw [if_neg assigned, if_neg assigned]
    exact ⟨emits_constant quiet .getGlobal, line⟩

/-- A number in range is written as a constant. -/
theorem writes_number (quiet : e.number.parser.reports = .none) :
    e.Writes (Parser.number e.parser.previous e.parser).1 e.number := by
  unfold number Parser.number at *
  cases read : Literal.ofNumber? e.parser.previous.text with
  | none =>
    rw [read] at quiet
    exact absurd quiet (Reports.add_ne_none _ _ _)
  | some value =>
    rw [read] at quiet
    have line := congrArg Token.line (e.previous_makeConstant value)
    exact ⟨emits_constant quiet .constant, line⟩

/-- The operation is written behind its operand. -/
theorem writes_unary (writes : pass.Writes) (op : UnaryOp)
    (quiet : (pass.run .unary e).parser.reports = .none) :
    e.Writes (.unary op (inner.read .unary e.parser).1) ((pass.run .unary e).emit op.code) := by
  have value := writes .unary e quiet
  refine ⟨(value.toEmits.trans (.emit _ op.code)).congr (Nat.add_zero _) ?_, value.line⟩
  rw [value.line]
  rfl

/-- An operand is written, if there is one. -/
theorem writes_operand (grows : inner.Grows) (writes : pass.Writes) {left : Expr}
    (read : (Parser.operand? inner k e.parser.previous e.parser).1 = some left)
    (quiet : (operand pass k e).2.parser.reports = .none) :
    e.Writes left (operand pass k e).2 := by
  unfold operand at *
  unfold Parser.operand? at read
  cases kind : e.parser.previous.kind with
  | leftParen =>
    rw [kind] at read quiet
    have group := writes .assignment e ((Parser.grows_expect ..).none_of_none quiet)
    cases read
    refine ⟨(group.toEmits.trans (.expect ..)).congr (Nat.add_zero _) (List.append_nil _), ?_⟩
    dsimp only [expect, Emitter.moveTo]
    rw [pass.parser_run]
    rfl
  | minus =>
    rw [kind] at read quiet
    cases read
    exact writes_unary writes .negate quiet
  | bang =>
    rw [kind] at read quiet
    cases read
    exact writes_unary writes .not quiet
  | identifier =>
    rw [kind] at read quiet
    cases read
    exact writes_name grows writes quiet
  | string =>
    rw [kind] at read quiet
    cases read
    have line := congrArg Token.line (e.previous_makeConstant (.ofQuoted e.parser.previous.text))
    exact ⟨emits_constant quiet .constant, line⟩
  | number =>
    rw [kind] at read quiet
    cases read
    exact writes_number quiet
  | keyword word =>
    rw [kind] at read quiet
    cases word with
    | nilWord =>
      cases read
      exact ⟨.emit e .pushNil, rfl⟩
    | trueWord =>
      cases read
      exact ⟨.emit e .pushTrue, rfl⟩
    | falseWord =>
      cases read
      exact ⟨.emit e .pushFalse, rfl⟩
    | _ => cases read
  | _ =>
    rw [kind] at read
    cases read

/-- An expression is written: its first operand and then the operators. -/
theorem writes_expression (grows : inner.Grows) (writes : pass.Writes)
    (quiet : (expression pass k e).parser.reports = .none) :
    e.Writes (Parser.expression inner k e.parser).1 (expression pass k e) := by
  obtain ⟨found, first⟩ := parser_operand_advance pass k e
  unfold expression Parser.expression at *
  rcases read : Parser.operand? inner k e.parser.current e.parser.advance with ⟨_ | left, q⟩ <;>
    rw [read] at found first <;> dsimp only at found first quiet ⊢
  · -- Only a report answers no operand.
    rw [if_neg (by rw [found]; nofun), first] at quiet
    unfold Parser.operand? at read
    split at read <;> cases read
    exact absurd quiet (Reports.add_ne_none _ _ _)
  · rw [if_pos (show (operand pass k e.advance).1 = true from found)] at quiet ⊢
    rw [← first, ← parser_infixes pass]
    split at quiet <;> rename_i assigned
    · exact absurd quiet (Reports.add_ne_none _ _ _)
    · rw [if_neg assigned, if_neg assigned]
      have quiet₁ : (operand pass k e.advance).2.parser.reports = .none := by
        rw [parser_infixes pass k left] at quiet
        exact (Parser.grows_infixes grows ..).none_of_none quiet
      have operand := writes_operand grows writes (congrArg Prod.fst read) quiet₁
      exact writes_infixes grows writes ⟨⟨operand.size, operand.code⟩, operand.line⟩ quiet

end Expressions

/-- Expressions are written however deep they nest. -/
theorem writes_nested (n : Nat) : (nested n : Pass start (Parser.nested n)).Writes := by
  induction n with
  | zero => exact fun _ e quiet => absurd quiet (Reports.add_ne_none _ _ _)
  | succ n ih => exact fun k e quiet => writes_expression (Parser.grows_nested n) ih quiet

/-- A whole expression is written, and what closes it is read. -/
theorem writes_wholeExpression {e : Emitter start} (kind : Token.Kind) (fault : SyntaxFault)
    (quiet : (e.wholeExpression.expect kind fault).parser.reports = .none) :
    e.Emits e.parser.wholeExpression.1.constants.length
      (e.parser.wholeExpression.1.code e.chunk.constants.length)
      (e.wholeExpression.expect kind fault) := by
  have quiet₁ := (Parser.grows_expect ..).none_of_none quiet
  have value := writes_nested Parser.maxNesting .assignment e quiet₁
  exact ⟨value.size, value.code⟩

/-- From one emitter to another a declaration was read, and its code written. -/
def WritesDeclaration (e : Emitter start) (d : Declaration) (e' : Emitter start) : Prop :=
  e.Emits d.constants.length (d.code e.chunk.constants.length) e'

section Declarations

variable {e : Emitter start}

/-- A variable declaration is written: the value, or `nil`, and then the definition. -/
theorem writes_variableDeclaration (quiet : e.variableDeclaration.parser.reports = .none) :
    e.WritesDeclaration e.parser.variableDeclaration.1 e.variableDeclaration := by
  have named := (Emits.expect e .identifier .expectVariableName).trans (.makeConstant _
    (.text (e.expect .identifier .expectVariableName).parser.previous.text))
  unfold variableDeclaration Parser.variableDeclaration at *
  dsimp only at quiet ⊢
  split at quiet <;> rename_i assigned
  · rw [if_pos assigned, if_pos (by exact assigned)]
    have value := writes_wholeExpression .semicolon .expectSemicolonAfterDeclaration quiet
    have quiet₁ := (Parser.grows_expect ..).none_of_none quiet
    rw [parser_wholeExpression] at quiet₁
    have noted := (Parser.grows_advance _).none_of_none
      ((Parser.grows_wholeExpression _).none_of_none quiet₁)
    have equal := named.trans (.advance _)
    refine (equal.trans (value.trans (.emit _ _))).congr ?_ ?_
    · rw [Declaration.constants, Option.map_some, Option.getD_some, List.length_cons]
      exact Nat.add_comm ..
    · rw [operand_makeConstant noted, Declaration.code, equal.size, parser_closed]
      rfl
  · rw [if_neg assigned, if_neg (by exact assigned)]
    have noted := (Parser.grows_expect ..).none_of_none quiet
    refine ((named.trans (.emit _ .pushNil)).trans ((Emits.expect ..).trans (.emit _ _))).congr
      rfl ?_
    rw [operand_makeConstant noted, previous_makeConstant]
    rfl

/-- A print statement is written: the value and then its printing. -/
theorem writes_printStatement (quiet : e.printStatement.parser.reports = .none) :
    e.WritesDeclaration e.parser.printStatement.1 e.printStatement := by
  have value := writes_wholeExpression .semicolon .expectSemicolonAfterValue quiet
  refine (value.trans (.emit _ .print)).congr (Nat.add_zero _) ?_
  rw [parser_closed]
  rfl

/-- An expression statement is written: the value, which is then dropped. -/
theorem writes_expressionStatement (quiet : e.expressionStatement.parser.reports = .none) :
    e.WritesDeclaration e.parser.expressionStatement.1 e.expressionStatement := by
  have value := writes_wholeExpression .semicolon .expectSemicolonAfterExpression quiet
  refine (value.trans (.emit _ .pop)).congr (Nat.add_zero _) ?_
  rw [parser_closed]
  rfl

/-- Up to the recovery, reports are added and none is withdrawn. -/
theorem grows_unrecovered (e : Emitter start) :
    e.parser.reports.Grows e.unrecovered.parser.reports := by
  unfold unrecovered
  split
  · rw [parser_variableDeclaration]
    exact e.parser.grows_advance.trans (Parser.grows_variableDeclaration _)
  · rw [parser_printStatement]
    exact e.parser.grows_advance.trans (Parser.grows_printStatement _)
  · rw [parser_expressionStatement]
    exact Parser.grows_expressionStatement _

/-- A declaration is written, up to the recovery. -/
theorem writes_unrecovered (quiet : e.unrecovered.parser.reports = .none) :
    e.WritesDeclaration e.parser.declaration.1 e.unrecovered := by
  unfold unrecovered Parser.declaration at *
  cases kind : e.parser.current.kind with
  | keyword word =>
    rw [kind] at quiet
    cases word with
    | varWord =>
      have written := writes_variableDeclaration quiet
      exact ⟨written.size, written.code⟩
    | printWord =>
      have written := writes_printStatement quiet
      exact ⟨written.size, written.code⟩
    | _ => exact writes_expressionStatement quiet
  | _ =>
    rw [kind] at quiet
    exact writes_expressionStatement quiet

/-- Where nothing was reported, there is nothing to recover from. -/
theorem writes_declaration (honest : e.parser.reports.Honest)
    (empty : e.declaration.parser.reports.diagnostics = #[]) :
    e.WritesDeclaration e.parser.declaration.1 e.declaration ∧
      e.declaration.parser.reports = .none := by
  have quiet := Parser.reports_eq_none_of_recover (e.grows_unrecovered.honest honest) empty
  have written := writes_unrecovered quiet
  refine ⟨⟨written.size, written.code⟩, ?_⟩
  show e.unrecovered.parser.recover.reports = .none
  rw [Parser.recover_of_none quiet, quiet]

/-- **What is read without a report is written,** declaration by declaration. -/
theorem emits_declarations (honest : e.parser.reports.Honest)
    (empty : e.declarations.parser.reports.diagnostics = #[]) :
    e.Emits (e.parser.declarations.1.flatMap Declaration.constants).length
      (Declaration.codeOfList e.chunk.constants.length e.parser.declarations.1)
      e.declarations := by
  fun_induction declarations e with
  | case1 e last =>
    rw [Parser.declarations_of_finish last]
    exact ⟨rfl, (List.append_nil _).symm⟩
  | case2 e more ih =>
    have empty₁ : e.declaration.parser.reports.diagnostics = #[] := by
      rw [parser_declarations] at empty
      exact (Parser.keeps_declarations _).diagnostics_eq empty
    obtain ⟨first, quiet⟩ := writes_declaration honest empty₁
    have others := ih (quiet ▸ Reports.honest_none) empty
    rw [Parser.declarations_of_more more, ← parser_declaration]
    refine (Emits.trans first others).congr ?_ ?_
    · simp
    · rw [Emits.size first]
      rfl

end Declarations

/-! ## Main statement -/

/-- Compiles a source while it is read. -/
def compile (source : String) (start : StringPool) :
    Except (List Diagnostic) Chunk × StringPool :=
  let e := ((ofStream (.scan source.toList) start).declarations.advance).emit .finish
  if e.parser.reports.diagnostics.isEmpty then (.ok e.chunk, e.pool)
  else (.error e.parser.reports.diagnostics.toList, e.pool)

end Emitter

/-- Reading takes tokens off the unread ones, and leaves the end of the source where it is. -/
theorem Parser.framed_suffix :
    Framed fun p q => q.unread <:+ p.unread ∧ q.lastLine = p.lastLine where
  refl _ := ⟨List.suffix_rfl, rfl⟩
  trans h₁ h₂ := ⟨h₂.1.trans h₁.1, h₂.2.trans h₁.2⟩
  advance _ := ⟨(skipFaults_suffix _ _).trans (List.tail_suffix _), rfl⟩
  push _ _ := ⟨List.suffix_rfl, rfl⟩
  reportCurrent _ _ := ⟨List.suffix_rfl, rfl⟩
  reportPrevious _ _ := ⟨List.suffix_rfl, rfl⟩

/-- A declaration and its recovery take tokens off the unread ones. -/
theorem Parser.suffix_declaration (p : Parser) :
    p.declaration.2.unread <:+ p.unread ∧ p.declaration.2.lastLine = p.lastLine := by
  obtain ⟨q, read, eq⟩ := framed_suffix.declaration p
  have recovered : q.recover.unread <:+ q.unread ∧ q.recover.lastLine = q.lastLine := by
    unfold recover
    split
    · exact framed_suffix.skipDeclaration _
    · exact framed_suffix.refl q
  rw [eq]
  exact framed_suffix.trans (framed_suffix.advance p) (framed_suffix.trans read recovered)

/-- Declarations are read to the end of the source. -/
theorem Parser.unread_declarations (p : Parser) (inside : ∀ t ∈ p.unread, t.kind ≠ .finish) :
    p.declarations.2.unread = [] ∧ p.declarations.2.lastLine = p.lastLine := by
  fun_induction Parser.declarations p with
  | case1 p finish => exact ⟨unread_of_finish finish inside, rfl⟩
  | case2 p _ first _ ih =>
    obtain ⟨suffix, last⟩ := p.suffix_declaration
    obtain ⟨nothing, line⟩ := ih fun t ht => inside t (suffix.subset ht)
    exact ⟨nothing, line.trans last⟩

namespace Emitter

variable {stream : TokenStream} {pool : StringPool}

/-- Behind the declarations the end of the source is read. Nothing is reported there. -/
theorem advance_declarations (inside : ∀ t ∈ stream.tokens, t.kind ≠ .finish) :
    let e := (ofStream stream pool).declarations
    e.advance.parser.reports = e.parser.reports ∧
      e.advance.parser.previous.line = stream.lastLine := by
  obtain ⟨nothing, line⟩ := (Parser.ofStream stream).unread_declarations fun t ht =>
    inside t ((Parser.skipFaults_suffix _ _).subset ht)
  have parser : (ofStream stream pool).declarations.parser =
      (Parser.ofStream stream).declarations.2 := parser_declarations _
  intro e
  rw [← parser] at nothing line
  constructor
  · show (Parser.skipFaults e.parser.unread.tail e.parser.reports).2 = _
    rw [nothing]
    rfl
  · show e.parser.current.line = _
    rw [Parser.current, nothing]
    exact line

/-- The chunk that was written when the end of the source was read without a report. -/
theorem chunk_finish (inside : ∀ t ∈ stream.tokens, t.kind ≠ .finish) :
    let e := (ofStream stream pool).declarations
    e.parser.reports.diagnostics = #[] →
      (e.advance.emit .finish).chunk =
        (Program.mk (Parser.ofStream stream).declarations.1 stream.lastLine).chunk
          e.chunk.constants := by
  intro e empty
  have honest := (Parser.grows_skipFaults stream.tokens .none).honest Reports.honest_none
  have declared := emits_declarations (e := ofStream stream pool) honest empty
  have whole := (declared.trans (.advance _)).trans (.emit _ .finish)
  rw [(advance_declarations inside).2, List.append_nil] at whole
  have constants : (e.advance.emit .finish).chunk.constants = e.chunk.constants := by
    simp [emit, Chunk.writeAll_eq, advance, moveTo]
  exact congrArg₂ Chunk.mk whole.code constants

/-- **Compiling a source while it is read** gives the same chunk or the same diagnostics, and the
same pool, as making code of its trees. -/
theorem compile_eq (source : String) (pool : StringPool) :
    compile source pool = StackScript.compile source pool := by
  let e := (ofStream (.scan source.toList) pool).declarations
  have inside : ∀ t ∈ (TokenStream.scan source.toList).tokens, t.kind ≠ .finish :=
    TokenStream.kind_ne_finish 1 source.toList
  have parsed : ParsedSource.ofSource source =
      ⟨⟨(Parser.ofStream (.scan source.toList)).declarations.1,
        (TokenStream.scan source.toList).lastLine⟩,
        e.parser.constants.toList, e.parser.reports.diagnostics.toList⟩ := by
    rw [show e.parser = _ from parser_declarations _]
    rfl
  have reports : (e.advance.emit .finish).parser.reports = e.parser.reports :=
    (advance_declarations inside).1
  have pools : (e.advance.emit .finish).pool = e.pool := rfl
  unfold compile StackScript.compile
  rw [parsed]
  dsimp only
  rw [e.linked, reports, pools, Array.isEmpty_toList]
  split
  · rename_i empty
    rw [chunk_finish inside (Array.isEmpty_iff.1 empty)]
  · rfl

end Emitter
end StackScript
