/-
# The same tokens, with declarations behind them

One parser reads tokens that end in a semicolon, another one the same tokens with declarations
behind them that are well formed (`Ready`). As long as both read expressions, they stand in one of
two ways to each other (`Beside`):

| | the first | the second |
| --- | --- | --- |
| `same` | has the semicolon before it | has read as much |
| `astray` | took the semicolon for an operand, and panics at its end | is lost behind it |

Behind the semicolon of a declaration they stand in a third way: both have read all that the first
one has (`Ended`). From all of them both recover, and then the first one either has still the same
tokens to read as the second, or none, and then the second is in front of a declaration that is
ready (`Concluded.recover`). What is left it reads without a report (`diagnostics_of_ready`).
-/
import StackScript.Proofs.Parser.Lost

namespace StackScript

/-- After a report the parser panics. -/
theorem Reports.panicking_add (reports : Reports) (t : Token) (fault : SyntaxFault) :
    (reports.add t fault).panicking = true := by
  unfold add
  split
  · assumption
  · rfl

namespace Parser

variable {p q p' : Parser}

/-! ## What is ready is read -/

/-- **Declarations that are ready are read without a report,** whatever has been reported before,
if there is room for their constants. -/
theorem diagnostics_of_ready (ready : Ready p.unread) (few : p.load ≤ Chunk.maxConstants) :
    p.declarations.2.reports.diagnostics = p.reports.diagnostics := by
  fun_induction declarations p with
  | case1 => rfl
  | case2 p more first _ ih =>
    have plain : p.Plain := ready.isFault
    rcases ready.cases_first with none | ⟨d, tokens, others, unread, derives, deep, range, ready⟩
    · rw [current, none] at more
      exact absurd rfl more
    · obtain ⟨q, read, left, reads⟩ := read_declaration derives deep unread plain
      have room : p.constants.size + d.constants.length ≤ Chunk.maxConstants := by
        have := Token.countP_isConstant_le tokens
        rw [load, unread, List.countP_append] at few
        rw [derives.countP_eq range] at this
        omega
      have ended : q.previous.kind = .semicolon := by
        obtain ⟨others, last, rfl, kind⟩ := derives.exists_last
        rw [reads.previous, List.getLastD_concat]
        exact kind
      have recovered : first.2.unread = others ∧
          first.2.reports.diagnostics = p.reports.diagnostics := by
        have silent := reads.silent room range
        dsimp only [first]
        rw [read, recover_of_semicolon ended]
        split
        · exact ⟨left, by rw [← silent]; rfl⟩
        · exact ⟨left, by rw [silent]⟩
      have lighter := p.load_declaration_le
      rw [← recovered.2]
      exact ih (recovered.1 ▸ ready) (Nat.le_trans lighter few)

/-! ## More tokens behind -/

/-- The parser with more tokens behind those that it has not read yet. -/
def extended (p : Parser) (tail : List Token) (line : Nat) : Parser :=
  { p with unread := p.unread ++ tail, lastLine := line }

/-- The last token that is left is a semicolon. -/
def Closes (tokens : List Token) : Prop :=
  ∃ t ∈ tokens.getLast?, t.kind = .semicolon

namespace Closes

variable {t : Token} {rest tokens : List Token}

/-- What closes a declaration has a first token. -/
theorem exists_cons (closes : Closes tokens) : ∃ t rest, tokens = t :: rest := by
  cases tokens with
  | nil =>
    obtain ⟨_, mem, -⟩ := closes
    cases mem
  | cons t rest => exact ⟨t, rest, rfl⟩

/-- The first token is that semicolon, or there are others behind it. -/
theorem cases_tail (closes : Closes (t :: rest)) :
    (t.kind = .semicolon ∧ rest = []) ∨ Closes rest := by
  obtain ⟨last, mem, kind⟩ := closes
  cases rest with
  | nil =>
    obtain rfl := Option.some.inj mem
    exact .inl ⟨kind, rfl⟩
  | cons u rest => exact .inr ⟨last, by simpa using mem, kind⟩

/-- Behind a token that is no semicolon, the rest still closes the declaration. -/
theorem tail (closes : Closes (t :: rest)) (later : t.kind ≠ .semicolon) : Closes rest := by
  rcases closes.cases_tail with ⟨ended, -⟩ | closes
  · exact absurd ended later
  · exact closes

/-- Dropping faults does not drop the semicolon. -/
theorem skipFaults (closes : Closes tokens) (reports : Reports) :
    Closes (skipFaults tokens reports).1 := by
  fun_induction Parser.skipFaults tokens reports with
  | case1 => exact closes
  | case2 _ t rest fault kind ih => exact ih (closes.tail (by simp [kind]))
  | case3 => exact closes

end Closes

/-- Faults are skipped in the same way, where there are none further behind. -/
theorem skipFaults_append {tail : List Token} (plain : ∀ t ∈ tail.head?, t.isFault = false)
    (tokens : List Token) (reports : Reports) :
    skipFaults (tokens ++ tail) reports =
      ((skipFaults tokens reports).1 ++ tail, (skipFaults tokens reports).2) := by
  fun_induction skipFaults tokens reports with
  | case1 => exact skipFaults_of_plain _ plain
  | case2 _ t rest fault kind ih =>
    rw [List.cons_append, skipFaults]
    split
    · rename_i fault' kind'
      obtain rfl : fault = fault' := by simpa [kind] using kind'
      exact ih
    · simp_all
  | case3 t rest reports clear =>
    rw [List.cons_append, skipFaults]
    split
    · simp_all
    · rfl

section Extended

variable {tail : List Token} {line : Nat}

/-- A constant is noted the same with more tokens behind. -/
theorem extended_note (value : Literal) :
    (p.extended tail line).note value = (p.note value).extended tail line := by
  show (if p.constants.size < Chunk.maxConstants then _ else _) = (note p value).extended tail line
  unfold note
  dsimp only
  split <;> rfl

/-- The same token is in view with more tokens behind. -/
theorem current_extended (closes : Closes p.unread) :
    (p.extended tail line).current = p.current := by
  obtain ⟨t, rest, unread⟩ := closes.exists_cons
  simp [current, extended, unread]

/-- The same kind is seen with more tokens behind. -/
theorem sees_extended (closes : Closes p.unread) (kind : Token.Kind) :
    (p.extended tail line).sees kind = p.sees kind := by
  rw [sees, sees, current_extended closes]

/-- The same token is read with more tokens behind, if they are ready. -/
theorem advance_extended (ready : Ready tail) (closes : Closes p.unread) :
    (p.extended tail line).advance = p.advance.extended tail line := by
  have plain : ∀ t ∈ tail.head?, t.isFault = false :=
    fun t mem => ready.isFault t (List.mem_of_mem_head? mem)
  obtain ⟨t, rest, unread⟩ := closes.exists_cons
  simp [advance, current, extended, unread, skipFaults_append plain]

/-- Reading on, the first parser comes to the semicolon at last. -/
theorem closes_advance (closes : Closes p.unread) (later : p.current.kind ≠ .semicolon) :
    Closes p.advance.unread := by
  obtain ⟨t, rest, unread⟩ := closes.exists_cons
  rw [current_of_unread unread] at later
  rw [unread] at closes
  show Closes (skipFaults p.unread.tail p.reports).1
  rw [unread]
  exact (closes.tail later).skipFaults _

/-- Behind a token that is no semicolon, the semicolon is still unread. -/
theorem closes_advance_of_sees {kind : Token.Kind} (closes : Closes p.unread)
    (seen : p.sees kind = true) (later : kind ≠ .semicolon) : Closes p.advance.unread := by
  refine closes_advance closes ?_
  rw [kind_of_sees seen]
  exact later

/-- Noting a constant leaves the semicolon unread. -/
theorem closes_note (closes : Closes p.unread) (value : Literal) :
    Closes (p.note value).unread := by
  rw [unread_note]
  exact closes

/-- The semicolon that it reads is the last one, or there is a last one before it. -/
theorem closes_advance_or (closes : Closes p.unread) :
    Closes p.advance.unread ∨ p.advance.unread = [] := by
  obtain ⟨t, rest, unread⟩ := closes.exists_cons
  show Closes (skipFaults p.unread.tail p.reports).1 ∨ (skipFaults p.unread.tail p.reports).1 = []
  rw [unread] at closes ⊢
  rcases closes.cases_tail with ⟨-, rfl⟩ | more
  · exact .inr rfl
  · exact .inl (more.skipFaults _)

/-! ## Two parsers within a declaration -/

/-- How the two parsers stand to each other while they read an expression. -/
inductive Beside (tail : List Token) (line : Nat) : Parser → Parser → Prop where
  | same {p : Parser} : Closes p.unread → Beside tail line p (p.extended tail line)
  | astray {p p' : Parser} : p.unread = [] → p'.Lost p.reports → Beside tail line p p'

/-- Both have read all tokens of the first parser, up to the semicolon of a declaration. -/
structure Ended (tail : List Token) (line : Nat) (p p' : Parser) : Prop where
  unread : p.unread = []
  previous : p.previous.kind = .semicolon
  same : p' = p.extended tail line

/-- How they stand to each other at the end of a declaration, before they recover. -/
def Concluded (tail : List Token) (line : Nat) (p p' : Parser) : Prop :=
  Beside tail line p p' ∨ Ended tail line p p'

/-- Reading with `inner`, the two parsers stay beside each other. -/
def Nested.Besides (tail : List Token) (line : Nat) (inner : Nested) : Prop :=
  ∀ (k : Precedence) (p : Parser), Closes p.unread →
    Beside tail line (inner.read k p).2 (inner.read k (p.extended tail line)).2

/-- Where nothing is unread, the end is in view. -/
theorem current_of_nil (unread : p.unread = []) : p.current.kind = .finish := by
  simp [current, unread, Token.atEnd]

/-- Where nothing is unread, only the end is seen. -/
theorem sees_of_nil {kind : Token.Kind} (unread : p.unread = []) (more : kind ≠ .finish) :
    p.sees kind = false :=
  sees_eq_false unread (by simp) more

/-- In panic at its end, the first parser stays where it is. -/
theorem expect_of_nil {kind : Token.Kind} (unread : p.unread = [])
    (panicking : p.reports.panicking = true) (more : kind ≠ .finish) (fault : SyntaxFault) :
    p.expect kind fault = p := by
  rw [expect, sees_of_nil unread more, report_of_panicking panicking, if_neg Bool.false_ne_true]

/-- A token other than the semicolon is expected by both in the same way. -/
theorem expect_extended (line : Nat) {kind : Token.Kind} (later : kind ≠ .semicolon)
    (ready : Ready tail) (closes : Closes p.unread) (fault : SyntaxFault) :
    Closes (p.expect kind fault).unread ∧
      (p.extended tail line).expect kind fault = (p.expect kind fault).extended tail line := by
  unfold expect
  rw [sees_extended closes, current_extended closes, advance_extended ready closes]
  split
  · rename_i seen
    exact ⟨closes_advance_of_sees closes seen later, rfl⟩
  · exact ⟨closes, rfl⟩

/-- Whether a token is an operand does not depend on what follows. -/
theorem isSome_operand? (inner : Nested) (k : Precedence) (t : Token) (p q : Parser) :
    (operand? inner k t p).1.isSome = (operand? inner k t q).1.isSome := by
  unfold operand?
  split <;> rfl

/-- Noting a constant leaves the parsers beside each other. -/
theorem besides_note (value : Literal) (closes : Closes p.unread) :
    Beside tail line (p.note value) ((p.extended tail line).note value) := by
  rw [extended_note]
  exact .same (closes_note closes value)

/-- A number leaves the parsers beside each other. -/
theorem besides_number (t : Token) (closes : Closes p.unread) :
    Beside tail line (number t p).2 (number t (p.extended tail line)).2 := by
  unfold number
  split
  · exact besides_note _ closes
  · exact .same closes

section Inner

variable {inner : Nested} (ready : Ready tail) (besides : inner.Besides tail line)
  (dwells : inner.Dwells)

include ready

/-- A closing parenthesis leaves the parsers beside each other, read or missed. -/
theorem Beside.expect_rightParen (beside : Beside tail line p p') (fault : SyntaxFault) :
    Beside tail line (p.expect .rightParen fault) (p'.expect .rightParen fault) := by
  cases beside with
  | same closes =>
    have later : Token.Kind.rightParen ≠ .semicolon := nofun
    obtain ⟨closes, same⟩ := expect_extended line later ready closes fault
    rw [same]
    exact .same closes
  | astray unread lost =>
    rw [expect_of_nil unread lost.panicking (by decide)]
    exact .astray unread (lost.expect (.inr rfl) fault)

/-- Behind an expression, the semicolon of its declaration. -/
theorem Beside.expect_semicolon (beside : Beside tail line p p') (fault : SyntaxFault) :
    Concluded tail line (p.expect .semicolon fault) (p'.expect .semicolon fault) := by
  cases beside with
  | same closes =>
    unfold Parser.expect
    rw [sees_extended closes, current_extended closes, advance_extended ready closes]
    split
    · rename_i seen
      rcases closes_advance_or closes with closes | empty
      · exact .inl (.same closes)
      · exact .inr ⟨empty, kind_of_sees seen, rfl⟩
    · exact .inl (.same closes)
  | astray unread lost =>
    rw [expect_of_nil unread lost.panicking (by decide)]
    exact .inl (.astray unread (lost.expect (.inl rfl) fault))

/-- Behind the operators: an `=`, of which only the first parser may report. -/
theorem Beside.assigned (beside : Beside tail line p p') (k : Precedence) (e e' : Expr) :
    Beside tail line
      (if k = .assignment && p.sees .equal then
        (e, p.advance.report p.advance.previous .invalidAssignmentTarget) else (e, p)).2
      (if k = .assignment && p'.sees .equal then
        (e', p'.advance.report p'.advance.previous .invalidAssignmentTarget) else (e', p')).2 := by
  cases beside with
  | same closes =>
    rw [sees_extended closes, advance_extended ready closes]
    split
    · rename_i assigned
      have seen := (Bool.and_eq_true_iff.1 assigned).2
      exact .same (closes_advance_of_sees closes seen (by decide))
    · exact .same closes
  | astray unread lost =>
    rw [sees_of_nil unread (by decide), Bool.and_false, if_neg nofun]
    split
    · rename_i assigned
      exact .astray unread ((lost.advance_equal (Bool.and_eq_true_iff.1 assigned).2).report ..)
    · exact .astray unread lost

include besides

/-- Behind a name: the value that is assigned to it, or nothing. -/
theorem besides_name (k : Precedence) (t : Token) (closes : Closes p.unread) :
    Beside tail line (name inner k t p).2 (name inner k t (p.extended tail line)).2 := by
  have noted := closes_note closes (.text t.text)
  unfold name
  dsimp only
  rw [extended_note, sees_extended noted, advance_extended ready noted]
  split
  · rename_i assigned
    have seen := (Bool.and_eq_true_iff.1 assigned).2
    exact besides _ _ (closes_advance_of_sees noted seen (by decide))
  · exact .same noted

/-- Behind a token that is not the last one, both go on in the same way. -/
theorem besides_operand? (k : Precedence) (t : Token) (closes : Closes p.unread) :
    Beside tail line (operand? inner k t p).2 (operand? inner k t (p.extended tail line)).2 := by
  unfold operand?
  split
  · exact (besides _ _ closes).expect_rightParen ready _
  · exact besides _ _ closes
  · exact besides _ _ closes
  · exact besides_name ready besides k t closes
  · exact besides_note _ closes
  · exact besides_number t closes
  · exact .same closes
  · exact .same closes
  · exact .same closes
  · exact .same closes

/-- **A semicolon in an operand's place** is where the parsers part, if it is the last one. -/
theorem besides_first (k : Precedence) (closes : Closes p.unread) :
    Beside tail line (operand? inner k p.current p.advance).2
      (operand? inner k p.current (p.advance.extended tail line)).2 := by
  by_cases ended : p.current.kind = .semicolon
  · rcases closes_advance_or closes with more | empty
    · exact besides_operand? ready besides k p.current more
    · have refused (q : Parser) :
          operand? inner k p.current q = (none, q.report p.current .expectExpression) := by
        simp only [operand?, ended]
      rw [refused, refused]
      refine .astray empty ⟨Reports.panicking_add _ _ _, rfl, .first ended ?_⟩
      show Ready (p.advance.unread ++ tail)
      rw [empty]
      exact ready
  · exact besides_operand? ready besides k p.current (closes_advance closes ended)

include dwells

/-- Operators leave the parsers beside each other. -/
theorem Beside.infixes (beside : Beside tail line p p') (k : Precedence) (left left' : Expr) :
    Beside tail line (infixes inner k left p).2 (infixes inner k left' p').2 := by
  fun_induction Parser.infixes inner k left p generalizing p' left' with
  | case1 left p seen =>
    cases beside with
    | same closes =>
      rw [infixes_of_none (by rw [current_extended closes]; exact seen)]
      exact .same closes
    | astray unread lost => exact .astray unread (lost.infixes dwells k left')
  | case2 left p op seen le right =>
    rename_i ih
    cases beside with
    | same closes =>
      have later : p.current.kind ≠ .semicolon := by
        intro kind
        rw [kind] at seen
        cases seen
      have seen' : BinaryOp.ofKind? (p.extended tail line).current.kind = some op := by
        rw [current_extended closes]
        exact seen
      rw [infixes_of_some seen', if_pos le, advance_extended ready closes]
      exact ih (besides _ _ (closes_advance closes later)) _
    | astray unread _ =>
      rw [current_of_nil unread] at seen
      cases seen
  | case3 left p op seen le =>
    cases beside with
    | same closes =>
      rw [infixes_of_some (by rw [current_extended closes]; exact seen), if_neg le]
      exact .same closes
    | astray unread _ =>
      rw [current_of_nil unread] at seen
      cases seen

/-- An expression leaves the parsers beside each other. -/
theorem besides_expression (k : Precedence) (closes : Closes p.unread) :
    Beside tail line (expression inner k p).2 (expression inner k (p.extended tail line)).2 := by
  have first := besides_first ready besides k closes
  have same := isSome_operand? inner k p.current p.advance (p.advance.extended tail line)
  unfold expression
  rw [current_extended closes, advance_extended ready closes]
  generalize operand? inner k p.current p.advance = before,
    operand? inner k p.current (p.advance.extended tail line) = before' at first same
  obtain ⟨_ | left, q⟩ := before <;> obtain ⟨_ | left', q'⟩ := before'
  · exact first
  · cases same
  · cases same
  · have operators := first.infixes ready besides dwells k left left'
    dsimp only
    exact operators.assigned ready k _ _

end Inner

variable (ready : Ready tail)

include ready

/-- They stay beside each other at any depth of nesting. -/
theorem besides_nested (n : Nat) : (nested n).Besides tail line := by
  induction n with
  | zero =>
    intro k p closes
    show Beside tail line (p.report p.current .nestingTooDeep) _
    rw [← current_extended closes]
    exact .same closes
  | succ n ih => exact fun k p closes => besides_expression ready ih (dwells_nested n) k closes

/-- A whole expression leaves the parsers beside each other. -/
theorem besides_wholeExpression (closes : Closes p.unread) :
    Beside tail line p.wholeExpression.2 (p.extended tail line).wholeExpression.2 :=
  besides_nested ready maxNesting .assignment p closes

/-! ## Declarations -/

/-- An expression statement leaves the parsers beside each other, or both behind it. -/
theorem concluded_expressionStatement (closes : Closes p.unread) :
    Concluded tail line p.expressionStatement.2 (p.extended tail line).expressionStatement.2 :=
  (besides_wholeExpression ready closes).expect_semicolon ready _

/-- A print statement leaves the parsers beside each other, or both behind it. -/
theorem concluded_printStatement (closes : Closes p.unread) :
    Concluded tail line p.printStatement.2 (p.extended tail line).printStatement.2 :=
  (besides_wholeExpression ready closes).expect_semicolon ready _

/-- A variable declaration leaves the parsers beside each other, or both behind it. -/
theorem concluded_variableDeclaration (closes : Closes p.unread) :
    Concluded tail line p.variableDeclaration.2 (p.extended tail line).variableDeclaration.2 := by
  have later : Token.Kind.identifier ≠ .semicolon := nofun
  obtain ⟨named, same⟩ := expect_extended line later ready closes .expectVariableName
  unfold variableDeclaration
  dsimp only
  rw [same]
  generalize p.expect .identifier .expectVariableName = q at named
  have noted := closes_note named (.text q.previous.text)
  have previous : (q.extended tail line).previous = q.previous := rfl
  rw [extended_note, previous]
  generalize q.note (.text q.previous.text) = r at noted
  rw [sees_extended noted, advance_extended ready noted]
  split
  · rename_i seen
    have value := closes_advance_of_sees noted seen (by decide)
    exact (besides_wholeExpression ready value).expect_semicolon ready _
  · exact (Beside.same noted).expect_semicolon ready _

/-- Of tokens that end in a semicolon, both drop the same. -/
theorem skipDeclaration_extended (line : Nat) (closes : Closes p.unread) :
    (p.extended tail line).skipDeclaration = p.skipDeclaration.extended tail line ∧
      (Closes p.skipDeclaration.unread ∨ p.skipDeclaration.unread = []) := by
  fun_induction skipDeclaration p with
  | case1 p last =>
    rw [skipDeclaration_of_finish (by rw [current_extended closes]; exact last)]
    exact ⟨rfl, .inl closes⟩
  | case2 p _ ended =>
    rw [skipDeclaration_of_semicolon (p := p.extended tail line) ended]
    exact ⟨rfl, .inl closes⟩
  | case3 p _ _ starts =>
    rw [skipDeclaration_of_starts (by rw [current_extended closes]; exact starts)]
    exact ⟨rfl, .inl closes⟩
  | case4 p more going inside ih =>
    have step : (p.extended tail line).skipDeclaration =
        (p.advance.extended tail line).skipDeclaration := by
      rw [← advance_extended ready closes]
      refine skipDeclaration_of_inside ?_ going ?_
      · rw [current_extended closes]
        exact more
      · rw [current_extended closes]
        exact inside
    rw [step]
    by_cases ended : p.current.kind = .semicolon
    · -- The semicolon is read, and there both stop.
      rw [skipDeclaration_of_semicolon (p := p.advance) ended,
        skipDeclaration_of_semicolon (p := p.advance.extended tail line) ended]
      exact ⟨rfl, closes_advance_or closes⟩
    · exact ih (closes_advance closes ended)

/-- How the parsers stand to each other between two declarations: the first one has as much to
read, or nothing, and then only what is ready is left. -/
def Between (tail : List Token) (line : Nat) (p p' : Parser) : Prop :=
  (Closes p.unread ∧ p' = p.extended tail line) ∨
    (p.unread = [] ∧ Ready p'.unread ∧ p'.reports.diagnostics = p.reports.diagnostics)

/-- A parser and the one with more tokens behind stand between declarations together. -/
theorem between_of_extended (left : Closes p.unread ∨ p.unread = []) :
    Between tail line p (p.extended tail line) := by
  rcases left with closes | empty
  · exact .inl ⟨closes, rfl⟩
  · refine .inr ⟨empty, ?_, rfl⟩
    show Ready (p.unread ++ tail)
    rw [empty]
    exact ready

/-- **Both parsers recover.** -/
theorem Concluded.recover (concluded : Concluded tail line p p') :
    Between tail line p.recover p'.recover := by
  rcases concluded with (⟨closes⟩ | ⟨unread, lost⟩) | ⟨unread, ended, rfl⟩
  · rw [recover_eq, recover_eq]
    show Between tail line _ (if p.reports.panicking then _ else _)
    split
    · obtain ⟨same, left⟩ := skipDeclaration_extended (p := p.calm) ready line closes
      have calmed : (p.extended tail line).calm = p.calm.extended tail line := rfl
      rw [calmed, same]
      exact between_of_extended ready left
    · exact .inl ⟨closes, rfl⟩
  · obtain ⟨front, reports⟩ := lost.recover
    have panicking : p.reports.panicking = true := lost.panicking
    rw [recover_eq p, if_pos panicking,
      skipDeclaration_of_finish (p := p.calm) (current_of_nil (p := p.calm) unread)]
    exact .inr ⟨unread, front, reports⟩
  · rw [recover_of_semicolon ended, recover_of_semicolon (p := p.extended tail line) ended]
    show Between tail line _ (if p.reports.panicking then p.calm.extended tail line else _)
    split
    · exact between_of_extended (p := p.calm) ready (.inr unread)
    · exact between_of_extended ready (.inr unread)

/-- A declaration leads both parsers to the next one. -/
theorem between_declaration (line : Nat) (closes : Closes p.unread) :
    Between tail line p.declaration.2 (p.extended tail line).declaration.2 := by
  unfold declaration
  dsimp only
  refine Concluded.recover ready ?_
  rw [current_extended closes, advance_extended ready closes]
  split
  · rename_i kind
    exact concluded_variableDeclaration ready (closes_advance closes (by rw [kind]; nofun))
  · rename_i kind
    exact concluded_printStatement ready (closes_advance closes (by rw [kind]; nofun))
  · exact concluded_expressionStatement ready closes

/-- **What a parser reports of its own tokens is all that it reports** if declarations follow
that are well formed, and there is room for the constants. -/
theorem diagnostics_extended (closes : Closes p.unread)
    (few : (p.extended tail line).load ≤ Chunk.maxConstants) :
    (p.extended tail line).declarations.2.reports.diagnostics =
      p.declarations.2.reports.diagnostics := by
  fun_induction declarations p with
  | case1 p last => rw [declarations_of_finish (by rw [current_extended closes]; exact last)]; rfl
  | case2 p more first =>
    rename_i ih
    rw [declarations_of_more (by rw [current_extended closes]; exact more)]
    have lighter := Nat.le_trans (p.extended tail line).load_declaration_le few
    rcases between_declaration ready line closes with
      ⟨closes, same⟩ | ⟨empty, front, reports⟩
    · rw [same] at lighter ⊢
      exact ih closes lighter
    · have ended : first.2.declarations = ([], first.2) :=
        declarations_of_finish (current_of_nil empty)
      show _ = first.2.declarations.2.reports.diagnostics
      rw [ended]
      exact (diagnostics_of_ready front lighter).trans reports

end Extended

/-! ## From the first token on -/

/-- A declaration starts with the token in view, whatever was read before. -/
theorem declaration_of_previous (p : Parser) (t : Token) :
    { p with previous := t }.declaration = p.declaration := rfl

/-- Which token was read last does not change what declarations report. -/
theorem reports_of_previous (p : Parser) (t : Token) :
    { p with previous := t }.declarations.2.reports = p.declarations.2.reports := by
  by_cases last : p.current.kind = .finish
  · rw [declarations_of_finish last, declarations_of_finish (p := { p with previous := t }) last]
  · rw [declarations_of_more last, declarations_of_more (p := { p with previous := t }) last,
      declaration_of_previous]

/-- **Tokens that end in a semicolon have the same diagnostics** alone and with declarations
behind them that are well formed. -/
theorem diagnostics_ofStream {stream : TokenStream} {tail : List Token} (ready : Ready tail)
    (closes : Closes stream.tokens)
    (few : (stream.tokens ++ tail).countP Token.isNoted ≤ Chunk.maxConstants) (line : Nat) :
    (ParsedSource.ofStream ⟨stream.tokens ++ tail, line⟩).diagnostics =
      (ParsedSource.ofStream stream).diagnostics := by
  have plain : ∀ t ∈ tail.head?, t.isFault = false :=
    fun t mem => ready.isFault t (List.mem_of_mem_head? mem)
  have start : ofStream ⟨stream.tokens ++ tail, line⟩ =
      { (ofStream stream).extended tail line with previous := .atEnd line } := by
    rw [ofStream, skipFaults_append plain]
    rfl
  have light : ((ofStream stream).extended tail line).load ≤ Chunk.maxConstants := by
    have := load_ofStream_le ⟨stream.tokens ++ tail, line⟩
    rw [start] at this
    exact Nat.le_trans this few
  have same := diagnostics_extended (p := ofStream stream) ready (closes.skipFaults _) light
  show (ofStream _).declarations.2.reports.diagnostics.toList = _
  rw [start, reports_of_previous, same]
  rfl

end Parser
end StackScript
