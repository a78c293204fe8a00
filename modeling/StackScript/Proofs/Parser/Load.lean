/-
# How many constants there can be

Whatever a parser reads, it notes a constant for few tokens only, and for each of them once:

| token | noted |
| --- | --- |
| number, string, name | itself |
| `var` | itself, where the name behind it is missing |

So the load of a parser, which is the number of its constants and of such tokens still unread,
never grows (`load_declaration_le`). A source of no more such tokens than an operand can tell
apart never has too many constants, whatever else is wrong with it.
-/
import StackScript.Proofs.Parser.Motion

namespace StackScript

/-- Whether a constant may be noted for a token. -/
def Token.isNoted (t : Token) : Bool :=
  t.isConstant || t.kind = .keyword .varWord

/-- A constant may be noted for every token that holds one. -/
theorem Token.countP_isConstant_le (tokens : List Token) :
    tokens.countP isConstant ≤ tokens.countP isNoted :=
  List.countP_mono_left fun t _ constant => by rw [isNoted, constant, Bool.true_or]

namespace Parser

/-- The constants that there are, and the tokens that may still lead to some. -/
def load (p : Parser) : Nat :=
  p.constants.size + p.unread.countP Token.isNoted

variable (p : Parser)

/-! ## Single tokens -/

/-- Dropping faults drops no constant to come. -/
theorem countP_skipFaults_le (tokens : List Token) (reports : Reports) :
    (skipFaults tokens reports).1.countP Token.isNoted ≤ tokens.countP Token.isNoted := by
  fun_induction skipFaults tokens reports with
  | case1 => exact Nat.le_refl _
  | case2 _ t rest _ _ ih =>
    rw [List.countP_cons]
    exact Nat.le_trans ih (Nat.le_add_right ..)
  | case3 => exact Nat.le_refl _

/-- Reading a token makes room for its constant. -/
theorem load_advance_le : p.advance.load + p.current.isNoted.toNat ≤ p.load := by
  have skipped := countP_skipFaults_le p.unread.tail p.reports
  unfold load current advance
  dsimp only
  cases unread : p.unread with
  | nil =>
    rw [unread] at skipped
    exact Nat.add_le_add_left skipped _
  | cons t rest =>
    rw [unread] at skipped
    rw [List.countP_cons, List.headD_cons, List.tail_cons] at *
    cases t.isNoted <;> simp at * <;> omega

/-- Reading a token does not add to the load. -/
theorem load_advance_le_load : p.advance.load ≤ p.load :=
  Nat.le_trans (Nat.le_add_right ..) p.load_advance_le

/-- A report does not change the load. -/
theorem load_report (t : Token) (fault : SyntaxFault) : (p.report t fault).load = p.load := rfl

/-- A constant that is noted is one more. -/
theorem load_note (value : Literal) : (p.note value).load = p.load + 1 := by
  have noted : { p with constants := p.constants.push value }.load = p.load + 1 := by
    simp only [load, Array.size_push]
    omega
  unfold note
  dsimp only
  split
  · exact noted
  · exact noted

/-- Asking for a token does not add to the load. -/
theorem load_expect_le (kind : Token.Kind) (fault : SyntaxFault) :
    (p.expect kind fault).load ≤ p.load := by
  unfold expect
  split
  · exact p.load_advance_le_load
  · exact Nat.le_refl _

/-! ## Expressions -/

/-- Reading with `inner` does not add to the load. -/
def Nested.Light (inner : Nested) : Prop :=
  ∀ (k : Precedence) (p : Parser), (inner.read k p).2.load ≤ p.load

variable {p} {inner : Nested}

/-- Operators do not add to the load, if their right operands do not. -/
theorem load_infixes_le (light : inner.Light) (k : Precedence) (left : Expr) :
    (infixes inner k left p).2.load ≤ p.load := by
  fun_induction infixes inner k left p with
  | case1 => exact Nat.le_refl _
  | case2 left p op _ _ right ih =>
    have := p.load_advance_le_load
    have : right.2.load ≤ p.advance.load := light op.precedence.next p.advance
    omega
  | case3 => exact Nat.le_refl _

/-- A name that was read adds its constant at most. -/
theorem load_name_le (light : inner.Light) (k : Precedence) (t : Token) :
    (name inner k t p).2.load ≤ p.load + 1 := by
  have noted := p.load_note (.text t.text)
  unfold name
  dsimp only
  split
  · have := (p.note (.text t.text)).load_advance_le_load
    have := light .assignment (p.note (.text t.text)).advance
    dsimp only
    omega
  · exact Nat.le_of_eq noted

/-- A number that was read adds its constant at most. -/
theorem load_number_le (t : Token) : (number t p).2.load ≤ p.load + 1 := by
  unfold number
  split
  · exact Nat.le_of_eq (p.load_note _)
  · exact Nat.le_succ _

/-- A constant is noted for a token only if it may be. -/
theorem load_operand?_le (light : inner.Light) (k : Precedence) (t : Token) :
    (operand? inner k t p).2.load ≤ p.load + t.isNoted.toNat := by
  have constant (kind : t.kind = .number ∨ t.kind = .string ∨ t.kind = .identifier) :
      t.isNoted = true := by
    rcases kind with kind | kind | kind <;> simp [Token.isNoted, Token.isConstant, kind]
  unfold operand?
  split
  · have := light .assignment p
    have := (inner.read .assignment p).2.load_expect_le .rightParen .expectClosingParen
    dsimp only
    omega
  · exact Nat.le_trans (light .unary p) (Nat.le_add_right ..)
  · exact Nat.le_trans (light .unary p) (Nat.le_add_right ..)
  · rename_i kind
    rw [constant (.inr (.inr kind))]
    exact load_name_le light k t
  · rename_i kind
    rw [constant (.inr (.inl kind))]
    exact Nat.le_of_eq (p.load_note _)
  · rename_i kind
    rw [constant (.inl kind)]
    exact load_number_le t
  · exact Nat.le_add_right ..
  · exact Nat.le_add_right ..
  · exact Nat.le_add_right ..
  · exact Nat.le_add_right ..

/-- An expression does not add to the load. -/
theorem load_expression_le (light : inner.Light) (k : Precedence) :
    (expression inner k p).2.load ≤ p.load := by
  have read := p.load_advance_le
  have first : (operand? inner k p.current p.advance).2.load ≤ p.load :=
    Nat.le_trans (load_operand?_le light k p.current) read
  unfold expression
  split <;> rename_i q eq <;> rw [eq] at first
  · exact first
  · rename_i left
    have := load_infixes_le (p := q) light k left
    have := (infixes inner k left q).2.load_advance_le_load
    dsimp only at first ⊢
    split
    · rw [load_report]
      omega
    · omega

/-- No expression adds to the load, however deep it nests. -/
theorem light_nested (n : Nat) : (nested n).Light := by
  induction n with
  | zero => exact fun _ _ => Nat.le_refl _
  | succ n ih => exact fun k p => load_expression_le ih k

/-! ## Declarations -/

variable (p)

/-- A whole expression does not add to the load. -/
theorem load_wholeExpression_le : p.wholeExpression.2.load ≤ p.load :=
  light_nested maxNesting .assignment p

/-- Dropping the rest of a declaration does not add to the load. -/
theorem load_skipDeclaration_le : p.skipDeclaration.load ≤ p.load := by
  fun_induction skipDeclaration p with
  | case4 p _ _ _ ih => exact Nat.le_trans ih p.load_advance_le_load
  | _ => exact Nat.le_refl _

/-- Recovery does not add to the load. -/
theorem load_recover_le : p.recover.load ≤ p.load := by
  unfold recover
  split
  · exact load_skipDeclaration_le _
  · exact Nat.le_refl _

/-- The constant of a variable is noted for its name, or for the word in front of that. -/
theorem load_variableDeclaration_le : p.variableDeclaration.2.load ≤ p.load + 1 := by
  have named := p.load_expect_le .identifier .expectVariableName
  unfold variableDeclaration
  dsimp only
  generalize p.expect .identifier .expectVariableName = q at named
  have noted := q.load_note (.text q.previous.text)
  generalize q.note (.text q.previous.text) = r at noted
  split
  · have := r.load_advance_le_load
    have := r.advance.load_wholeExpression_le
    have := r.advance.wholeExpression.2.load_expect_le .semicolon .expectSemicolonAfterDeclaration
    dsimp only
    omega
  · have := r.load_expect_le .semicolon .expectSemicolonAfterDeclaration
    dsimp only
    omega

/-- A print statement does not add to the load. -/
theorem load_printStatement_le : p.printStatement.2.load ≤ p.load :=
  Nat.le_trans (load_expect_le ..) p.load_wholeExpression_le

/-- An expression statement does not add to the load. -/
theorem load_expressionStatement_le : p.expressionStatement.2.load ≤ p.load :=
  Nat.le_trans (load_expect_le ..) p.load_wholeExpression_le

/-- **No declaration adds to the load,** well formed or not. -/
theorem load_declaration_le : p.declaration.2.load ≤ p.load := by
  have read := p.load_advance_le
  unfold declaration
  dsimp only
  refine Nat.le_trans (load_recover_le _) ?_
  split
  · rename_i word
    have credit : p.current.isNoted = true := by simp [Token.isNoted, word]
    rw [credit] at read
    exact Nat.le_trans p.advance.load_variableDeclaration_le read
  · exact Nat.le_trans p.advance.load_printStatement_le p.load_advance_le_load
  · exact p.load_expressionStatement_le

/-- In front of a token stream the load is that of its tokens at most. -/
theorem load_ofStream_le (stream : TokenStream) :
    (ofStream stream).load ≤ stream.tokens.countP Token.isNoted := by
  have skipped := countP_skipFaults_le stream.tokens .none
  show 0 + (skipFaults stream.tokens .none).1.countP Token.isNoted ≤ _
  omega

end Parser
end StackScript
