/-
# What is read without a report is derived

If nothing is reported while something is read, then what was read is derived by the
grammar with the tree that the parser answers, and it keeps within the limits.

The loop over the operators carries the invariant. Its left operand is derived at some
precedence `j`, and an operator that comes next binds no tighter than `j`; so whenever
the loop takes an operator, the left operand is derived at the operator's precedence
too. The right operand was read one step tighter and ends where the loop goes on, which
gives the invariant for the operator's own precedence.
-/
import StackScript.Proofs.Parser.Motion

namespace StackScript
namespace Parser

variable {p q r : Parser} {t : Token} {tokens : List Token} {noted : List Literal}

/-- Reading tokens within the limits on tokens and constants. -/
structure Takes (p : Parser) (read : List Token) (noted : List Literal) (q : Parser) : Prop
    extends Moves p read noted q where
  range : ∀ t ∈ read, t.InRange
  few : p.constants.size ≤ Chunk.maxConstants → q.constants.size ≤ Chunk.maxConstants

namespace Takes

/-- Taking nothing keeps within the limits. -/
theorem refl (p : Parser) : p.Takes [] [] p :=
  ⟨.refl p, nofun, id⟩

/-- What is taken in two parts is taken. -/
theorem trans {read₁ read₂ : List Token} {noted₁ noted₂ : List Literal}
    (h₁ : p.Takes read₁ noted₁ q) (h₂ : q.Takes read₂ noted₂ r) :
    p.Takes (read₁ ++ read₂) (noted₁ ++ noted₂) r where
  toMoves := h₁.toMoves.trans h₂.toMoves
  range := by
    intro t ht
    rcases List.mem_append.1 ht with ht | ht
    · exact h₁.range t ht
    · exact h₂.range t ht
  few := h₂.few ∘ h₁.few

/-- Where no fault was reported, none was skipped. -/
theorem advance (quiet : p.advance.reports = .none) (more : p.current.kind ≠ .finish)
    (range : p.current.InRange) : p.Takes [p.current] [] p.advance := by
  have same := skipFaults_of_none quiet
  rcases p with ⟨previous, _ | ⟨t, rest⟩, lastLine, reports, constants⟩
  · exact absurd rfl more
  · have : (Parser.advance ⟨previous, t :: rest, lastLine, reports, constants⟩) =
        ⟨t, rest, lastLine, reports, constants⟩ := by
      rw [List.tail_cons] at same
      simp [Parser.advance, current, same]
    rw [this]
    exact ⟨⟨rfl, rfl, rfl, by simp⟩, by simpa using range, id⟩

/-- A constant is noted without a report only where there is room. -/
theorem note (quiet : (p.note value).reports = .none) : p.Takes [] [value] (p.note value) := by
  refine ⟨.note p value, nofun, fun _ => ?_⟩
  have size := (Moves.note p value).size_constants
  unfold Parser.note at quiet
  dsimp only at quiet
  split at quiet
  · simp only [List.length_singleton] at size
    omega
  · exact absurd quiet (Reports.add_ne_none _ _ _)

/-- A token that was asked for was there. -/
theorem expect {kind : Token.Kind} {fault : SyntaxFault}
    (quiet : (p.expect kind fault).reports = .none) (more : kind ≠ .finish)
    (plain : kind ≠ .number) :
    p.current.kind = kind ∧ p.Takes [p.current] [] (p.expect kind fault) ∧
      (p.expect kind fault).previous = p.current := by
  unfold Parser.expect at quiet ⊢
  split at quiet
  · rename_i seen
    have kind : p.current.kind = kind := by simpa [sees] using seen
    rw [if_pos seen]
    exact ⟨kind, .advance quiet (kind ▸ more) (Token.inRange_of_ne (kind ▸ plain)), rfl⟩
  · exact absurd quiet (Reports.add_ne_none _ _ _)

end Takes

/-! ## Expressions -/

/-- What `inner` reads without a report is derived, and nests at most `n` deep. -/
def Nested.Sound (inner : Nested) (n : Nat) : Prop :=
  ∀ (k : Precedence) (p : Parser), (inner.read k p).2.reports = .none →
    Ends k (inner.read k p).2.current.kind ∧ (inner.read k p).1.nesting ≤ n ∧
      ∃ tokens, (inner.read k p).1.Derives k tokens ∧
        p.Takes tokens (inner.read k p).1.constants (inner.read k p).2

/-- No operator in front of a token binds tighter than `j`. -/
def Looser (j : Precedence) (t : Token) : Prop :=
  ∀ op, BinaryOp.ofKind? t.kind = some op → op.precedence.rank ≤ j.rank

/-- **The operators that the loop takes are derived,** each with the left operand that it found. -/
theorem sound_infixes {inner : Nested} {n : Nat} (grows : inner.Grows) (sound : inner.Sound n)
    {j k : Precedence} {left : Expr} (h : left.Derives j tokens) (le : k.rank ≤ j.rank)
    (looser : Looser j p.current) (deep : left.nesting ≤ n + 1)
    (quiet : (infixes inner k left p).2.reports = .none) :
    (∀ op, BinaryOp.ofKind? (infixes inner k left p).2.current.kind = some op →
        op.precedence.rank < k.rank) ∧
      (infixes inner k left p).1.nesting ≤ n + 1 ∧
      ∃ more noted, (infixes inner k left p).1.Derives k (tokens ++ more) ∧
        (infixes inner k left p).1.constants = left.constants ++ noted ∧
        p.Takes more noted (infixes inner k left p).2 := by
  fun_induction infixes inner k left p generalizing j tokens with
  | case1 left p seen =>
    refine ⟨by simp [seen], deep, [], [], ?_, (List.append_nil _).symm, .refl p⟩
    rw [List.append_nil]
    exact h.loosen le
  | case2 left p op seen tight right =>
    rename_i ih
    have quiet₂ : right.2.reports = .none := (grows_infixes grows ..).none_of_none quiet
    have quiet₁ : p.advance.reports = .none := (grows ..).none_of_none quiet₂
    obtain ⟨ends, inside, others, derives, takes⟩ := sound op.precedence.next p.advance quiet₂
    have sign : p.Takes [p.current] [] p.advance := by
      refine .advance quiet₁ ?_ (Token.inRange_of_ne ?_) <;>
        · intro eq
          simp [eq, BinaryOp.ofKind?] at seen
    have next := Precedence.rank_next op.precedence_ne_unary
    obtain ⟨stops, nesting, more, noted, derives, constants, rest⟩ := ih
      (.binary seen rfl (h.loosen (looser op seen)) derives) tight
      (fun op' eq => by have := ends.looser op' eq; omega)
      (Nat.max_le.2 ⟨deep, by rw [Nat.add_comm]; exact Nat.succ_le_succ inside⟩) quiet
    refine ⟨stops, nesting, p.current :: others ++ more, right.1.constants ++ noted, ?_, ?_, ?_⟩
    · simpa using derives
    · rw [constants, Expr.constants, List.append_assoc]
    · simpa using (sign.trans takes).trans rest
  | case3 left p op seen loose =>
    refine ⟨?_, deep, [], [], ?_, (List.append_nil _).symm, .refl p⟩
    · intro op' eq
      obtain rfl : op = op' := by simpa [seen] using eq
      omega
    · rw [List.append_nil]
      exact h.loosen le

/-- From `p` to `q` an operand at precedence `k` was taken that nests at most `n` deep:
one without a binary operator, or a whole assignment. -/
def TakesOperand (n : Nat) (k : Precedence) (p : Parser) (e : Expr) (q : Parser) : Prop :=
  ∃ j tokens, k.rank ≤ j.rank ∧ e.Derives j tokens ∧ Looser j q.current ∧ e.nesting ≤ n ∧
    p.Takes tokens e.constants q

/-- What is no assignment may stand at every precedence and in front of any operator. -/
theorem TakesOperand.of_unary {n : Nat} {k : Precedence} {e : Expr} (h : e.Derives .unary tokens)
    (deep : e.nesting ≤ n) (takes : p.Takes tokens e.constants q) : TakesOperand n k p e q :=
  ⟨.unary, tokens, k.rank_le_unary, h, fun op _ => Nat.le_of_lt op.rank_precedence_lt, deep, takes⟩

/-- A token by itself is an operand. -/
theorem takesOperand_primary {n : Nat} {k : Precedence} {e : Expr}
    (h : Expr.Primary p.current e) (takes : p.Takes [p.current] e.constants q) :
    TakesOperand (n + 1) k p e q :=
  .of_unary (.primary h) (by rw [h.nesting_eq]; omega) takes

/-- The token in view is taken if it is neither a number nor the end. -/
theorem Takes.word {kind : Token.Kind} (quiet : p.advance.reports = .none)
    (eq : p.current.kind = kind) (more : kind ≠ .finish) (plain : kind ≠ .number) :
    p.Takes [p.current] [] p.advance :=
  .advance quiet (eq ▸ more) (Token.inRange_of_ne (eq ▸ plain))

section Operands

variable {inner : Nested} {n : Nat} {k : Precedence}

/-- A group is taken if what is inside is. -/
theorem takesOperand_group (sound : inner.Sound n) (kind : p.current.kind = .leftParen)
    (opening : p.Takes [p.current] [] p.advance)
    (quiet : ((inner.read .assignment p.advance).2.expect .rightParen
      .expectClosingParen).reports = .none) :
    TakesOperand (n + 1) k p
      (.group (inner.read .assignment p.advance).1
        ((inner.read .assignment p.advance).2.expect .rightParen .expectClosingParen).previous.line)
      ((inner.read .assignment p.advance).2.expect .rightParen .expectClosingParen) := by
  obtain ⟨close, closing, previous⟩ := Takes.expect quiet (by decide) (by decide)
  obtain ⟨-, nesting, tokens, derives, takes⟩ :=
    sound .assignment p.advance ((grows_expect ..).none_of_none quiet)
  rw [previous]
  refine .of_unary (.group kind derives close) ?_ ?_
  · rw [Expr.nesting]
    omega
  · simpa [Expr.constants] using (opening.trans takes).trans closing

/-- An operator with one operand is taken if its operand is. -/
theorem takesOperand_unary (sound : inner.Sound n) {op : UnaryOp}
    (kind : UnaryOp.ofKind? p.current.kind = some op) (sign : p.Takes [p.current] [] p.advance)
    (quiet : (inner.read .unary p.advance).2.reports = .none) :
    TakesOperand (n + 1) k p (.unary op (inner.read .unary p.advance).1)
      (inner.read .unary p.advance).2 := by
  obtain ⟨-, nesting, tokens, derives, takes⟩ := sound .unary p.advance quiet
  refine .of_unary (.unary kind derives) ?_ ?_
  · rw [Expr.nesting]
    omega
  · simpa [Expr.constants] using sign.trans takes

/-- A name is taken, and what is assigned to it. -/
theorem takesOperand_name (grows : inner.Grows) (sound : inner.Sound n)
    (kind : p.current.kind = .identifier) (word : p.Takes [p.current] [] p.advance)
    (quiet : (name inner k p.current p.advance).2.reports = .none) :
    TakesOperand (n + 1) k p (name inner k p.current p.advance).1
      (name inner k p.current p.advance).2 := by
  unfold name at quiet ⊢
  dsimp only at quiet ⊢
  split at quiet
  · rename_i assigned
    rw [if_pos assigned]
    obtain ⟨rfl, sees⟩ : k = .assignment ∧ _ := by simpa using assigned
    have equal : (p.advance.note (.text p.current.text)).current.kind = .equal := by
      simpa [Parser.sees] using sees
    have quiet₂ := (grows ..).none_of_none quiet
    have named := word.trans (.note ((grows_advance _).none_of_none quiet₂))
    have sign := named.trans (.word quiet₂ equal (by decide) (by decide))
    obtain ⟨ends, nesting, tokens, derives, takes⟩ := sound .assignment _ quiet
    refine ⟨.assignment, _, Nat.le_refl _, .assign kind equal derives, ?_, ?_, ?_⟩
    · exact fun op eq => Nat.le_of_lt (ends.looser op eq)
    · rw [Expr.nesting]
      omega
    · simpa [Expr.constants] using sign.trans takes
  · rename_i plain
    rw [if_neg plain]
    exact takesOperand_primary (.name kind) (word.trans (.note quiet))

/-- A number is taken if it is in range. -/
theorem takesOperand_number (kind : p.current.kind = .number)
    (quiet : (number p.current p.advance).2.reports = .none) :
    TakesOperand (n + 1) k p (number p.current p.advance).1 (number p.current p.advance).2 := by
  have quiet₁ := (grows_number ..).none_of_none quiet
  have primary := Expr.Primary.number kind
  unfold number at quiet ⊢
  unfold Expr.ofNumber at primary
  cases eq : Literal.ofNumber? p.current.text with
  | some value =>
    simp only [eq] at quiet primary ⊢
    have range : p.current.InRange := fun _ =>
      (Literal.ofNumber?_isSome_iff p.current.text).1 (by rw [eq]; rfl)
    have digits := Takes.advance quiet₁ (kind ▸ nofun) range
    exact takesOperand_primary primary (digits.trans (.note quiet))
  | none =>
    simp only [eq] at quiet
    exact absurd quiet (Reports.add_ne_none _ _ _)

/-- An operand is taken. -/
theorem sound_operand? (grows : inner.Grows) (sound : inner.Sound n) {e : Expr}
    (read : operand? inner k p.current p.advance = (some e, q)) (quiet : q.reports = .none) :
    TakesOperand (n + 1) k p e q := by
  have quiet₁ : p.advance.reports = .none := by
    refine (grows_operand? grows k p.current p.advance).none_of_none ?_
    rw [read]
    exact quiet
  unfold operand? at read
  split at read <;> rename_i kind
  · obtain ⟨rfl, rfl⟩ : _ = e ∧ _ = q := by simpa using read
    exact takesOperand_group sound kind (.word quiet₁ kind (by decide) (by decide)) quiet
  · obtain ⟨rfl, rfl⟩ : _ = e ∧ _ = q := by simpa using read
    have sign := Takes.word quiet₁ kind (by decide) (by decide)
    exact takesOperand_unary sound (by rw [kind]; rfl) sign quiet
  · obtain ⟨rfl, rfl⟩ : _ = e ∧ _ = q := by simpa using read
    have sign := Takes.word quiet₁ kind (by decide) (by decide)
    exact takesOperand_unary sound (by rw [kind]; rfl) sign quiet
  · obtain ⟨rfl, rfl⟩ : _ = e ∧ _ = q := by simpa using read
    exact takesOperand_name grows sound kind (.word quiet₁ kind (by decide) (by decide)) quiet
  · obtain ⟨rfl, rfl⟩ : _ = e ∧ _ = q := by simpa using read
    have word := Takes.word quiet₁ kind (by decide) (by decide)
    exact takesOperand_primary (.string kind) (word.trans (.note quiet))
  · obtain ⟨rfl, rfl⟩ : _ = e ∧ _ = q := by simpa using read
    exact takesOperand_number kind quiet
  · obtain ⟨rfl, rfl⟩ : _ = e ∧ _ = q := by simpa using read
    exact takesOperand_primary (.nil kind) (.word quiet₁ kind (by decide) (by decide))
  · obtain ⟨rfl, rfl⟩ : _ = e ∧ _ = q := by simpa using read
    exact takesOperand_primary (.true kind) (.word quiet₁ kind (by decide) (by decide))
  · obtain ⟨rfl, rfl⟩ : _ = e ∧ _ = q := by simpa using read
    exact takesOperand_primary (.false kind) (.word quiet₁ kind (by decide) (by decide))
  · simp at read

/-- An expression is derived: its first operand, and then the operators. -/
theorem sound_expression (grows : inner.Grows) (sound : inner.Sound n)
    (quiet : (expression inner k p).2.reports = .none) :
    Ends k (expression inner k p).2.current.kind ∧ (expression inner k p).1.nesting ≤ n + 1 ∧
      ∃ tokens, (expression inner k p).1.Derives k tokens ∧
        p.Takes tokens (expression inner k p).1.constants (expression inner k p).2 := by
  unfold expression at quiet ⊢
  split at quiet
  · rename_i q read
    -- Only a report answers no operand.
    unfold operand? at read
    split at read <;> cases read
    exact absurd quiet (Reports.add_ne_none _ _ _)
  · rename_i left q read
    dsimp only at quiet
    split at quiet
    · exact absurd quiet (Reports.add_ne_none _ _ _)
    · rename_i unassigned
      dsimp only
      rw [if_neg unassigned]
      obtain ⟨j, first, le, derives, looser, deep, takes⟩ :=
        sound_operand? grows sound read ((grows_infixes grows ..).none_of_none quiet)
      obtain ⟨stops, nesting, more, noted, derives, constants, rest⟩ :=
        sound_infixes grows sound derives le looser deep quiet
      refine ⟨⟨stops, ?_⟩, nesting, first ++ more, derives, ?_⟩
      · intro eq equal
        refine unassigned ?_
        rw [Bool.and_eq_true, decide_eq_true_eq, sees, equal]
        exact ⟨eq, rfl⟩
      · rw [constants]
        exact takes.trans rest

end Operands

/-- Expressions are derived, however deep they nest. -/
theorem sound_nested (n : Nat) : (nested n).Sound n := by
  induction n with
  | zero => exact fun _ p quiet => absurd quiet (Reports.add_ne_none _ _ _)
  | succ n ih => exact fun k p quiet => sound_expression (grows_nested n) ih quiet

/-! ## Declarations -/

/-- An expression and its semicolon. -/
theorem sound_statement {fault : SyntaxFault}
    (quiet : (p.wholeExpression.2.expect .semicolon fault).reports = .none) :
    p.wholeExpression.1.nesting ≤ maxNesting ∧
      ∃ tokens semicolon, p.wholeExpression.1.Derives .assignment tokens ∧
        semicolon.kind = .semicolon ∧
        (p.wholeExpression.2.expect .semicolon fault).previous = semicolon ∧
        p.Takes (tokens ++ [semicolon]) p.wholeExpression.1.constants
          (p.wholeExpression.2.expect .semicolon fault) := by
  obtain ⟨kind, semicolon, previous⟩ := Takes.expect quiet (by decide) (by decide)
  obtain ⟨-, nesting, tokens, derives, takes⟩ :=
    sound_nested maxNesting .assignment p ((grows_expect ..).none_of_none quiet)
  refine ⟨nesting, tokens, _, derives, kind, previous, ?_⟩
  rw [← List.append_nil p.wholeExpression.1.constants]
  exact takes.trans semicolon

/-- A variable declaration is derived. -/
theorem sound_variableDeclaration {word : Token} (hw : word.kind = .keyword .varWord)
    (quiet : p.variableDeclaration.2.reports = .none) :
    p.variableDeclaration.1.nesting ≤ maxNesting ∧
      ∃ tokens, p.variableDeclaration.1.Derives (word :: tokens) ∧
        p.Takes tokens p.variableDeclaration.1.constants p.variableDeclaration.2 := by
  unfold variableDeclaration at quiet ⊢
  dsimp only at quiet ⊢
  split at quiet
  · rename_i assigned
    rw [if_pos assigned]
    have quiet₃ := (grows_expect ..).none_of_none quiet
    have quiet₂ := (grows_wholeExpression _).none_of_none quiet₃
    have quiet₁ := (grows_advance _).none_of_none quiet₂
    obtain ⟨kind, name, previous⟩ :=
      Takes.expect ((grows_note ..).none_of_none quiet₁) (by decide) (by decide)
    have equal := by simpa [sees] using assigned
    have sign := (name.trans (.note quiet₁)).trans (.word quiet₂ equal (by decide) (by decide))
    obtain ⟨nesting, tokens, semicolon, derives, hs, last, takes⟩ := sound_statement quiet
    rw [last]
    rw [previous] at *
    refine ⟨nesting, _, .initialise hw kind equal derives hs, ?_⟩
    simpa [Declaration.constants] using sign.trans takes
  · rename_i bare
    rw [if_neg bare]
    have quiet₁ := (grows_expect ..).none_of_none quiet
    obtain ⟨kind, name, previous⟩ :=
      Takes.expect ((grows_note ..).none_of_none quiet₁) (by decide) (by decide)
    obtain ⟨hs, semicolon, last⟩ := Takes.expect quiet (by decide) (by decide)
    have takes := (name.trans (.note quiet₁)).trans semicolon
    rw [last]
    rw [previous] at *
    exact ⟨Nat.zero_le _, _, .define hw kind hs, takes⟩

/-- **A declaration that is read without a report is derived.** -/
theorem sound_declaration (honest : p.reports.Honest)
    (empty : p.declaration.2.reports.diagnostics = #[]) :
    p.declaration.1.nesting ≤ maxNesting ∧ p.declaration.2.reports = .none ∧
      ∃ tokens, p.declaration.1.Derives tokens ∧
        p.Takes tokens p.declaration.1.constants p.declaration.2 := by
  unfold declaration at empty ⊢
  dsimp only at empty ⊢
  split at empty
  · rename_i kind
    have grows := p.grows_advance.trans (grows_variableDeclaration p.advance)
    have quiet := reports_eq_none_of_recover (grows.honest honest) empty
    have quiet₁ := (grows_variableDeclaration _).none_of_none quiet
    obtain ⟨nesting, tokens, derives, takes⟩ := sound_variableDeclaration kind quiet
    rw [recover_of_none quiet]
    exact ⟨nesting, quiet, _, derives, (Takes.word quiet₁ kind (by decide) (by decide)).trans takes⟩
  · rename_i kind
    have grows := p.grows_advance.trans (grows_printStatement p.advance)
    have quiet := reports_eq_none_of_recover (grows.honest honest) empty
    have quiet₁ := (grows_printStatement _).none_of_none quiet
    obtain ⟨nesting, tokens, semicolon, derives, hs, last, takes⟩ := sound_statement quiet
    rw [recover_of_none quiet, printStatement]
    simp only [last]
    exact ⟨nesting, quiet, _, .print kind derives hs,
      (Takes.word quiet₁ kind (by decide) (by decide)).trans takes⟩
  · have quiet := reports_eq_none_of_recover (p.grows_expressionStatement.honest honest) empty
    obtain ⟨nesting, tokens, semicolon, derives, hs, last, takes⟩ := sound_statement quiet
    rw [recover_of_none quiet, expressionStatement]
    simp only [last]
    exact ⟨nesting, quiet, _, .expression derives hs, takes⟩

/-- **Declarations that are read without a report are derived,** up to the end of the
source. -/
theorem sound_declarations (honest : p.reports.Honest)
    (inside : ∀ t ∈ p.unread, t.kind ≠ .finish)
    (empty : p.declarations.2.reports.diagnostics = #[]) :
    (∀ d ∈ p.declarations.1, d.nesting ≤ maxNesting) ∧
      Declaration.DerivesAll p.unread p.declarations.1 ∧
      p.Takes p.unread (p.declarations.1.flatMap Declaration.constants) p.declarations.2 := by
  fun_induction declarations p with
  | case1 p finish =>
    rw [unread_of_finish finish inside]
    exact ⟨List.forall_mem_nil _, .nil, .refl p⟩
  | case2 p _ first others ih =>
    obtain ⟨nesting, quiet, tokens, derives, takes⟩ :=
      sound_declaration honest ((keeps_declarations _).diagnostics_eq empty)
    obtain ⟨deep, all, rest⟩ := ih (quiet ▸ Reports.honest_none) (by
      intro t ht
      refine inside t ?_
      rw [takes.unread]
      exact List.mem_append_right _ ht) empty
    rw [takes.unread]
    refine ⟨?_, .cons derives all, takes.trans rest⟩
    intro d hd
    rcases List.mem_cons.1 hd with rfl | hd
    · exact nesting
    · exact deep d hd

end Parser
end StackScript
