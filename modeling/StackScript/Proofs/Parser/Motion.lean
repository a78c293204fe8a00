/-
# How a parser moves

What every step of a parser does to the parser, whatever it reads: it takes tokens off
the unread ones, notes constants, and adds reports.

* `Moves` says which tokens were read and which constants noted. No fault was skipped
  on the way.
* `Framed` says of a relation between a parser before and after that it is kept by single
  steps: reading a token, noting a constant, and reporting at the token in view or the one
  read last. Then reading any part keeps it, up to the recovery after a declaration.
* `Reports.Grows` says that reports may have been added, that none was withdrawn and no
  panic ended. A parser that has reported nothing in the end had reported nothing
  before: `Grows.none_of_none`. Only the recovery after a declaration ends a panic; of
  it, and so of declarations, `Reports.Keeps` says the rest.
* `Ends k` holds of the tokens in front of which an expression at precedence `k` ends.
-/
import StackScript.Program.Parser
import StackScript.Proofs.Grammar

namespace StackScript

/-! ## Reports -/

namespace Reports

/-- Whoever panics has reported something. -/
def Honest (reports : Reports) : Prop :=
  reports.panicking → reports.diagnostics ≠ #[]

/-- Reports of which none was withdrawn. -/
structure Keeps (before after : Reports) : Prop where
  kept : ∃ more, after.diagnostics.toList = before.diagnostics.toList ++ more
  honest : before.Honest → after.Honest

/-- Reports to which others may have been added, and no panic ended. -/
structure Grows (before after : Reports) : Prop extends Keeps before after where
  panic : before.panicking → after.panicking

namespace Keeps

/-- Reports keep themselves. -/
theorem refl (reports : Reports) : Keeps reports reports :=
  ⟨⟨[], by simp⟩, id⟩

/-- What is kept twice is kept. -/
theorem trans {a b c : Reports} (h₁ : Keeps a b) (h₂ : Keeps b c) : Keeps a c := by
  obtain ⟨more₁, kept₁⟩ := h₁.kept
  obtain ⟨more₂, kept₂⟩ := h₂.kept
  refine ⟨⟨more₁ ++ more₂, ?_⟩, h₂.honest ∘ h₁.honest⟩
  rw [kept₂, kept₁, List.append_assoc]

/-- Where no diagnostic stands in the end, none stood before. -/
theorem diagnostics_eq {before after : Reports} (h : Keeps before after)
    (empty : after.diagnostics = #[]) : before.diagnostics = #[] := by
  obtain ⟨more, kept⟩ := h.kept
  rw [empty] at kept
  obtain ⟨nothing, -⟩ := List.append_eq_nil_iff.1 kept.symm
  simpa using nothing

end Keeps

namespace Grows

/-- Reports are grown from themselves. -/
theorem refl (reports : Reports) : Grows reports reports :=
  ⟨.refl reports, id⟩

/-- What has grown twice has grown. -/
theorem trans {a b c : Reports} (h₁ : Grows a b) (h₂ : Grows b c) : Grows a c :=
  ⟨h₁.toKeeps.trans h₂.toKeeps, h₂.panic ∘ h₁.panic⟩

/-- A report is added, or none while the parser panics. -/
theorem add (reports : Reports) (t : Token) (fault : SyntaxFault) :
    Grows reports (reports.add t fault) := by
  unfold Reports.add
  split
  · exact refl reports
  · refine ⟨⟨⟨[.ofToken t fault], by simp⟩, fun _ _ => ?_⟩, fun _ => rfl⟩
    simp

/-- Where nothing is reported in the end, nothing was reported before. -/
theorem none_of_none {before after : Reports} (h : Grows before after) (none : after = .none) :
    before = .none := by
  have empty := h.diagnostics_eq (none ▸ rfl)
  have panic := h.panic
  rcases before with ⟨panicking, diagnostics⟩
  simp_all [Reports.none]

end Grows

/-- Nothing is reported if no diagnostics stand. -/
theorem Honest.eq_none {reports : Reports} (honest : reports.Honest)
    (empty : reports.diagnostics = #[]) : reports = .none := by
  rcases reports with ⟨panicking, diagnostics⟩
  obtain rfl : diagnostics = #[] := empty
  cases panicking with
  | false => rfl
  | true => exact absurd rfl (honest rfl)

/-- Without reports there is no panic. -/
theorem honest_none : Reports.none.Honest := by
  intro h
  cases h

/-- After a report something is reported, or the parser panics. -/
theorem add_ne_none (reports : Reports) (t : Token) (fault : SyntaxFault) :
    reports.add t fault ≠ .none := by
  unfold add
  split
  · rintro rfl
    contradiction
  · simp [none]

end Reports

namespace Parser

variable {p q r : Parser} {t : Token} {rest tokens : List Token}

/-- Dropping faults reports them and withdraws nothing. -/
theorem grows_skipFaults (tokens : List Token) (reports : Reports) :
    reports.Grows (skipFaults tokens reports).2 := by
  fun_induction skipFaults tokens reports with
  | case2 _ t rest fault _ ih => exact (Reports.Grows.add ..).trans ih
  | _ => exact .refl _

/-- Where no fault was reported, none was skipped. -/
theorem skipFaults_of_none {reports : Reports} (quiet : (skipFaults tokens reports).2 = .none) :
    skipFaults tokens reports = (tokens, reports) := by
  cases tokens with
  | nil => rfl
  | cons t rest =>
    rw [skipFaults] at quiet ⊢
    split at quiet
    · exact absurd ((grows_skipFaults ..).none_of_none quiet) (Reports.add_ne_none _ _ _)
    · rfl

/-- The token that was in view is the one read last. -/
theorem previous_advance (p : Parser) : p.advance.previous = p.current := rfl

/-! ## What single steps keep -/

/-- A relation between a parser before and after that single steps keep. -/
structure Framed (R : Parser → Parser → Prop) : Prop where
  refl (p : Parser) : R p p
  trans {p q r : Parser} : R p q → R q r → R p r
  advance (p : Parser) : R p p.advance
  push (p : Parser) (value : Literal) : R p { p with constants := p.constants.push value }
  reportCurrent (p : Parser) (fault : SyntaxFault) : R p (p.report p.current fault)
  reportPrevious (p : Parser) (fault : SyntaxFault) : R p (p.report p.previous fault)

namespace Framed

variable {R : Parser → Parser → Prop} (framed : Framed R) {inner : Nested}

include framed

/-- Asking for a token keeps the relation. -/
theorem expect (p : Parser) (kind : Token.Kind) (fault : SyntaxFault) :
    R p (p.expect kind fault) := by
  unfold Parser.expect
  split
  · exact framed.advance p
  · exact framed.reportCurrent p fault

/-- Noting a constant keeps it. -/
theorem note (p : Parser) (value : Literal) : R p (p.note value) := by
  unfold Parser.note
  dsimp only
  split
  · exact framed.push p value
  · exact framed.trans (framed.push p value) (framed.reportPrevious _ _)

/-- Operators keep it, if their right operands do. -/
theorem infixes (reads : ∀ k p, R p (inner.read k p).2) (k : Precedence) (left : Expr)
    (p : Parser) : R p (infixes inner k left p).2 := by
  fun_induction Parser.infixes inner k left p with
  | case2 left p op _ _ right ih =>
    exact framed.trans (framed.advance p) (framed.trans (reads ..) ih)
  | _ => exact framed.refl _

/-- What starts with a name keeps it. -/
theorem name (reads : ∀ k p, R p (inner.read k p).2) (k : Precedence) (t : Token) (p : Parser) :
    R p (name inner k t p).2 := by
  have noted := framed.note p (.text t.text)
  unfold Parser.name
  dsimp only
  split
  · exact framed.trans noted (framed.trans (framed.advance _) (reads ..))
  · exact noted

/-- A number keeps it. -/
theorem number {t : Token} {p : Parser} (report : ∀ fault, R p (p.report t fault)) :
    R p (number t p).2 := by
  unfold Parser.number
  split
  · exact framed.note p _
  · exact report _

/-- An operand keeps it. -/
theorem operand? (reads : ∀ k p, R p (inner.read k p).2) (k : Precedence) {t : Token} {p : Parser}
    (report : ∀ fault, R p (p.report t fault)) : R p (operand? inner k t p).2 := by
  unfold Parser.operand?
  split
  · exact framed.trans (reads ..) (framed.expect ..)
  · exact reads ..
  · exact reads ..
  · exact framed.name reads k t p
  · exact framed.note p _
  · exact framed.number report
  · exact framed.refl _
  · exact framed.refl _
  · exact framed.refl _
  · exact report _

/-- An expression starts with a token that is read whatever it is. -/
theorem expression (reads : ∀ k p, R p (inner.read k p).2) (k : Precedence) (p : Parser) :
    R p.advance (expression inner k p).2 := by
  have first := framed.operand? reads k (framed.reportPrevious p.advance)
  unfold Parser.expression
  rw [previous_advance] at first
  split <;> rename_i q eq <;> rw [eq] at first
  · exact first
  · rename_i left
    have operators := framed.trans first (framed.infixes reads k left q)
    dsimp only
    split
    · exact framed.trans operators
        (framed.trans (framed.advance _) (framed.reportPrevious _ _))
    · exact operators

/-- Expressions keep it, however deep they nest. -/
theorem nested (n : Nat) (k : Precedence) (p : Parser) : R p ((nested n).read k p).2 := by
  induction n generalizing k p with
  | zero => exact framed.reportCurrent p _
  | succ n ih => exact framed.trans (framed.advance p) (framed.expression ih k p)

/-- A whole expression keeps it, behind its first token. -/
theorem wholeExpression (p : Parser) : R p.advance p.wholeExpression.2 :=
  framed.expression (framed.nested 255) .assignment p

/-- A variable declaration keeps it. -/
theorem variableDeclaration (p : Parser) : R p p.variableDeclaration.2 := by
  have named := framed.trans (framed.expect p .identifier .expectVariableName)
    (framed.note _ (.text (p.expect .identifier .expectVariableName).previous.text))
  unfold Parser.variableDeclaration
  dsimp only
  split
  · refine framed.trans named (framed.trans (framed.advance _) (framed.trans (framed.advance _) ?_))
    exact framed.trans (framed.wholeExpression _) (framed.expect ..)
  · exact framed.trans named (framed.expect ..)

/-- A print statement keeps it. -/
theorem printStatement (p : Parser) : R p p.printStatement.2 :=
  framed.trans (framed.advance p) (framed.trans (framed.wholeExpression p) (framed.expect ..))

/-- An expression statement keeps it, behind its first token. -/
theorem expressionStatement (p : Parser) : R p.advance p.expressionStatement.2 :=
  framed.trans (framed.wholeExpression p) (framed.expect ..)

/-- **Reading a declaration keeps it,** from behind the first token up to the recovery. -/
theorem declaration (p : Parser) : ∃ q, R p.advance q ∧ p.declaration.2 = q.recover := by
  unfold Parser.declaration
  dsimp only
  split
  · exact ⟨_, framed.variableDeclaration _, rfl⟩
  · exact ⟨_, framed.printStatement _, rfl⟩
  · exact ⟨_, framed.expressionStatement p, rfl⟩

/-- Dropping the rest of a declaration keeps it. -/
theorem skipDeclaration (p : Parser) : R p p.skipDeclaration := by
  fun_induction Parser.skipDeclaration p with
  | case4 p _ _ _ ih => exact framed.trans (framed.advance p) ih
  | _ => exact framed.refl _

end Framed

/-! ## What is reported on the way -/

/-- Reading a token adds reports at most. -/
theorem grows_advance (p : Parser) : p.reports.Grows p.advance.reports :=
  grows_skipFaults p.unread.tail p.reports

/-- A report adds one at most. -/
theorem grows_report (p : Parser) (t : Token) (fault : SyntaxFault) :
    p.reports.Grows (p.report t fault).reports :=
  .add p.reports t fault

/-- Single steps add reports and withdraw none. -/
theorem framed_grows : Framed fun p q => p.reports.Grows q.reports where
  refl _ := .refl _
  trans := .trans
  advance := grows_advance
  push _ _ := .refl _
  reportCurrent p := p.grows_report _
  reportPrevious p := p.grows_report _

/-- Asking for a token adds reports at most. -/
theorem grows_expect (p : Parser) (kind : Token.Kind) (fault : SyntaxFault) :
    p.reports.Grows (p.expect kind fault).reports :=
  framed_grows.expect p kind fault

/-- Noting a constant adds a report at most. -/
theorem grows_note (p : Parser) (value : Literal) : p.reports.Grows (p.note value).reports :=
  framed_grows.note p value

/-- Reading with `inner` adds reports and withdraws none. -/
def Nested.Grows (inner : Nested) : Prop :=
  ∀ (k : Precedence) (p : Parser), p.reports.Grows (inner.read k p).2.reports

/-- Operators add reports at most. -/
theorem grows_infixes {inner : Nested} (grows : inner.Grows) (k : Precedence) (left : Expr)
    (p : Parser) : p.reports.Grows (infixes inner k left p).2.reports :=
  framed_grows.infixes grows k left p

/-- What starts with a name adds reports at most. -/
theorem grows_name {inner : Nested} (grows : inner.Grows) (k : Precedence) (t : Token)
    (p : Parser) : p.reports.Grows (name inner k t p).2.reports :=
  framed_grows.name grows k t p

/-- A number adds a report at most. -/
theorem grows_number (t : Token) (p : Parser) : p.reports.Grows (number t p).2.reports :=
  framed_grows.number (p.grows_report t)

/-- An operand adds reports at most. -/
theorem grows_operand? {inner : Nested} (grows : inner.Grows) (k : Precedence) (t : Token)
    (p : Parser) : p.reports.Grows (operand? inner k t p).2.reports :=
  framed_grows.operand? grows k (p.grows_report t)

/-- Expressions add reports at most, however deep they nest. -/
theorem grows_nested (n : Nat) : (nested n).Grows :=
  framed_grows.nested n

/-- A whole expression adds reports at most. -/
theorem grows_wholeExpression (p : Parser) : p.reports.Grows p.wholeExpression.2.reports :=
  grows_nested maxNesting .assignment p

/-- A variable declaration adds reports at most. -/
theorem grows_variableDeclaration (p : Parser) :
    p.reports.Grows p.variableDeclaration.2.reports :=
  framed_grows.variableDeclaration p

/-- A print statement adds reports at most. -/
theorem grows_printStatement (p : Parser) : p.reports.Grows p.printStatement.2.reports :=
  framed_grows.printStatement p

/-- An expression statement adds reports at most. -/
theorem grows_expressionStatement (p : Parser) : p.reports.Grows p.expressionStatement.2.reports :=
  p.grows_advance.trans (framed_grows.expressionStatement p)

/-- Dropping the rest of a declaration adds reports at most. -/
theorem grows_skipDeclaration (p : Parser) : p.reports.Grows p.skipDeclaration.reports :=
  framed_grows.skipDeclaration p

/-- Recovery ends a panic. -/
theorem keeps_recover (p : Parser) : p.reports.Keeps p.recover.reports := by
  unfold recover
  split
  · refine Reports.Keeps.trans ⟨⟨[], by simp⟩, fun _ calm => ?_⟩ (grows_skipDeclaration _).toKeeps
    exact absurd calm nofun
  · exact .refl _

/-- Where nothing was reported, there is nothing to recover from. -/
theorem recover_of_none (h : p.reports = .none) : p.recover = p := by
  rw [recover, h, if_neg]
  nofun

/-- An honest parser that has no diagnostic after a recovery had nothing to recover
from. -/
theorem reports_eq_none_of_recover (honest : p.reports.Honest)
    (empty : p.recover.reports.diagnostics = #[]) : p.reports = .none :=
  honest.eq_none (p.keeps_recover.diagnostics_eq empty)

/-- A declaration withdraws no report, though its recovery ends the panic. -/
theorem keeps_declaration (p : Parser) : p.reports.Keeps p.declaration.2.reports := by
  obtain ⟨q, read, eq⟩ := framed_grows.declaration p
  rw [eq]
  exact (p.grows_advance.trans read).toKeeps.trans (keeps_recover q)

/-- Declarations withdraw no report. -/
theorem keeps_declarations (p : Parser) : p.reports.Keeps p.declarations.2.reports := by
  fun_induction declarations p with
  | case1 => exact .refl _
  | case2 p _ first _ ih => exact p.keeps_declaration.trans ih

/-! ## Tokens and constants -/

/-- Reading the tokens `read` and noting the constants `noted` leads from `p` to `q`. -/
structure Moves (p : Parser) (read : List Token) (noted : List Literal) (q : Parser) : Prop where
  unread : p.unread = read ++ q.unread
  previous : q.previous = read.getLastD p.previous
  lastLine : q.lastLine = p.lastLine
  constants : q.constants.toList = p.constants.toList ++ noted

namespace Moves

/-- Where nothing is read, the parser has not moved. -/
theorem refl (p : Parser) : p.Moves [] [] p :=
  ⟨rfl, rfl, rfl, by simp⟩

/-- What moves twice moves over the tokens of both. -/
theorem trans {read₁ read₂ : List Token} {noted₁ noted₂ : List Literal}
    (h₁ : p.Moves read₁ noted₁ q) (h₂ : q.Moves read₂ noted₂ r) :
    p.Moves (read₁ ++ read₂) (noted₁ ++ noted₂) r where
  unread := by rw [h₁.unread, h₂.unread, List.append_assoc]
  previous := by
    rw [h₂.previous, h₁.previous]
    simp only [List.getLastD_eq_getLast?, List.getLast?_append]
    cases read₂.getLast? <;> rfl
  lastLine := h₂.lastLine.trans h₁.lastLine
  constants := by rw [h₂.constants, h₁.constants, List.append_assoc]

/-- There are as many constants more as were noted. -/
theorem size_constants {read : List Token} {noted : List Literal} (h : p.Moves read noted q) :
    q.constants.size = p.constants.size + noted.length := by
  have := congrArg List.length h.constants
  simpa using this

/-- Noting a constant moves over no token. -/
theorem note (p : Parser) (value : Literal) : p.Moves [] [value] (p.note value) := by
  unfold Parser.note
  dsimp only
  split <;> exact ⟨rfl, rfl, rfl, by simp [report]⟩

/-- A report moves over no token. -/
theorem report (p : Parser) (t : Token) (fault : SyntaxFault) : p.Moves [] [] (p.report t fault) :=
  ⟨rfl, rfl, rfl, by simp [Parser.report]⟩

end Moves

/-- The tokens that the parser has in front of it, with the end of the source. -/
def ahead (p : Parser) : List Token :=
  p.unread ++ [.atEnd p.lastLine]

/-- The token in view is the first of those ahead. -/
theorem exists_ahead_eq_cons (p : Parser) : ∃ rest, p.ahead = p.current :: rest := by
  unfold ahead current
  cases p.unread with
  | nil => exact ⟨[], rfl⟩
  | cons t rest => exact ⟨_, rfl⟩

/-- What is read was ahead. -/
theorem Moves.ahead {read : List Token} {noted : List Literal} (moves : p.Moves read noted q) :
    p.ahead = read ++ q.ahead := by
  rw [Parser.ahead, Parser.ahead, moves.unread, moves.lastLine, List.append_assoc]

/-- No fault stands among the unread tokens. -/
def Plain (p : Parser) : Prop :=
  ∀ t ∈ p.unread, t.isFault = false

/-- Where no fault was ahead, none is later. -/
theorem Moves.plain {read : List Token} {noted : List Literal} (h : p.Moves read noted q)
    (plain : p.Plain) : q.Plain := by
  intro t ht
  refine plain t ?_
  rw [h.unread]
  exact List.mem_append_right _ ht

/-- The first unread token is in view. -/
theorem current_of_unread (h : p.unread = t :: rest) : p.current = t := by
  simp [current, h]

/-- Where the end is in view and is no token, nothing is unread. -/
theorem unread_of_finish (last : p.current.kind = .finish)
    (inside : ∀ t ∈ p.unread, t.kind ≠ .finish) : p.unread = [] := by
  cases eq : p.unread with
  | nil => rfl
  | cons t rest =>
    rw [current_of_unread eq] at last
    exact absurd last (inside t (by rw [eq]; exact List.mem_cons_self ..))

/-- Faults are skipped only where there are some. -/
theorem skipFaults_of_plain (reports : Reports) (plain : ∀ t ∈ tokens.head?, t.isFault = false) :
    skipFaults tokens reports = (tokens, reports) := by
  cases tokens with
  | nil => rfl
  | cons t rest =>
    have := plain t rfl
    rw [skipFaults]
    split
    · simp_all [Token.isFault]
    · rfl

/-- Reading a token where no fault follows. -/
theorem advance_of_plain (h : p.unread = t :: rest) (plain : p.Plain) :
    p.advance = { p with previous := t, unread := rest } := by
  have head : ∀ u ∈ rest.head?, u.isFault = false := by
    intro u hu
    refine plain u ?_
    rw [h]
    exact List.mem_cons_of_mem _ (List.mem_of_mem_head? hu)
  simp [advance, h, current_of_unread h, skipFaults_of_plain p.reports head]

/-- Where no fault follows, one token less is unread. -/
theorem unread_advance (h : p.unread = t :: rest) (plain : p.Plain) : p.advance.unread = rest := by
  rw [advance_of_plain h plain]

/-- Reading a token moves over it. -/
theorem Moves.advance (h : p.unread = t :: rest) (plain : p.Plain) : p.Moves [t] [] p.advance := by
  rw [advance_of_plain h plain]
  exact ⟨h, rfl, rfl, by simp⟩

/-! ## Where an expression ends -/

/-- An expression at precedence `k` ends in front of a token of this kind. -/
structure Ends (k : Precedence) (kind : Token.Kind) : Prop where
  looser : ∀ op, BinaryOp.ofKind? kind = some op → op.precedence.rank < k.rank
  unassigned : k = .assignment → kind ≠ .equal

/-- A semicolon ends every expression. -/
theorem ends_semicolon (k : Precedence) : Ends k .semicolon :=
  ⟨nofun, nofun⟩

/-- A closing parenthesis ends every expression. -/
theorem ends_rightParen (k : Precedence) : Ends k .rightParen :=
  ⟨nofun, nofun⟩

/-- Every token ends an operand. -/
theorem ends_unary (kind : Token.Kind) : Ends .unary kind :=
  ⟨fun op _ => op.rank_precedence_lt, nofun⟩

/-- In front of the end of an expression there are no further operators. -/
theorem infixes_of_ends {k : Precedence} (inner : Nested) (e : Expr)
    (ends : Ends k p.current.kind) : infixes inner k e p = (e, p) := by
  rw [infixes]
  split
  · rfl
  · rename_i op seen
    rw [if_neg (Nat.not_le.2 (ends.looser op seen))]

/-! ## Loops, one round at a time -/

section Rounds

variable {inner : Nested} {k : Precedence} {left : Expr}

/-- Without an operator in view the loop ends. -/
theorem infixes_of_none (seen : BinaryOp.ofKind? p.current.kind = none) :
    infixes inner k left p = (left, p) := by
  rw [infixes]
  split
  · rfl
  · simp_all

/-- With an operator in view the loop goes on, if it binds tightly enough. -/
theorem infixes_of_some {op : BinaryOp} (seen : BinaryOp.ofKind? p.current.kind = some op) :
    infixes inner k left p =
      if k.rank ≤ op.precedence.rank then
        infixes inner k (.binary op left (inner.read op.precedence.next p.advance).1)
          (inner.read op.precedence.next p.advance).2
      else (left, p) := by
  rw [infixes]
  split
  · simp_all
  · rename_i op' eq
    obtain rfl : op = op' := by simpa [seen] using eq
    rfl

/-- At the end of the source nothing is dropped. -/
theorem skipDeclaration_of_finish (last : p.current.kind = .finish) : p.skipDeclaration = p := by
  rw [skipDeclaration, dif_pos last]

/-- Behind a semicolon nothing is dropped. -/
theorem skipDeclaration_of_semicolon (ended : p.previous.kind = .semicolon) :
    p.skipDeclaration = p := by
  rw [skipDeclaration, if_pos ended]
  split <;> rfl

/-- In front of a word that starts a statement nothing is dropped. -/
theorem skipDeclaration_of_starts (starts : startsStatement p.current.kind = true) :
    p.skipDeclaration = p := by
  rw [skipDeclaration, if_pos starts]
  split
  · rfl
  · split <;> rfl

/-- Inside of a declaration a token is dropped, and then the rest. -/
theorem skipDeclaration_of_inside (more : p.current.kind ≠ .finish)
    (going : p.previous.kind ≠ .semicolon) (inside : ¬ startsStatement p.current.kind = true) :
    p.skipDeclaration = p.advance.skipDeclaration := by
  rw [skipDeclaration, dif_neg more, if_neg going, if_neg inside]

/-- At the end of the source there are no more declarations. -/
theorem declarations_of_finish (last : p.current.kind = .finish) : p.declarations = ([], p) := by
  rw [declarations, dif_pos last]

/-- Before it there is one, and then the others. -/
theorem declarations_of_more (more : p.current.kind ≠ .finish) :
    p.declarations =
      (p.declaration.1 :: p.declaration.2.declarations.1, p.declaration.2.declarations.2) := by
  rw [declarations, dif_neg more]

end Rounds

end Parser
end StackScript
