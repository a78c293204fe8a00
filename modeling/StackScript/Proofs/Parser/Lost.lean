/-
# A parser that has lost its declaration

A parser that panics may read past the semicolon of its declaration, as an operand that it is not.
What it then takes for the rest of an expression is the beginning of the next declaration:

```text
x = 1 + ;
-y * (z - 1);
```

Let what follows be declarations that are well formed (`Ready`). They give the parser no occasion
to go further astray. It takes a token in an operand's place only behind one that asks for an
operand (`Token.opens`), and behind such a token there is no semicolon, nor a word that starts a
statement. So it comes to stand in front of a declaration or inside of one (`Lost`), and stays
within it, whatever it reads, until it recovers (`Lost.recover`).
-/
import StackScript.Proofs.Parser.Completeness
import StackScript.Proofs.Parser.Load

namespace StackScript

/-! ## The rest of a declaration -/

/-- Whether an operand must follow a token. -/
def Token.opens (t : Token) : Bool :=
  (UnaryOp.ofKind? t.kind).isSome || (BinaryOp.ofKind? t.kind).isSome || t.kind = .leftParen ||
    t.kind = .equal

/-- Whether a token stands neither at the end of a declaration nor where a statement starts. -/
def Token.isInner (t : Token) : Bool :=
  match t.kind with
  | .semicolon | .finish | .fault _ => false
  | kind => !Parser.startsStatement kind

/-- Declarations in which there is nothing to report. -/
def Ready (tokens : List Token) : Prop :=
  ∃ ds, Declaration.DerivesAll tokens ds ∧ (∀ d ∈ ds, d.nesting ≤ Parser.maxNesting) ∧
    ∀ t ∈ tokens, t.InRange

/-- What may follow a token: the rest of a declaration, and then declarations that are ready. -/
inductive Remains : Token → List Token → Prop where
  | last {t semicolon : Token} {after : List Token} : t.opens = false →
      semicolon.kind = .semicolon → Ready after → Remains t (semicolon :: after)
  | more {t next : Token} {rest : List Token} : next.isInner = true → Remains next rest →
      Remains t (next :: rest)

/-- A token inside of a declaration is no semicolon. -/
theorem Token.ne_semicolon_of_isInner {t : Token} (inner : t.isInner = true) :
    t.kind ≠ .semicolon := by
  intro kind
  simp [isInner, kind] at inner

/-- A token that must be followed by an operand is no semicolon. -/
theorem Token.ne_semicolon_of_opens {t : Token} (opens : t.opens = true) :
    t.kind ≠ .semicolon := by
  intro kind
  simp [Token.opens, UnaryOp.ofKind?, BinaryOp.ofKind?, kind] at opens

/-- A token inside of a declaration is no fault. -/
theorem Token.isFault_of_isInner {t : Token} (inner : t.isInner = true) : t.isFault = false := by
  cases kind : t.kind <;> simp_all [isInner, isFault]

/-- **An expression keeps its end:** what may follow behind a token that asks for no operand may
follow behind the expression. -/
theorem Expr.Derives.remains {k : Precedence} {tokens rest : List Token} {e : Expr}
    (h : e.Derives k tokens) (closed : ∀ t : Token, t.opens = false → Remains t rest) (t : Token) :
    Remains t (tokens ++ rest) := by
  induction h generalizing rest t with
  | @primary first e h =>
    have both : first.isInner = true ∧ first.opens = false := by
      cases h with
      | number kind | string kind | name kind | nil kind | true kind | false kind =>
        simp [Token.isInner, Token.opens, kind, UnaryOp.ofKind?, BinaryOp.ofKind?,
          Parser.startsStatement]
    exact .more both.1 (closed first both.2)
  | @group left right tokens e hl _ hr ih =>
    have inner : right.isInner = true := by simp [Token.isInner, hr, Parser.startsStatement]
    have shut : right.opens = false := by
      simp [Token.opens, hr, UnaryOp.ofKind?, BinaryOp.ofKind?]
    rw [List.append_assoc]
    refine .more (by simp [Token.isInner, hl, Parser.startsStatement]) ?_
    exact ih (fun u _ => .more inner (closed right shut)) left
  | @unary sign op tokens e kind _ ih =>
    have inner : sign.isInner = true := by
      cases eq : sign.kind <;> simp_all [Token.isInner, UnaryOp.ofKind?, Parser.startsStatement]
    exact .more inner (ih closed sign)
  | @binary k sign op left right l r kind _ _ _ ihl ihr =>
    have inner : sign.isInner = true := by
      cases eq : sign.kind <;> simp_all [Token.isInner, BinaryOp.ofKind?, Parser.startsStatement]
    rw [List.append_assoc]
    exact ihl (fun u _ => .more inner (ihr closed sign)) t
  | @assign name sign tokens e hn hs _ ih =>
    have inner : sign.isInner = true := by simp [Token.isInner, hs, Parser.startsStatement]
    refine .more (by simp [Token.isInner, hn, Parser.startsStatement]) ?_
    exact .more inner (ih closed sign)
  | tighter _ ih => exact ih closed t

namespace Ready

variable {tokens : List Token}

/-- Where nothing follows, there is nothing to report. -/
theorem nil : Ready [] :=
  ⟨[], .nil, nofun, nofun⟩

/-- No fault stands in declarations that are ready. -/
theorem isFault (ready : Ready tokens) : ∀ t ∈ tokens, t.isFault = false := by
  obtain ⟨ds, derives, -, -⟩ := ready
  exact derives.not_isFault

/-- The first declaration, and the others. -/
theorem cases_first (ready : Ready tokens) :
    tokens = [] ∨ ∃ d first others, tokens = first ++ others ∧ Declaration.Derives first d ∧
      d.nesting ≤ Parser.maxNesting ∧ (∀ t ∈ first, t.InRange) ∧ Ready others := by
  obtain ⟨ds, derives, deep, range⟩ := ready
  cases derives with
  | nil => exact .inl rfl
  | @cons first others d ds hd rest =>
    refine .inr ⟨d, first, others, rfl, hd, deep d (List.mem_cons_self ..), ?_, ds, rest, ?_, ?_⟩
    · exact fun t mem => range t (List.mem_append_left _ mem)
    · exact fun e mem => deep e (List.mem_cons_of_mem _ mem)
    · exact fun t mem => range t (List.mem_append_right _ mem)

/-- No declaration starts with a semicolon, a closing parenthesis or an equals sign. -/
theorem first_ne (ready : Ready tokens) :
    ∀ t ∈ tokens.head?, t.kind ≠ .semicolon ∧ t.kind ≠ .rightParen ∧ t.kind ≠ .equal := by
  intro t head
  rcases ready.cases_first with rfl | ⟨d, first, others, rfl, derives, -, -, -⟩
  · cases head
  · cases derives with
    | define word | initialise word | print word =>
      obtain rfl := Option.some.inj head
      simp [word]
    | expression value =>
      obtain ⟨u, rest, rfl, starts⟩ := value.exists_head
      obtain rfl := Option.some.inj head
      refine ⟨?_, ?_, ?_⟩ <;> intro kind <;> simp [Token.startsExpression, kind] at starts

/-- A declaration that starts with an operator is an expression, and its rest follows. -/
theorem remains_of_operator {t : Token} {rest : List Token} {op : BinaryOp}
    (ready : Ready (t :: rest)) (kind : BinaryOp.ofKind? t.kind = some op) : Remains t rest := by
  rcases ready.cases_first with eq | ⟨d, first, others, eq, derives, -, -, ready⟩
  · cases eq
  · cases derives with
    | define word | initialise word | print word =>
      obtain rfl := (List.cons.inj eq).1
      rw [word] at kind
      cases kind
    | @expression semicolon tokens e value ended =>
      have closed (u : Token) (shut : u.opens = false) : Remains u (semicolon :: others) :=
        .last shut ended ready
      have whole := value.remains closed t
      rw [List.append_assoc] at eq
      rw [← List.singleton_append (l := others), ← eq] at whole
      cases whole with
      | last _ semicolon _ =>
        rw [semicolon] at kind
        cases kind
      | more _ remains => exact remains

end Ready

/-- No fault remains of a declaration that is ready. -/
theorem Remains.isFault {t : Token} {tokens : List Token} (remains : Remains t tokens) :
    ∀ u ∈ tokens, u.isFault = false := by
  induction remains with
  | last _ ended ready =>
    intro u mem
    rcases List.mem_cons.1 mem with rfl | mem
    · simp [Token.isFault, ended]
    · exact ready.isFault u mem
  | more inner _ ih =>
    intro u mem
    rcases List.mem_cons.1 mem with rfl | mem
    · exact Token.isFault_of_isInner inner
    · exact ih u mem

/-- Within a declaration there is always a token to read, and no statement starts. -/
theorem Remains.exists_head {t : Token} {tokens : List Token} (remains : Remains t tokens) :
    ∃ u rest, tokens = u :: rest ∧ u.kind ≠ .finish ∧
      Parser.startsStatement u.kind = false := by
  cases remains with
  | last _ ended _ => exact ⟨_, _, rfl, by rw [ended]; nofun, by rw [ended]; rfl⟩
  | more inner _ =>
    refine ⟨_, _, rfl, ?_⟩
    unfold Token.isInner at inner
    split at inner
    · cases inner
    · cases inner
    · cases inner
    · simp_all

namespace Parser

variable {p : Parser} {reports : Reports}

/-! ## Panic -/

/-- The parser with its panic ended. -/
def calm (p : Parser) : Parser :=
  { p with reports := { p.reports with panicking := false } }

/-- Recovery calms a parser that panics and drops the rest, and leaves any other as it is. -/
theorem recover_eq (p : Parser) :
    p.recover = if p.reports.panicking then p.calm.skipDeclaration else p := rfl

/-- A parser that panics reports nothing more. -/
theorem report_of_panicking (panicking : p.reports.panicking = true) (t : Token)
    (fault : SyntaxFault) : p.report t fault = p := by
  rw [report, Reports.add, if_pos panicking]

/-- Behind a semicolon there is nothing to recover from but the panic. -/
theorem recover_of_semicolon (ended : p.previous.kind = .semicolon) :
    p.recover = if p.reports.panicking then p.calm else p := by
  rw [recover_eq, skipDeclaration_of_semicolon (p := p.calm) ended]

/-! ## Places -/

/-- What the parser sees is the kind of the token in view. -/
theorem kind_of_sees {kind : Token.Kind} (seen : p.sees kind = true) : p.current.kind = kind :=
  eq_of_beq seen

/-- In front of a declaration that is ready, or inside of one. -/
inductive Placed (p : Parser) : Prop where
  | first : p.previous.kind = .semicolon → Ready p.unread → Placed p
  | inside : p.previous.kind ≠ .semicolon → Remains p.previous p.unread → Placed p

namespace Placed

/-- Only the token behind and those in front count for that. -/
theorem of_eq {q : Parser} (placed : p.Placed) (previous : q.previous = p.previous)
    (unread : q.unread = p.unread) : q.Placed := by
  cases placed with
  | first ended ready =>
    rw [← previous] at ended
    rw [← unread] at ready
    exact .first ended ready
  | inside going remains =>
    rw [← previous] at going remains
    rw [← unread] at remains
    exact .inside going remains

/-- From inside of a declaration the parser comes to no other place than there, or behind it. -/
theorem advance (placed : p.Placed) (going : p.previous.kind ≠ .semicolon) :
    p.advance.Placed ∧ p.advance.reports = p.reports := by
  obtain ⟨ended, -⟩ | ⟨-, remains⟩ := placed
  · exact absurd ended going
  · have plain : p.Plain := remains.isFault
    generalize unread : p.unread = tokens at remains
    cases remains with
    | last _ ended ready =>
      rw [advance_of_plain unread plain]
      exact ⟨.first ended ready, rfl⟩
    | more inner rest =>
      rw [advance_of_plain unread plain]
      exact ⟨.inside (Token.ne_semicolon_of_isInner inner) rest, rfl⟩

/-- An operator in view is read from either place: in front of a declaration, it is its sign. -/
theorem advance_operator {op : BinaryOp} (placed : p.Placed)
    (seen : BinaryOp.ofKind? p.current.kind = some op) :
    p.advance.Placed ∧ p.advance.reports = p.reports := by
  rcases placed with ⟨-, ready⟩ | ⟨going, remains⟩
  · cases unread : p.unread with
    | nil =>
      rw [current, unread] at seen
      cases seen
    | cons t rest =>
      rw [current_of_unread unread] at seen
      have plain : p.Plain := ready.isFault
      rw [unread] at ready
      have remains := ready.remains_of_operator seen
      rw [advance_of_plain unread plain]
      refine ⟨.inside ?_ remains, rfl⟩
      exact Token.ne_semicolon_of_opens (by simp [Token.opens, seen])
  · exact (Placed.inside going remains).advance going

/-- What stands at no beginning of a declaration is in view only from inside. -/
theorem going {kind : Token.Kind} (placed : p.Placed) (seen : p.sees kind = true)
    (later : kind = .semicolon ∨ kind = .rightParen ∨ kind = .equal) :
    p.previous.kind ≠ .semicolon := by
  obtain ⟨-, ready⟩ | ⟨going, -⟩ := placed
  · have current := kind_of_sees seen
    cases unread : p.unread with
    | nil =>
      rw [Parser.current, unread] at current
      rcases later with rfl | rfl | rfl <;> cases current
    | cons t rest =>
      rw [unread] at ready
      rw [current_of_unread unread] at current
      obtain ⟨noSemicolon, noParen, noEqual⟩ := ready.first_ne t rfl
      rcases later with rfl | rfl | rfl <;> contradiction
  · exact going

/-- From everywhere inside, tokens are dropped up to the end of the declaration. -/
theorem skipDeclaration (placed : p.Placed) :
    Ready p.skipDeclaration.unread ∧ p.skipDeclaration.reports = p.reports := by
  fun_induction Parser.skipDeclaration p with
  | case1 p last =>
    obtain ⟨-, ready⟩ | ⟨-, remains⟩ := placed
    · exact ⟨ready, rfl⟩
    · obtain ⟨u, rest, unread, more, -⟩ := remains.exists_head
      rw [current_of_unread unread] at last
      exact absurd last more
  | case2 p _ ended =>
    obtain ⟨-, ready⟩ | ⟨going, -⟩ := placed
    · exact ⟨ready, rfl⟩
    · exact absurd ended going
  | case3 p _ going starts =>
    obtain ⟨ended, -⟩ | ⟨-, remains⟩ := placed
    · exact absurd ended going
    · obtain ⟨u, rest, unread, -, inside⟩ := remains.exists_head
      rw [current_of_unread unread, inside] at starts
      cases starts
  | case4 p _ going _ ih =>
    obtain ⟨placed, same⟩ := placed.advance going
    obtain ⟨ready, reports⟩ := ih placed
    exact ⟨ready, reports.trans same⟩

end Placed

/-! ## Expressions -/

/-- In panic with these reports, in front of a declaration that is ready or inside of one. -/
structure Lost (reports : Reports) (p : Parser) : Prop where
  panicking : reports.panicking = true
  reports_eq : p.reports = reports
  placed : p.Placed

/-- Reading with `inner` behind a token that asks for an operand leads nowhere else. -/
def Nested.Dwells (inner : Nested) : Prop :=
  ∀ (reports : Reports) (k : Precedence) (p : Parser), p.Lost reports → p.previous.opens = true →
    (inner.read k p).2.Lost reports

namespace Lost

variable {inner : Nested}

/-- A lost parser reports nothing. -/
theorem report (lost : p.Lost reports) (t : Token) (fault : SyntaxFault) :
    (p.report t fault).Lost reports := by
  rw [report_of_panicking (lost.reports_eq ▸ lost.panicking)]
  exact lost

/-- A lost parser stays lost when it notes a constant. -/
theorem note (lost : p.Lost reports) (value : Literal) : (p.note value).Lost reports := by
  have noted : { p with constants := p.constants.push value }.Lost reports :=
    ⟨lost.panicking, lost.reports_eq, lost.placed.of_eq rfl rfl⟩
  unfold Parser.note
  dsimp only
  split
  · exact noted
  · exact noted.report ..

/-- A lost parser stays lost when it reads a token, unless a semicolon is behind it. -/
theorem advance (lost : p.Lost reports) (going : p.previous.kind ≠ .semicolon) :
    p.advance.Lost reports := by
  obtain ⟨placed, same⟩ := lost.placed.advance going
  exact ⟨lost.panicking, same.trans lost.reports_eq, placed⟩

/-- A lost parser stays lost when it reads an operator. -/
theorem advance_operator {op : BinaryOp} (lost : p.Lost reports)
    (seen : BinaryOp.ofKind? p.current.kind = some op) : p.advance.Lost reports := by
  obtain ⟨placed, same⟩ := lost.placed.advance_operator seen
  exact ⟨lost.panicking, same.trans lost.reports_eq, placed⟩

/-- An `=` in view is read from inside. -/
theorem advance_equal (lost : p.Lost reports) (seen : p.sees .equal = true) :
    p.advance.Lost reports :=
  lost.advance (lost.placed.going seen (.inr (.inr rfl)))

/-- Whether or not the token is in view. -/
theorem expect {kind : Token.Kind} (lost : p.Lost reports)
    (later : kind = .semicolon ∨ kind = .rightParen) (fault : SyntaxFault) :
    (p.expect kind fault).Lost reports := by
  unfold Parser.expect
  split
  · rename_i seen
    exact lost.advance (lost.placed.going seen (later.imp_right .inl))
  · exact lost.report ..

/-- A lost parser stays lost while it reads operators. -/
theorem infixes (dwells : inner.Dwells) (lost : p.Lost reports) (k : Precedence) (left : Expr) :
    (infixes inner k left p).2.Lost reports := by
  fun_induction Parser.infixes inner k left p with
  | case1 => exact lost
  | case2 left p op seen _ right ih =>
    have opens : p.advance.previous.opens = true := by
      simp [previous_advance, Token.opens, seen]
    exact ih (dwells reports _ _ (lost.advance_operator seen) opens)
  | case3 => exact lost

/-- The value of an assignment is read behind the `=`, which asks for an operand. -/
theorem name {k : Precedence} {t : Token} (dwells : inner.Dwells) (lost : p.Lost reports) :
    (name inner k t p).2.Lost reports := by
  have noted := lost.note (.text t.text)
  unfold Parser.name
  dsimp only
  split
  · rename_i assigned
    have seen := (Bool.and_eq_true_iff.1 assigned).2
    have opens : (p.note (.text t.text)).advance.previous.opens = true := by
      simp [previous_advance, Token.opens, kind_of_sees seen]
    exact dwells reports _ _ (noted.advance_equal seen) opens
  · exact noted

/-- A lost parser stays lost behind a number. -/
theorem number (lost : p.Lost reports) (t : Token) : (number t p).2.Lost reports := by
  unfold Parser.number
  split
  · exact lost.note _
  · exact lost.report ..

/-- A lost parser stays lost while it reads an operand. -/
theorem operand? {k : Precedence} (dwells : inner.Dwells) (lost : p.Lost reports) :
    (operand? inner k p.previous p).2.Lost reports := by
  have behind (opens : p.previous.opens = true) (k : Precedence) :
      (inner.read k p).2.Lost reports := dwells reports k p lost opens
  unfold Parser.operand?
  split
  · rename_i kind
    exact (behind (by simp [Token.opens, kind]) _).expect (.inr rfl) _
  · rename_i kind
    exact behind (by simp [Token.opens, UnaryOp.ofKind?, kind]) _
  · rename_i kind
    exact behind (by simp [Token.opens, UnaryOp.ofKind?, kind]) _
  · exact lost.name dwells
  · exact lost.note _
  · exact lost.number _
  · exact lost
  · exact lost
  · exact lost
  · exact lost.report ..

/-- A lost parser stays lost while it reads an expression. -/
theorem expression (dwells : inner.Dwells) (lost : p.Lost reports)
    (opens : p.previous.opens = true) (k : Precedence) :
    (expression inner k p).2.Lost reports := by
  have first : (Parser.operand? inner k p.current p.advance).2.Lost reports :=
    (lost.advance (Token.ne_semicolon_of_opens opens)).operand? dwells
  unfold Parser.expression
  split <;> rename_i q eq <;> rw [eq] at first
  · exact first
  · rename_i left
    have operators := first.infixes dwells k left
    dsimp only
    split
    · rename_i assigned
      exact (operators.advance_equal (Bool.and_eq_true_iff.1 assigned).2).report ..
    · exact operators

end Lost

/-- Nothing else is read at any depth of nesting. -/
theorem dwells_nested (n : Nat) : (nested n).Dwells := by
  induction n with
  | zero => exact fun _ _ _ lost _ => lost.report ..
  | succ n ih => exact fun _ k _ lost opens => lost.expression ih opens k

/-! ## Recovery -/

/-- **A lost parser recovers in front of a declaration,** and has reported nothing. -/
theorem Lost.recover (lost : p.Lost reports) :
    Ready p.recover.unread ∧ p.recover.reports.diagnostics = reports.diagnostics := by
  have calmed : p.calm.Placed := lost.placed.of_eq rfl rfl
  obtain ⟨ready, same⟩ := calmed.skipDeclaration
  rw [recover_eq, if_pos (lost.reports_eq ▸ lost.panicking)]
  refine ⟨ready, ?_⟩
  rw [same, ← lost.reports_eq]
  rfl

end Parser
end StackScript
