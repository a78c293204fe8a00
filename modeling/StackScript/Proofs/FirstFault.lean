/-
# The first fault stands at the first token that does not fit

While nothing has been reported, the tokens that the parser has read fit one after another, and
what the grammar expects next (`Expectation`) is known from where the parser stands:

| the parser | expects |
| --- | --- |
| reads an expression | an operand |
| has read one | an operator, or what ends the expression; `=` only if it is not in view |
| is in front of a declaration | a declaration |

So the first report, if a limit is not its cause, is made at a token that does not fit there. It
makes no difference that some faults are found with the token still in view and others only
behind it: the place of the diagnostic is the token.

`Leads` states both halves at once of any part of the parser, and `Leads.bind` puts parts one
after the other. It remains to look at each function once. That all tokens before the reported one
fit, and it does not, says that they are the beginning of a program, and with it they are not
(`first_fault_at_first_misfit`).
-/
import StackScript.Proofs.Acceptance
import StackScript.Proofs.Grammar.Prefixes

namespace StackScript

/-- Whether a fault is that a limit is exceeded. -/
def SyntaxFault.isLimit : SyntaxFault → Bool
  | tooManyConstants | integerOutOfRange | nestingTooDeep => true
  | _ => false

/-- The place of a diagnostic is the first of some tokens that does not fit. -/
def Expectation.Blames (s : Expectation) (tokens : List Token) (d : Diagnostic) : Prop :=
  ∃ before t rest s', tokens = before ++ t :: rest ∧ s.after before = some s' ∧
    s'.next t.kind = none ∧ d.line = t.line ∧ d.location = .ofToken t

/-- Tokens that fit can be put in front of those that are blamed. -/
theorem Expectation.Blames.prepend {s s' : Expectation} {tokens rest : List Token} {d : Diagnostic}
    (fits : s.after tokens = some s') (blames : s'.Blames rest d) :
    s.Blames (tokens ++ rest) d := by
  obtain ⟨before, t, others, last, rfl, more, misfit, place⟩ := blames
  refine ⟨tokens ++ before, t, others, last, by simp, ?_, misfit, place⟩
  simp [fits, more]

namespace Parser

variable {p q r : Parser} {s s' : Expectation}

/-- Something was reported between `p` and `q`, first of all that a limit is exceeded, or the
first token that does not fit where `s` is expected. -/
def Faulty (s : Expectation) (p q : Parser) : Prop :=
  ∃ d ∈ q.reports.diagnostics.toList.head?, d.fault.isLimit = true ∨ s.Blames p.ahead d

/-- Between `p` and `q` all tokens fit where `s` is expected and something with `P` is expected
next, or the first fault is known. -/
inductive Leads (s : Expectation) (p : Parser) (P : Expectation → Prop) (q : Parser) : Prop where
  | fits {read : List Token} {noted : List Literal} {s' : Expectation} : q.reports = .none →
      p.Moves read noted q → s.after read = some s' → P s' → Leads s p P q
  | faulty : Faulty s p q → Leads s p P q

/-! ## Parts of the parser in turn -/

/-- A first fault is not withdrawn. -/
theorem Faulty.keep (faulty : Faulty s p q) (keeps : q.reports.Keeps r.reports) :
    Faulty s p r := by
  obtain ⟨d, first, cause⟩ := faulty
  obtain ⟨more, kept⟩ := keeps.kept
  refine ⟨d, ?_, cause⟩
  rw [kept, List.head?_append, Option.mem_def.1 first]
  rfl

/-- Tokens that fit can be read before the first fault. -/
theorem Faulty.prepend {read : List Token} {noted : List Literal} (moves : p.Moves read noted q)
    (fits : s.after read = some s') (faulty : Faulty s' q r) : Faulty s p r := by
  obtain ⟨d, first, cause⟩ := faulty
  refine ⟨d, first, cause.imp id fun blames => ?_⟩
  rw [moves.ahead]
  exact blames.prepend fits

/-- What leads to a fault or to an expectation can be followed by what goes on from there. -/
theorem Leads.bind {P Q : Expectation → Prop} (leads : Leads s p P q) (plain : p.Plain)
    (keeps : q.reports.Keeps r.reports)
    (then_ : ∀ s', q.reports = .none → q.Plain → P s' → Leads s' q Q r) : Leads s p Q r := by
  cases leads with
  | faulty faulty => exact .faulty (faulty.keep keeps)
  | fits quiet moves fits holds =>
    cases then_ _ quiet (moves.plain plain) holds with
    | faulty faulty => exact .faulty (faulty.prepend moves fits)
    | fits quiet' moves' fits' holds' =>
      exact .fits quiet' (moves.trans moves') (by simp [fits, fits']) holds'

/-- An expectation may be described more loosely. -/
theorem Leads.mono {P Q : Expectation → Prop} (leads : Leads s p P q) (imp : ∀ s', P s' → Q s') :
    Leads s p Q q := by
  cases leads with
  | faulty faulty => exact .faulty faulty
  | fits quiet moves fits holds => exact .fits quiet moves fits (imp _ holds)

/-- Where nothing is read, the expectation stays. -/
theorem Leads.here {P : Expectation → Prop} (quiet : p.reports = .none) (holds : P s) :
    Leads s p P p :=
  .fits quiet (.refl p) rfl holds

/-- The first report is made. -/
theorem head?_report (quiet : p.reports = .none) (t : Token) (fault : SyntaxFault) :
    (p.report t fault).reports.diagnostics.toList.head? = some (.ofToken t fault) := by
  simp [report, Reports.add, quiet, Reports.none]

/-- A report of an exceeded limit is no misfit. -/
theorem leads_limit {P : Expectation → Prop} (quiet : p.reports = .none) (t : Token)
    {fault : SyntaxFault} (limit : fault.isLimit = true) : Leads s p P (p.report t fault) :=
  .faulty ⟨_, head?_report quiet t fault, .inl limit⟩

/-- A token is reported that does not fit, while it is in view or later. -/
theorem leads_report {P : Expectation → Prop} (quiet : q.reports = .none)
    (misfit : s.next p.current.kind = none) (fault : SyntaxFault) :
    Leads s p P (q.report p.current fault) := by
  obtain ⟨rest, ahead⟩ := p.exists_ahead_eq_cons
  exact .faulty ⟨_, head?_report quiet _ fault, .inr ⟨[], _, rest, s, ahead, rfl, misfit, rfl, rfl⟩⟩

/-- Where no fault follows, reading a token reports nothing. -/
theorem reports_advance (plain : p.Plain) : p.advance.reports = p.reports := by
  cases unread : p.unread with
  | nil => simp [advance, unread, skipFaults]
  | cons t rest => rw [advance_of_plain unread plain]

/-- Only the end of the source is not read for good. -/
theorem Moves.advance_current (plain : p.Plain) (more : p.current.kind ≠ .finish) :
    p.Moves [p.current] [] p.advance := by
  obtain ⟨t, rest, unread⟩ := List.exists_cons_of_length_pos (unread_pos more)
  rw [current_of_unread unread]
  exact .advance unread plain

/-- A token that fits leads to the next expectation. -/
theorem leads_advance (s' : Expectation) (quiet : p.reports = .none) (plain : p.Plain)
    (more : p.current.kind ≠ .finish) (next : s.next p.current.kind = some s') :
    Leads s p (· = s') p.advance :=
  .fits ((reports_advance plain).trans quiet) (.advance_current plain more) (by simp [next]) rfl

/-- Noting a constant leaves the expectation, or exceeds the limit. -/
theorem leads_note (quiet : p.reports = .none) (value : Literal) :
    Leads s p (· = s) (p.note value) := by
  by_cases calm : (p.note value).reports = .none
  · exact .fits calm (.note p value) rfl rfl
  · have noted : { p with constants := p.constants.push value }.reports = .none := quiet
    unfold note at calm ⊢
    dsimp only at calm ⊢
    split
    · rw [if_pos ‹_›] at calm
      exact absurd noted calm
    · obtain ⟨d, first, cause⟩ := show ∃ d ∈ ({ p with
          constants := p.constants.push value }.report p.previous
            .tooManyConstants).reports.diagnostics.toList.head?, d.fault.isLimit = true from
        ⟨_, head?_report noted p.previous .tooManyConstants, rfl⟩
      exact .faulty ⟨d, first, .inl cause⟩

/-- Where a token of one kind is all that fits, it is read, or the token in view is reported. -/
theorem leads_expect (kind : Token.Kind) (quiet : p.reports = .none) (plain : p.Plain)
    (more : kind ≠ .finish) (next : s.next kind = some s')
    (only : p.current.kind ≠ kind → s.next p.current.kind = none) (fault : SyntaxFault) :
    Leads s p (· = s') (p.expect kind fault) := by
  unfold expect
  split
  · rename_i seen
    have eq : p.current.kind = kind := by simpa [sees] using seen
    exact leads_advance _ quiet plain (eq ▸ more) (eq ▸ next)
  · rename_i unseen
    exact leads_report quiet (only (by simpa [sees] using unseen)) fault

/-! ## Expressions -/

/-- An operator is expected next, and `=` only if it is not in view. -/
def Behind (groups : Nat) (q : Parser) (s : Expectation) : Prop :=
  ∃ b, s = .operator b groups ∧ (b = true → q.current.kind ≠ .equal)

/-- Reading with `inner` where an operand is expected leads behind it. -/
def Nested.Tracks (inner : Nested) : Prop :=
  ∀ (k : Precedence) (p : Parser) (groups : Nat), p.reports = .none → p.Plain →
    Leads (.operand (k = .assignment) groups) p (Behind groups (inner.read k p).2)
      (inner.read k p).2

/-- What closes an expression, in a group or outside. -/
def closer (groups : Nat) : Token.Kind :=
  if groups = 0 then .semicolon else .rightParen

/-- Where an expression has ended, nothing fits but what closes it. -/
theorem next_operator_of_ends {b : Bool} (groups : Nat) {kind : Token.Kind}
    (ends : Ends .assignment kind) (other : kind ≠ closer groups) :
    (Expectation.operator b groups).next kind = none := by
  have unassigned := ends.unassigned rfl
  have looser := ends.looser
  unfold closer at other
  cases kind <;> first
    | exact absurd rfl unassigned
    | exact absurd (looser _ rfl) (Nat.not_lt_zero _)
    | by_cases none : groups = 0 <;> simp_all [Expectation.next, Expectation.behindOperand,
        BinaryOp.ofKind?]

section Operands

variable {inner : Nested} {k : Precedence} {groups : Nat}

/-- An operator and its right operand, where one is expected. -/
theorem leads_operator (tracks : inner.Tracks) {op : BinaryOp}
    (seen : BinaryOp.ofKind? p.current.kind = some op) {b : Bool} (quiet : p.reports = .none)
    (plain : p.Plain) (grows : inner.Grows) :
    Leads (.operator b groups) p (Behind groups (inner.read op.precedence.next p.advance).2)
      (inner.read op.precedence.next p.advance).2 := by
  have more : p.current.kind ≠ .finish := by
    intro eq
    rw [eq] at seen
    cases seen
  have tighter : decide (op.precedence.next = .assignment) = false := by cases op <;> rfl
  refine (leads_advance _ quiet plain more
    (Expectation.next_operator_of_op b groups seen)).bind plain
    (grows ..).toKeeps ?_
  rintro _ quiet plain rfl
  have operand := tracks op.precedence.next p.advance groups quiet plain
  rwa [tighter] at operand

/-- Operators and their right operands fit one after the other. -/
theorem leads_infixes (grows : inner.Grows) (tracks : inner.Tracks) (left : Expr) {s₀ : Expectation}
    {p₀ : Parser} (plain : p₀.Plain) (leads : Leads s₀ p₀ (Behind groups p) p) :
    Leads s₀ p₀ (Behind groups (infixes inner k left p).2) (infixes inner k left p).2 := by
  fun_induction infixes inner k left p with
  | case1 => exact leads
  | case2 left p op seen _ right ih =>
    refine ih (leads.bind plain (p.grows_advance.trans (grows ..)).toKeeps ?_)
    rintro _ quiet plain ⟨b, rfl, -⟩
    exact leads_operator tracks seen quiet plain grows
  | case3 => exact leads

/-- An expression fits between parentheses. -/
theorem leads_group (sound : ∃ n, inner.Sound n) (tracks : inner.Tracks)
    (quiet : p.reports = .none) (plain : p.Plain) :
    Leads (.operand true (groups + 1)) p (· = .operator false groups)
      ((inner.read .assignment p).2.expect .rightParen .expectClosingParen) := by
  refine (tracks .assignment p (groups + 1) quiet plain).bind plain (grows_expect ..).toKeeps ?_
  rintro _ quiet plain ⟨b, rfl, -⟩
  obtain ⟨n, sound⟩ := sound
  obtain ⟨ends, -⟩ := sound .assignment p quiet
  exact leads_expect .rightParen quiet plain nofun rfl
    (next_operator_of_ends (groups + 1) ends) _

/-- A name fits where an operand is expected, and so does what is assigned to it. -/
theorem leads_name (grows : inner.Grows) (tracks : inner.Tracks)
    (t : Token) (quiet : p.reports = .none) (plain : p.Plain) :
    Leads (.operator (k = .assignment) groups) p (Behind groups (name inner k t p).2)
      (name inner k t p).2 := by
  unfold name
  dsimp only
  split
  · rename_i assigned
    obtain ⟨rfl, sees⟩ : k = .assignment ∧ _ := by simpa using assigned
    have equal := eq_of_beq sees
    refine (leads_note quiet (.text t.text)).bind plain
      ((grows_advance _).trans (grows ..)).toKeeps ?_
    rintro _ quiet plain rfl
    refine (leads_advance (.operand true groups) quiet plain (equal ▸ nofun)
      (by rw [equal]; rfl)).bind plain (grows ..).toKeeps ?_
    rintro _ quiet plain rfl
    exact tracks .assignment _ groups quiet plain
  · rename_i bare
    refine (leads_note quiet (.text t.text)).mono ?_
    rintro _ rfl
    refine ⟨_, rfl, fun assignable equal => bare ?_⟩
    rw [assignable, Parser.sees, equal]
    rfl

/-- A number leaves the expectation, or is out of range. -/
theorem leads_number (t : Token) (quiet : p.reports = .none) :
    Leads s p (· = s) (number t p).2 := by
  unfold number
  split
  · exact leads_note quiet _
  · exact leads_limit quiet t rfl

/-- What expects an operator and no assignment stands behind an operand. -/
theorem behind_of_eq (s : Expectation) (eq : s = .operator false groups) : Behind groups q s :=
  ⟨false, eq, nofun⟩

/-- A sign and its operand. -/
theorem leads_sign (grows : inner.Grows) (tracks : inner.Tracks) (quiet : p.reports = .none)
    (plain : p.Plain) (sign : p.current.kind = .minus ∨ p.current.kind = .bang) {assignable : Bool}
    {some? : Prop} (holds : some?) :
    Leads (.operand assignable groups) p
      (fun s => some? ∧ Behind groups (inner.read .unary p.advance).2 s)
      (inner.read .unary p.advance).2 := by
  refine (leads_advance (.operand false groups) quiet plain
    (by rcases sign with h | h <;> simp [h])
    (by rcases sign with h | h <;> rw [h] <;> rfl)).bind plain (grows ..).toKeeps ?_
  rintro _ quiet plain rfl
  exact (tracks .unary p.advance groups quiet plain).mono fun _ behind => ⟨holds, behind⟩

/-- A word that is an operand by itself. -/
theorem leads_word (quiet : p.reports = .none) (plain : p.Plain) {assignable : Bool}
    (word : p.current.kind = .keyword .nilWord ∨ p.current.kind = .keyword .trueWord ∨
      p.current.kind = .keyword .falseWord) :
    Leads (.operand assignable groups) p (· = .operator false groups) p.advance := by
  refine leads_advance _ quiet plain ?_ ?_ <;> rcases word with h | h | h <;> rw [h] <;> first
    | rfl
    | nofun

/-- An operand fits, or the token in view is the first that does not. -/
theorem leads_operand? (groups : Nat) (grows : inner.Grows) (sound : ∃ n, inner.Sound n)
    (tracks : inner.Tracks)
    (quiet : p.reports = .none) (plain : p.Plain) :
    Leads (.operand (k = .assignment) groups) p
      (fun s => (operand? inner k p.current p.advance).1.isSome = true ∧
        Behind groups (operand? inner k p.current p.advance).2 s)
      (operand? inner k p.current p.advance).2 := by
  unfold operand?
  split <;> rename_i kind
  · refine (leads_advance (.operand true (groups + 1)) quiet plain (by simp [kind])
      (by rw [kind]; rfl)).bind plain ((grows ..).trans (grows_expect ..)).toKeeps ?_
    rintro _ quiet plain rfl
    exact (leads_group sound tracks quiet plain).mono fun _ eq => ⟨rfl, behind_of_eq _ eq⟩
  · exact leads_sign grows tracks quiet plain (.inl kind) rfl
  · exact leads_sign grows tracks quiet plain (.inr kind) rfl
  · refine (leads_advance (.operator (k = .assignment) groups) quiet plain (by simp [kind])
      (by rw [kind]; rfl)).bind plain (grows_name grows ..).toKeeps ?_
    rintro _ quiet plain rfl
    exact (leads_name grows tracks _ quiet plain).mono fun _ behind => ⟨rfl, behind⟩
  · refine (leads_advance (.operator false groups) quiet plain (by simp [kind])
      (by rw [kind]; rfl)).bind plain (grows_note ..).toKeeps ?_
    rintro _ quiet plain rfl
    exact (leads_note quiet _).mono fun _ eq => ⟨rfl, behind_of_eq _ eq⟩
  · refine (leads_advance (.operator false groups) quiet plain (by simp [kind])
      (by rw [kind]; rfl)).bind plain (grows_number ..).toKeeps ?_
    rintro _ quiet plain rfl
    exact (leads_number _ quiet).mono fun _ eq => ⟨rfl, behind_of_eq _ eq⟩
  · exact (leads_word quiet plain (.inl kind)).mono fun _ eq => ⟨rfl, behind_of_eq _ eq⟩
  · exact (leads_word quiet plain (.inr (.inl kind))).mono fun _ eq => ⟨rfl, behind_of_eq _ eq⟩
  · exact (leads_word quiet plain (.inr (.inr kind))).mono fun _ eq => ⟨rfl, behind_of_eq _ eq⟩
  · refine leads_report ((reports_advance plain).trans quiet) ?_ _
    show Expectation.behindFirst _ _ p.current.kind = none
    unfold Expectation.behindFirst
    split <;> first | rfl | contradiction

/-- An expression fits, or its first misfit is reported. -/
theorem leads_expression (grows : inner.Grows) (sound : ∃ n, inner.Sound n)
    (tracks : inner.Tracks) (quiet : p.reports = .none) (plain : p.Plain) :
    Leads (.operand (k = .assignment) groups) p (Behind groups (expression inner k p).2)
      (expression inner k p).2 := by
  have first := leads_operand? (k := k) groups grows sound tracks quiet plain
  unfold expression
  split <;> rename_i q read <;> rw [read] at first
  · exact first.mono fun _ impossible => absurd impossible.1 nofun
  · rename_i left
    have whole := leads_infixes (k := k) grows tracks left plain
      (first.mono fun _ behind => behind.2)
    dsimp only
    split
    · rename_i assigned
      obtain ⟨-, sees⟩ : k = .assignment ∧ _ := by simpa using assigned
      have equal := eq_of_beq sees
      refine whole.bind plain ((grows_advance _).trans (grows_report ..)).toKeeps ?_
      rintro _ quiet plain ⟨b, rfl, unassigned⟩
      have bare : b = false := by
        cases b with
        | false => rfl
        | true => exact absurd equal (unassigned rfl)
      refine leads_report ((reports_advance plain).trans quiet) ?_ _
      rw [equal, bare]
      rfl
    · exact whole

end Operands

/-- Expressions fit, or their first misfit is reported, however deep they nest. -/
theorem tracks_nested (n : Nat) : (nested n).Tracks := by
  induction n with
  | zero => exact fun k p groups quiet _ => leads_limit quiet _ rfl
  | succ n ih =>
    exact fun k p groups quiet plain =>
      leads_expression (grows_nested n) ⟨n, sound_nested n⟩ ih quiet plain

/-! ## Declarations -/

/-- An expression and its semicolon, where a statement may stand. -/
theorem leads_statement (quiet : p.reports = .none) (plain : p.Plain) (fault : SyntaxFault) :
    Leads (.operand true 0) p (· = .declaration)
      (p.wholeExpression.2.expect .semicolon fault) := by
  refine Leads.bind (tracks_nested maxNesting .assignment p 0 quiet plain) plain
    (grows_expect ..).toKeeps ?_
  rintro _ quiet plain ⟨b, rfl, -⟩
  obtain ⟨ends, -⟩ := sound_nested maxNesting .assignment p quiet
  exact leads_expect .semicolon quiet plain nofun rfl
    (next_operator_of_ends 0 ends) fault

/-- A declaration behind its first word, which is `var`. -/
theorem leads_variableDeclaration (quiet : p.reports = .none) (plain : p.Plain) :
    Leads .varName p (· = .declaration) p.variableDeclaration.2 := by
  have name : p.current.kind ≠ .identifier → Expectation.varName.next p.current.kind = none := by
    intro other
    cases eq : p.current.kind <;> first | rfl | exact absurd eq other
  have named := leads_expect .identifier quiet plain (by decide) rfl name .expectVariableName
  unfold variableDeclaration
  dsimp only
  generalize p.expect .identifier .expectVariableName = q at named
  have noted : Leads .varName p (· = .named) (q.note (.text q.previous.text)) := by
    refine named.bind plain (grows_note ..).toKeeps ?_
    rintro _ quiet plain rfl
    exact leads_note quiet _
  generalize q.note (.text q.previous.text) = q at noted
  split
  · rename_i assigned
    have equal := eq_of_beq assigned
    refine noted.bind plain
      ((grows_advance _).trans ((grows_wholeExpression _).trans (grows_expect ..))).toKeeps ?_
    rintro _ quiet plain rfl
    refine (leads_advance (.operand true 0) quiet plain (by simp [equal])
      (by rw [equal]; rfl)).bind plain
      ((grows_wholeExpression _).trans (grows_expect ..)).toKeeps ?_
    rintro _ quiet plain rfl
    exact leads_statement quiet plain _
  · rename_i bare
    have ended : q.current.kind ≠ .semicolon → Expectation.named.next q.current.kind = none := by
      intro other
      cases eq : q.current.kind <;> first
        | rfl
        | exact absurd eq other
        | exact absurd (by rw [sees, eq]; rfl) bare
    refine noted.bind plain (grows_expect ..).toKeeps ?_
    rintro _ quiet plain rfl
    exact leads_expect .semicolon quiet plain (by decide) rfl ended _

/-- Where nothing was reported there is nothing to recover from. -/
theorem Leads.recover {P : Expectation → Prop} (leads : Leads s p P q) (plain : p.Plain) :
    Leads s p P q.recover := by
  refine leads.bind plain (keeps_recover q) ?_
  intro s' quiet _ holds
  rw [recover_of_none quiet]
  exact .here quiet holds

/-- What is expected only counts for the token in view. -/
theorem Leads.of_next_eq {P : Expectation → Prop} (leads : Leads s p P q) (moves : ¬ P s)
    (same : s.next p.current.kind = s'.next p.current.kind) : Leads s' p P q := by
  obtain ⟨rest, ahead⟩ := p.exists_ahead_eq_cons
  cases leads with
  | @fits read noted s₁ quiet movement fits holds =>
    refine .fits quiet movement ?_ holds
    cases read with
    | nil =>
      cases fits
      exact absurd holds moves
    | cons t tokens =>
      rw [movement.ahead] at ahead
      obtain rfl := (List.cons.inj ahead).1
      rwa [Expectation.after_cons, ← same]
  | faulty faulty =>
    obtain ⟨d, first, cause⟩ := faulty
    refine .faulty ⟨d, first, cause.imp id ?_⟩
    rintro ⟨before, t, others, last, eq, fits, misfit, place⟩
    cases before with
    | nil =>
      cases fits
      obtain rfl : t = p.current := (List.cons.inj (eq.symm.trans ahead)).1
      exact ⟨[], _, others, s', eq, rfl, same ▸ misfit, place⟩
    | cons u tokens =>
      obtain rfl : u = p.current := (List.cons.inj (eq.symm.trans ahead)).1
      exact ⟨_, t, others, last, eq, by rwa [Expectation.after_cons, ← same], misfit, place⟩

/-- A declaration fits, or its first misfit is reported. -/
theorem leads_declaration (quiet : p.reports = .none) (plain : p.Plain)
    (more : p.current.kind ≠ .finish) :
    Leads .declaration p (· = .declaration) p.declaration.2 := by
  unfold declaration
  dsimp only
  refine Leads.recover ?_ plain
  split
  · rename_i kind
    refine (leads_advance .varName quiet plain more (by rw [kind]; rfl)).bind plain
      (grows_variableDeclaration _).toKeeps ?_
    rintro _ quiet plain rfl
    exact leads_variableDeclaration quiet plain
  · rename_i kind
    refine (leads_advance (.operand true 0) quiet plain more (by rw [kind]; rfl)).bind plain
      (grows_printStatement _).toKeeps ?_
    rintro _ quiet plain rfl
    exact leads_statement quiet plain _
  · rename_i noVar noPrint
    refine (leads_statement quiet plain _).of_next_eq nofun ?_
    cases eq : p.current.kind with
    | keyword k => cases k <;> first | rfl | contradiction
    | finish => exact absurd eq more
    | _ => rfl

/-- **Up to the first report all tokens fit,** and the token that it is made at does not. -/
theorem leads_declarations (quiet : p.reports = .none) (plain : p.Plain) :
    Leads .declaration p (· = .declaration) p.declarations.2 := by
  fun_induction declarations p with
  | case1 => exact .here quiet rfl
  | case2 p more first others ih =>
    refine (leads_declaration quiet plain more).bind plain (keeps_declarations _) ?_
    rintro _ quiet plain rfl
    exact ih quiet plain

end Parser

/-! ## Main statement -/

/-- A fault that is no limit has another message. -/
theorem SyntaxFault.isLimit_eq_false {fault : SyntaxFault}
    (other : fault.message ∉ ["Too many constants in one chunk.", "Integer literal out of range.",
      "Expression nesting too deep."]) : fault.isLimit = false := by
  cases fault with
  | integerOutOfRange | tooManyConstants | nestingTooDeep =>
    exact absurd (by simp [message]) other
  | _ => rfl

/-- **The first fault stands at the first token that does not fit.** If all parts of a source are
tokens, and what is reported first is not that a limit is exceeded, then it is reported at a token,
or at the end of the source, such that the tokens before it are the beginning of a program and
together with it they are not. -/
theorem first_fault_at_first_misfit {source : String} {pool : StringPool} {d : Diagnostic}
    {others : List Diagnostic}
    (plain : ∀ t ∈ (TokenStream.scan source.toList).tokens, t.isFault = false)
    (refused : (compile source pool).1 = .error (d :: others))
    (syntactic : d.fault.message ∉ ["Too many constants in one chunk.",
      "Integer literal out of range.", "Expression nesting too deep."]) :
    ∃ before t after, (TokenStream.scan source.toList).tokens ++
        [(TokenStream.scan source.toList).finish] = before ++ t :: after ∧
      d.line = t.line ∧ d.location = .ofToken t ∧
      (∃ more, Program.Complete (before ++ more)) ∧
      ¬ ∃ more, Program.Complete (before ++ [t] ++ more) := by
  have diagnostics := compile_eq_error_iff.1 refused
  have start : Parser.ofStream (.scan source.toList) =
      ⟨(TokenStream.scan source.toList).finish, (TokenStream.scan source.toList).tokens,
        (TokenStream.scan source.toList).lastLine, .none, #[]⟩ := by
    rw [Parser.ofStream, Parser.skipFaults_of_plain]
    exact fun t ht => plain t (List.mem_of_mem_head? ht)
  have reported : (Parser.ofStream (.scan source.toList)).declarations.2.reports.diagnostics.toList
      = d :: others := diagnostics.1
  rcases Parser.leads_declarations (p := Parser.ofStream (.scan source.toList)) (by rw [start])
    (by rw [start]; exact plain) with ⟨quiet, -, -, -⟩ | ⟨first, found, cause⟩
  · rw [quiet] at reported
    cases reported
  · rw [reported] at found
    obtain rfl := Option.some.inj found
    obtain ⟨before, t, after, s, split, fits, misfit, line, location⟩ := cause.resolve_left
      (Bool.eq_false_iff.1 (SyntaxFault.isLimit_eq_false syntactic))
    rw [Parser.ahead, start] at split
    refine ⟨before, t, after, split, line, location, ?_, ?_⟩ <;> rw [Program.exists_complete_iff]
    · rw [fits]
      rfl
    · simp [fits, misfit]

/-- The sum is a long way from the sign that it cannot be assigned with. -/
theorem first_fault_at_first_misfit_target :
    ∃ before t after, (TokenStream.scan "a + b * (c = 1) = 2;".toList).tokens ++
        [(TokenStream.scan "a + b * (c = 1) = 2;".toList).finish] = before ++ t :: after ∧
      1 = t.line ∧ .token ['='] = Location.ofToken t ∧
      (∃ more, Program.Complete (before ++ more)) ∧
      ¬ ∃ more, Program.Complete (before ++ [t] ++ more) := by
  have refused : (compile "a + b * (c = 1) = 2;" .empty).1 =
      .error [⟨1, .token ['='], .invalidAssignmentTarget⟩] := by decide +kernel
  exact first_fault_at_first_misfit (by decide +kernel) refused (by decide +kernel)

end StackScript
