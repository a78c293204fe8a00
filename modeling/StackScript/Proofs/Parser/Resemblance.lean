/-
# Lines are carried along

Whatever a parser does, it does by the kinds and lexemes of tokens. Their lines are carried
along: into the tree, where the code will need them, and into diagnostics.

So let `L` be any relation of lines. Two token streams resemble each other if they have the same
kinds and lexemes, on lines that are related by `L`. Then so do the parsers that read them, step by
step, and with them

| what is read | the same | on related lines |
| --- | --- | --- |
| trees | operators, names, values | all lines |
| constants | all | |
| diagnostics | places, faults | all |

The grammar does not look at lines either: tokens that resemble an expression are one, with a tree
that resembles the other (`Expr.Derives.resembles`).

The lexeme of a fault is its message. What stands in the source there is in no diagnostic
(`Diagnostic.resembles_ofToken`) and in no tree, since a parser has a fault neither in view nor
just behind it (`Parser.Resembles.clear`, `Parser.Resembles.settled`).
-/
import Mathlib.Data.List.Forall2
import StackScript.Proofs.Parser.Motion

namespace StackScript

variable {L : Nat → Nat → Prop}

/-! ## Tokens and diagnostics -/

/-- The same kind and lexeme, on lines that are related. -/
structure Token.Resembles (L : Nat → Nat → Prop) (t u : Token) : Prop where
  kind : u.kind = t.kind
  lexeme : u.lexeme = t.lexeme
  line : L t.line u.line

/-- A token that is no fault is its lexeme. -/
theorem Token.Resembles.text {t u : Token} (alike : t.Resembles L u) (clear : t.isFault = false) :
    u.text = t.text := by
  have same := alike.lexeme
  have kind := alike.kind
  unfold Token.lexeme at same
  unfold Token.isFault at clear
  rw [kind] at same
  split at same
  · rename_i fault eq
    rw [eq] at clear
    cases clear
  · exact same

/-- The same fault at the same place, on lines that are related. -/
structure Diagnostic.Resembles (L : Nat → Nat → Prop) (d d' : Diagnostic) : Prop where
  line : L d.line d'.line
  location : d'.location = d.location
  fault : d'.fault = d.fault

/-- A diagnostic says nothing of what stands in the source where no token is. -/
theorem Diagnostic.resembles_ofToken {t u : Token} (alike : t.Resembles L u) (fault : SyntaxFault) :
    (ofToken t fault).Resembles L (ofToken u fault) := by
  refine ⟨alike.line, ?_, rfl⟩
  show Location.ofToken u = Location.ofToken t
  rw [Location.ofToken, Location.ofToken, alike.kind]
  split
  · rfl
  · rfl
  · rename_i noFault
    have clear : t.isFault = false := by
      unfold Token.isFault
      split
      · rename_i fault eq
        exact absurd eq (noFault fault)
      · rfl
    rw [alike.text clear]

/-- As many diagnostics, one resembling the other, and both in panic or neither. -/
structure Reports.Resembles (L : Nat → Nat → Prop) (r s : Reports) : Prop where
  panicking : s.panicking = r.panicking
  diagnostics : List.Forall₂ (Diagnostic.Resembles L) r.diagnostics.toList s.diagnostics.toList

/-- The same report is added to both, or to neither. -/
theorem Reports.Resembles.add {r s : Reports} {t u : Token} (reports : r.Resembles L s)
    (alike : t.Resembles L u) (fault : SyntaxFault) :
    (r.add t fault).Resembles L (s.add u fault) := by
  unfold Reports.add
  rw [reports.panicking]
  split
  · exact reports
  · refine ⟨rfl, ?_⟩
    rw [Array.toList_push, Array.toList_push]
    exact List.rel_append reports.diagnostics
      (.cons (Diagnostic.resembles_ofToken alike fault) .nil)

/-! ## Trees -/

/-- The same expression, on lines that are related. -/
inductive Expr.Resembles (L : Nat → Nat → Prop) : Expr → Expr → Prop where
  | literal (value : Literal) {line line' : Nat} : L line line' →
      Resembles L (.literal value line) (.literal value line')
  | nil {line line' : Nat} : L line line' → Resembles L (.nil line) (.nil line')
  | bool (b : Bool) {line line' : Nat} : L line line' → Resembles L (.bool b line) (.bool b line')
  | global (name : List Char) {line line' : Nat} : L line line' →
      Resembles L (.global name line) (.global name line')
  | assign (name : List Char) {line line' : Nat} {value value' : Expr} : L line line' →
      Resembles L value value' → Resembles L (.assign name line value) (.assign name line' value')
  | group {inner inner' : Expr} {line line' : Nat} : Resembles L inner inner' → L line line' →
      Resembles L (.group inner line) (.group inner' line')
  | unary (op : UnaryOp) {operand operand' : Expr} : Resembles L operand operand' →
      Resembles L (.unary op operand) (.unary op operand')
  | binary (op : BinaryOp) {left left' right right' : Expr} : Resembles L left left' →
      Resembles L right right' → Resembles L (.binary op left right) (.binary op left' right')

/-- The same declaration, on lines that are related. -/
inductive Declaration.Resembles (L : Nat → Nat → Prop) : Declaration → Declaration → Prop where
  | define (name : List Char) {line line' last last' : Nat} : L line line' → L last last' →
      Resembles L (.define name line none last) (.define name line' none last')
  | initialise (name : List Char) {line line' last last' : Nat} {value value' : Expr} :
      L line line' → value.Resembles L value' → L last last' →
      Resembles L (.define name line (some value) last) (.define name line' (some value') last')
  | print {value value' : Expr} {last last' : Nat} : value.Resembles L value' → L last last' →
      Resembles L (.print value last) (.print value' last')
  | expression {value value' : Expr} {last last' : Nat} : value.Resembles L value' →
      L last last' → Resembles L (.expression value last) (.expression value' last')

/-! ## Derivations -/

/-- What is related to a list that was put together can be taken apart in the same way. -/
theorem exists_append_of_forall₂ {α β : Type} {R : α → β → Prop} {first second : List α}
    {whole : List β} (related : List.Forall₂ R (first ++ second) whole) :
    ∃ first' second', whole = first' ++ second' ∧
      List.Forall₂ R first first' ∧ List.Forall₂ R second second' :=
  ⟨_, _, (List.take_append_drop first.length whole).symm,
    (List.forall₂_take_append _ _ _ related.flip).flip,
    (List.forall₂_drop_append _ _ _ related.flip).flip⟩

/-- The tree of a number is made of its text. -/
theorem Expr.resembles_ofNumber {t u : Token} (lines : L t.line u.line) (same : u.text = t.text) :
    (ofNumber t).Resembles L (ofNumber u) := by
  unfold ofNumber
  rw [same]
  split
  · exact .literal _ lines
  · exact .nil lines

/-- A token that resembles an expression is one that resembles its tree. -/
theorem Expr.Primary.resembles {t u : Token} {e : Expr} (h : Primary t e)
    (alike : t.Resembles L u) : ∃ e', Primary u e' ∧ e.Resembles L e' := by
  have same := alike.text h.not_isFault
  cases h with
  | number kind =>
    exact ⟨_, .number (alike.kind.trans kind), resembles_ofNumber alike.line same⟩
  | string kind =>
    refine ⟨_, .string (alike.kind.trans kind), ?_⟩
    rw [same]
    exact .literal _ alike.line
  | name kind =>
    refine ⟨_, .name (alike.kind.trans kind), ?_⟩
    rw [same]
    exact .global _ alike.line
  | nil kind => exact ⟨_, .nil (alike.kind.trans kind), .nil alike.line⟩
  | true kind => exact ⟨_, .true (alike.kind.trans kind), .bool _ alike.line⟩
  | false kind => exact ⟨_, .false (alike.kind.trans kind), .bool _ alike.line⟩

/-- **Tokens that resemble an expression are an expression**, and its tree resembles the other. -/
theorem Expr.Derives.resembles {k : Precedence} {tokens tokens' : List Token} {e : Expr}
    (h : e.Derives k tokens) (alike : List.Forall₂ (Token.Resembles L) tokens tokens') :
    ∃ e' : Expr, e'.Derives k tokens' ∧ e.Resembles L e' := by
  induction h generalizing tokens' with
  | primary h =>
    obtain ⟨u, others, first, rest, rfl⟩ := List.forall₂_cons_left_iff.1 alike
    cases rest
    obtain ⟨e', primary, tree⟩ := h.resembles first
    exact ⟨e', .primary primary, tree⟩
  | group left _ right ih =>
    obtain ⟨u, others, opens, rest, rfl⟩ := List.forall₂_cons_left_iff.1 alike
    obtain ⟨inside, last, rfl, inner, ends⟩ := exists_append_of_forall₂ rest
    obtain ⟨v, nothing, closes, none, rfl⟩ := List.forall₂_cons_left_iff.1 ends
    cases none
    obtain ⟨e', derives, tree⟩ := ih inner
    exact ⟨_, .group (opens.kind.trans left) derives (closes.kind.trans right),
      .group tree closes.line⟩
  | unary kind _ ih =>
    obtain ⟨u, others, sign, rest, rfl⟩ := List.forall₂_cons_left_iff.1 alike
    obtain ⟨e', derives, tree⟩ := ih rest
    exact ⟨_, .unary (by rw [sign.kind, kind]) derives, .unary _ tree⟩
  | binary kind same _ _ ihl ihr =>
    obtain ⟨left, others, rfl, first, rest⟩ := exists_append_of_forall₂ alike
    obtain ⟨u, right, sign, second, rfl⟩ := List.forall₂_cons_left_iff.1 rest
    obtain ⟨l', derivesLeft, treeLeft⟩ := ihl first
    obtain ⟨r', derivesRight, treeRight⟩ := ihr second
    exact ⟨_, .binary (by rw [sign.kind, kind]) same derivesLeft derivesRight,
      .binary _ treeLeft treeRight⟩
  | assign name equal _ ih =>
    obtain ⟨u, others, named, rest, rfl⟩ := List.forall₂_cons_left_iff.1 alike
    obtain ⟨v, others, sign, value, rfl⟩ := List.forall₂_cons_left_iff.1 rest
    obtain ⟨e', derives, tree⟩ := ih value
    refine ⟨_, .assign (named.kind.trans name) (sign.kind.trans equal) derives, ?_⟩
    rw [named.text (by simp [Token.isFault, name])]
    exact .assign _ named.line tree
  | tighter _ ih =>
    obtain ⟨e', derives, tree⟩ := ih alike
    exact ⟨e', .tighter derives, tree⟩

namespace Parser

/-! ## Single tokens -/

/-- Two parsers have come equally far in token streams that resemble each other. -/
structure Resembles (L : Nat → Nat → Prop) (p q : Parser) : Prop where
  previous : p.previous.Resembles L q.previous
  settled : p.previous.isFault = false
  unread : List.Forall₂ (Token.Resembles L) p.unread q.unread
  clear : p.current.isFault = false
  lastLine : L p.lastLine q.lastLine
  reports : p.reports.Resembles L q.reports
  constants : q.constants = p.constants

/-- An expression was read by one parser and the same one by the other. -/
structure BothRead (L : Nat → Nat → Prop) (x y : Expr × Parser) : Prop where
  expr : x.1.Resembles L y.1
  parser : x.2.Resembles L y.2

/-- Expressions that parsers read with `inner` resemble each other if the parsers do. -/
def Nested.Respects (L : Nat → Nat → Prop) (inner : Nested) : Prop :=
  ∀ (k : Precedence) (p q : Parser), p.Resembles L q → BothRead L (inner.read k p) (inner.read k q)

/-- The ends of two sources resemble each other. -/
theorem resembles_atEnd {line line' : Nat} (lines : L line line') :
    (Token.atEnd line).Resembles L (Token.atEnd line') :=
  ⟨rfl, rfl, lines⟩

/-- The same faults are dropped of both, and reported alike. -/
theorem resembles_skipFaults {tokens tokens' : List Token} {reports reports' : Reports}
    (alike : List.Forall₂ (Token.Resembles L) tokens tokens')
    (both : reports.Resembles L reports') :
    List.Forall₂ (Token.Resembles L) (skipFaults tokens reports).1 (skipFaults tokens' reports').1 ∧
      (skipFaults tokens reports).2.Resembles L (skipFaults tokens' reports').2 := by
  induction alike generalizing reports reports' with
  | nil => exact ⟨.nil, both⟩
  | @cons t u rest rest' first others ih =>
    rw [skipFaults, skipFaults, first.kind]
    split
    · exact ih (both.add first _)
    · exact ⟨.cons first others, both⟩

/-- Behind the faults stands no fault. -/
theorem isFault_of_mem_head?_skipFaults (tokens : List Token) (reports : Reports) :
    ∀ t ∈ (skipFaults tokens reports).1.head?, t.isFault = false := by
  fun_induction skipFaults tokens reports with
  | case1 => simp
  | case2 _ _ _ _ _ ih => exact ih
  | case3 reports t rest noFault =>
    rintro _ ⟨⟩
    unfold Token.isFault
    split
    · rename_i fault eq
      exact absurd eq (noFault fault)
    · rfl

/-- Where no fault stands at the beginning, none is in view. -/
theorem isFault_headD {tokens : List Token} {line : Nat}
    (head : ∀ t ∈ tokens.head?, t.isFault = false) :
    (tokens.headD (.atEnd line)).isFault = false := by
  cases tokens with
  | nil => rfl
  | cons t rest => exact head t rfl

namespace Resembles

variable {p q : Parser} (alike : p.Resembles L q)

include alike

/-- The tokens in view resemble each other. -/
theorem current : p.current.Resembles L q.current := by
  have unread := alike.unread
  unfold Parser.current
  generalize p.unread = tokens, q.unread = tokens' at unread
  cases unread with
  | nil => exact resembles_atEnd alike.lastLine
  | cons first _ => exact first

/-- Both parsers see the same kind. -/
theorem sees (kind : Token.Kind) : q.sees kind = p.sees kind := by
  rw [Parser.sees, Parser.sees, alike.current.kind]

/-- Both parsers read a token alike. -/
theorem advance : p.advance.Resembles L q.advance := by
  have tails : List.Forall₂ (Token.Resembles L) p.unread.tail q.unread.tail := by
    have unread := alike.unread
    generalize p.unread = tokens, q.unread = tokens' at unread
    cases unread with
    | nil => exact .nil
    | cons _ others => exact others
  obtain ⟨unread, reports⟩ := resembles_skipFaults tails alike.reports
  exact ⟨alike.current, alike.clear, unread,
    isFault_headD (isFault_of_mem_head?_skipFaults p.unread.tail p.reports), alike.lastLine,
    reports, alike.constants⟩

/-- Both parsers report a fault alike. -/
theorem report {t u : Token} (tokens : t.Resembles L u) (fault : SyntaxFault) :
    (p.report t fault).Resembles L (q.report u fault) :=
  ⟨alike.previous, alike.settled, alike.unread, alike.clear, alike.lastLine,
    alike.reports.add tokens fault, alike.constants⟩

/-- Both parsers read the token that is asked for, or report that it is missing. -/
theorem expect (kind : Token.Kind) (fault : SyntaxFault) :
    (p.expect kind fault).Resembles L (q.expect kind fault) := by
  unfold Parser.expect
  rw [alike.sees]
  split
  · exact alike.advance
  · exact alike.report alike.current fault

/-- Both parsers note the same constant. -/
theorem note (value : Literal) : (p.note value).Resembles L (q.note value) := by
  have noted : { p with constants := p.constants.push value }.Resembles L
      { q with constants := q.constants.push value } :=
    ⟨alike.previous, alike.settled, alike.unread, alike.clear, alike.lastLine, alike.reports,
      by rw [alike.constants]⟩
  unfold Parser.note
  dsimp only
  rw [alike.constants] at noted ⊢
  split
  · exact noted
  · exact noted.report alike.previous _

end Resembles

/-! ## Expressions -/

variable {inner : Nested} {p q : Parser}

/-- Operators resemble each other if their operands do. -/
theorem resembles_infixes (respects : inner.Respects L) (k : Precedence) {left left' : Expr}
    (first : left.Resembles L left') (alike : p.Resembles L q) :
    BothRead L (infixes inner k left p) (infixes inner k left' q) := by
  fun_induction infixes inner k left p generalizing left' q with
  | case1 left p seen =>
    rw [infixes_of_none (p := q) (by rw [alike.current.kind, seen])]
    exact ⟨first, alike⟩
  | case2 left p op seen tight right =>
    rename_i ih
    have both := respects op.precedence.next _ _ alike.advance
    rw [infixes_of_some (p := q) (by rw [alike.current.kind, seen]), if_pos tight]
    exact ih (.binary op first both.expr) both.parser
  | case3 left p op seen loose =>
    rw [infixes_of_some (p := q) (by rw [alike.current.kind, seen]), if_neg loose]
    exact ⟨first, alike⟩

/-- What starts with a name resembles what starts with the other one. -/
theorem resembles_name (respects : inner.Respects L) (k : Precedence) {t u : Token}
    (token : t.Resembles L u) (clear : t.isFault = false) (alike : p.Resembles L q) :
    BothRead L (name inner k t p) (name inner k u q) := by
  have noted := alike.note (.text t.text)
  unfold name
  dsimp only
  rw [token.text clear, noted.sees]
  split
  · have both := respects .assignment _ _ noted.advance
    exact ⟨.assign _ token.line both.expr, both.parser⟩
  · exact ⟨.global _ token.line, noted⟩

/-- Numbers resemble each other. -/
theorem resembles_number {t u : Token} (token : t.Resembles L u) (clear : t.isFault = false)
    (alike : p.Resembles L q) : BothRead L (number t p) (number u q) := by
  unfold number
  rw [token.text clear]
  split
  · exact ⟨.literal _ token.line, alike.note _⟩
  · exact ⟨.nil token.line, alike.report token _⟩

/-- Both parsers have read the beginning of an expression, or neither has. -/
inductive BothBegun (L : Nat → Nat → Prop) :
    Option Expr × Parser → Option Expr × Parser → Prop where
  | none {p q : Parser} : p.Resembles L q → BothBegun L (.none, p) (.none, q)
  | some {e e' : Expr} {p q : Parser} : e.Resembles L e' → p.Resembles L q →
      BothBegun L (.some e, p) (.some e', q)

/-- Operands resemble each other, and both are there or neither. -/
theorem resembles_operand? (respects : inner.Respects L) (k : Precedence) {t u : Token}
    (token : t.Resembles L u) (clear : t.isFault = false) (alike : p.Resembles L q) :
    BothBegun L (operand? inner k t p) (operand? inner k u q) := by
  unfold operand?
  rw [token.kind]
  split
  · have both := respects .assignment _ _ alike
    have closed := both.parser.expect .rightParen .expectClosingParen
    exact .some (.group both.expr closed.previous.line) closed
  · have both := respects .unary _ _ alike
    exact .some (.unary _ both.expr) both.parser
  · have both := respects .unary _ _ alike
    exact .some (.unary _ both.expr) both.parser
  · have both := resembles_name respects k token clear alike
    exact .some both.expr both.parser
  · rw [token.text clear]
    exact .some (.literal _ token.line) (alike.note _)
  · have both := resembles_number token clear alike
    exact .some both.expr both.parser
  · exact .some (.nil token.line) alike
  · exact .some (.bool _ token.line) alike
  · exact .some (.bool _ token.line) alike
  · exact .none (alike.report token _)

/-- Expressions resemble each other if those inside of them do. -/
theorem resembles_expression (respects : inner.Respects L) (k : Precedence)
    (alike : p.Resembles L q) : BothRead L (expression inner k p) (expression inner k q) := by
  have begun := resembles_operand? respects k alike.current alike.clear alike.advance
  unfold expression
  generalize operand? inner k p.current p.advance = x, operand? inner k q.current q.advance = y
    at begun
  cases begun with
  | none after => exact ⟨.nil alike.current.line, after⟩
  | some first after =>
    have both := resembles_infixes respects k first after
    dsimp only
    rw [both.parser.sees]
    split
    · have passed := both.parser.advance
      exact ⟨both.expr, passed.report passed.previous _⟩
    · exact both

/-- **Expressions resemble each other** if their tokens do, however deep they nest. -/
theorem respects_nested (n : Nat) : (nested n).Respects L := by
  induction n with
  | zero => exact fun _ _ _ alike => ⟨.nil alike.current.line, alike.report alike.current _⟩
  | succ n ih => exact fun k _ _ alike => resembles_expression ih k alike

/-! ## Declarations -/

namespace Resembles

variable (alike : p.Resembles L q)

include alike

/-- Whole expressions resemble each other. -/
theorem wholeExpression : BothRead L p.wholeExpression q.wholeExpression :=
  respects_nested maxNesting .assignment p q alike

/-- Both parsers drop as many tokens. -/
theorem skipDeclaration : p.skipDeclaration.Resembles L q.skipDeclaration := by
  fun_induction Parser.skipDeclaration p generalizing q with
  | case1 p last =>
    rw [skipDeclaration_of_finish (by rw [alike.current.kind, last])]
    exact alike
  | case2 p more ended =>
    rw [skipDeclaration_of_semicolon (by rw [alike.previous.kind, ended])]
    exact alike
  | case3 p more going starts =>
    rw [skipDeclaration_of_starts (by rw [alike.current.kind, starts])]
    exact alike
  | case4 p more going inside ih =>
    rw [skipDeclaration_of_inside (p := q) (by rwa [alike.current.kind])
      (by rwa [alike.previous.kind]) (by rwa [alike.current.kind])]
    exact ih alike.advance

/-- Both parsers recover, or neither does. -/
theorem recover : p.recover.Resembles L q.recover := by
  unfold Parser.recover
  rw [alike.reports.panicking]
  split
  · exact skipDeclaration ⟨alike.previous, alike.settled, alike.unread, alike.clear,
      alike.lastLine, ⟨rfl, alike.reports.diagnostics⟩, alike.constants⟩
  · exact alike

end Resembles

/-- A declaration was read by one parser and the same one by the other. -/
structure BothDeclared (L : Nat → Nat → Prop) (x y : Declaration × Parser) : Prop where
  declaration : x.1.Resembles L y.1
  parser : x.2.Resembles L y.2

namespace Resembles

variable (alike : p.Resembles L q)

include alike

/-- Variable declarations resemble each other. -/
theorem variableDeclaration : BothDeclared L p.variableDeclaration q.variableDeclaration := by
  have named := alike.expect .identifier .expectVariableName
  have noted := named.note (.text (p.expect .identifier .expectVariableName).previous.text)
  unfold Parser.variableDeclaration
  dsimp only
  rw [named.previous.text named.settled, noted.sees]
  split
  · have both := noted.advance.wholeExpression
    have closed := both.parser.expect .semicolon .expectSemicolonAfterDeclaration
    exact ⟨.initialise _ named.previous.line both.expr closed.previous.line, closed⟩
  · have closed := noted.expect .semicolon .expectSemicolonAfterDeclaration
    exact ⟨.define _ named.previous.line closed.previous.line, closed⟩

/-- Print statements resemble each other. -/
theorem printStatement : BothDeclared L p.printStatement q.printStatement := by
  have both := alike.wholeExpression
  have closed := both.parser.expect .semicolon .expectSemicolonAfterValue
  exact ⟨.print both.expr closed.previous.line, closed⟩

/-- Expression statements resemble each other. -/
theorem expressionStatement : BothDeclared L p.expressionStatement q.expressionStatement := by
  have both := alike.wholeExpression
  have closed := both.parser.expect .semicolon .expectSemicolonAfterExpression
  exact ⟨.expression both.expr closed.previous.line, closed⟩

/-- Both parsers read a declaration of the same form. -/
theorem declaration : BothDeclared L p.declaration q.declaration := by
  unfold Parser.declaration
  rw [alike.current.kind]
  dsimp only
  split
  · have both := alike.advance.variableDeclaration
    exact ⟨both.declaration, both.parser.recover⟩
  · have both := alike.advance.printStatement
    exact ⟨both.declaration, both.parser.recover⟩
  · have both := alike.expressionStatement
    exact ⟨both.declaration, both.parser.recover⟩

/-- **Declarations resemble each other** if their tokens do. -/
theorem declarations :
    List.Forall₂ (Declaration.Resembles L) p.declarations.1 q.declarations.1 ∧
      p.declarations.2.Resembles L q.declarations.2 := by
  fun_induction Parser.declarations p generalizing q with
  | case1 p last =>
    rw [declarations_of_finish (by rw [alike.current.kind, last])]
    exact ⟨.nil, alike⟩
  | case2 p more first others =>
    rename_i ih
    have both := alike.declaration
    obtain ⟨rest, after⟩ := ih both.parser
    rw [declarations_of_more (by rwa [alike.current.kind])]
    exact ⟨.cons both.declaration rest, after⟩

end Resembles

/-- Parsers in front of token streams that resemble each other. -/
theorem resembles_ofStream {stream stream' : TokenStream}
    (tokens : List.Forall₂ (Token.Resembles L) stream.tokens stream'.tokens)
    (lastLine : L stream.lastLine stream'.lastLine) :
    (ofStream stream).Resembles L (ofStream stream') := by
  have nothing : Reports.none.Resembles L .none := ⟨rfl, .nil⟩
  obtain ⟨unread, reports⟩ := resembles_skipFaults tokens nothing
  exact ⟨resembles_atEnd lastLine, rfl, unread,
    isFault_headD (isFault_of_mem_head?_skipFaults stream.tokens .none), lastLine, reports, rfl⟩

end Parser
end StackScript
