/-
# What the grammar derives is read

A parser in front of tokens that the grammar derives reads exactly these tokens and
answers their tree. It notes the constants of the tree, and reports nothing as long as
the constants are few enough and the integers in range.

The parser has no rule for each precedence. It reads an operand and then, in one loop,
all operators that bind tightly enough; a chain that the grammar derives from the left
is built up by the loop. So the induction is not about whole expressions. `Climbs` says
of some tokens that the loop, started on the first operand at any precedence `k` that
is loose enough, comes to the point where `e` is its left operand and the tokens are
read. What follows may then be an operator that takes `e` as its left operand. Only
`Climbs.read` asks that the expression ends.

What is read does not depend on the limits, which only decide about reports; nor does it
depend on the bound on nesting, as long as that is high enough.
-/
import StackScript.Proofs.Parser.Motion

namespace StackScript
namespace Parser

variable {p q r : Parser} {t : Token} {rest tokens : List Token} {kind : Token.Kind}

/-- Reading tokens in a way that is reported only for too many constants or an integer
out of range. -/
structure Reads (p : Parser) (read : List Token) (noted : List Literal) (q : Parser) : Prop
    extends Moves p read noted q where
  silent : p.constants.size + noted.length ≤ Chunk.maxConstants → (∀ t ∈ read, t.InRange) →
    q.reports = p.reports

namespace Reads

/-- What is read in two parts is read. -/
theorem trans {read₁ read₂ : List Token} {noted₁ noted₂ : List Literal}
    (h₁ : p.Reads read₁ noted₁ q) (h₂ : q.Reads read₂ noted₂ r) :
    p.Reads (read₁ ++ read₂) (noted₁ ++ noted₂) r where
  toMoves := h₁.toMoves.trans h₂.toMoves
  silent := by
    intro few range
    have size := h₁.size_constants
    rw [List.length_append] at few
    rw [h₂.silent (by omega) fun t ht => range t (List.mem_append_right _ ht),
      h₁.silent (by omega) fun t ht => range t (List.mem_append_left _ ht)]

/-- A token is read where no fault follows. -/
theorem advance (h : p.unread = t :: rest) (plain : p.Plain) : p.Reads [t] [] p.advance :=
  ⟨.advance h plain, fun _ _ => by rw [advance_of_plain h plain]⟩

/-- A constant is noted where there is room. -/
theorem note (p : Parser) (value : Literal) : p.Reads [] [value] (p.note value) := by
  refine ⟨.note p value, fun few _ => ?_⟩
  rw [List.length_singleton] at few
  simp [Parser.note, show p.constants.size < Chunk.maxConstants by omega]

end Reads

/-- The kind of the token in view, where only the head of the unread tokens is known. -/
theorem current_kind_of_head {P : Token.Kind → Prop} (unread : p.unread = rest)
    (head : ∀ t ∈ rest.head?, P t.kind) (finish : P .finish) : P p.current.kind := by
  subst unread
  unfold current
  cases eq : p.unread with
  | nil => exact finish
  | cons t _ =>
    rw [eq] at head
    exact head t rfl

/-- The parser sees the kind of the first unread token. -/
theorem sees_of_unread (h : p.unread = t :: rest) (eq : t.kind = kind) : p.sees kind = true := by
  simp [sees, current_of_unread h, eq]

/-- The parser does not see a kind that the first unread token is not of. -/
theorem sees_eq_false (unread : p.unread = rest) (head : ∀ t ∈ rest.head?, t.kind ≠ kind)
    (finish : kind ≠ .finish) : p.sees kind = false := by
  have : p.current.kind ≠ kind := current_kind_of_head (P := (· ≠ kind)) unread head finish.symm
  simp [sees, this]

/-- A token that is asked for is read where it stands. -/
theorem expect_of_unread (h : p.unread = t :: rest) (eq : t.kind = kind) (fault : SyntaxFault) :
    p.expect kind fault = p.advance := by
  rw [expect, if_pos (sees_of_unread h eq)]

/-! ## Operands and operators -/

/-- Read at precedence `k` from `p` on, the expression `e` is complete up to the
operators that may follow it when the parser has come to `q`. -/
def Reaches (n : Nat) (k : Precedence) (p : Parser) (e : Expr) (q : Parser) : Prop :=
  ∃ first start, operand? (nested n) k p.current p.advance = (some first, start) ∧
    infixes (nested n) k first start = infixes (nested n) k e q

/-- An expression that ends where the parser has come to is read. -/
theorem Reaches.read {n : Nat} {k : Precedence} {e : Expr} (h : Reaches n k p e q)
    (ends : Ends k q.current.kind) : (nested (n + 1)).read k p = (e, q) := by
  obtain ⟨first, start, operand, loop⟩ := h
  show expression (nested n) k p = (e, q)
  rw [expression, operand]
  dsimp only
  rw [loop, infixes_of_ends _ _ ends, if_neg]
  simpa [sees] using ends.unassigned

/-- Tokens that the parser takes in as the expression `e` at every precedence up to
`j`, wherever no tighter operator and no stray assignment follows. -/
def Climbs (j : Precedence) (tokens : List Token) (e : Expr) : Prop :=
  ∀ (n : Nat) (k : Precedence) (p : Parser) (rest : List Token),
    k.rank ≤ j.rank → e.nesting ≤ n + 1 → p.unread = tokens ++ rest → p.Plain →
      (∀ t ∈ rest.head?, ∀ op, BinaryOp.ofKind? t.kind = some op →
        op.precedence.rank ≤ j.rank) →
      (∀ t ∈ rest.head?, k = .assignment → t.kind ≠ .equal) →
        ∃ q, Reaches n k p e q ∧ q.unread = rest ∧ p.Reads tokens e.constants q

/-- An expression that can be climbed is read, up to where it ends. -/
theorem Climbs.read {k : Precedence} {e : Expr} (h : Climbs k tokens e) {n : Nat}
    (deep : e.nesting ≤ n) (unread : p.unread = tokens ++ rest)
    (plain : p.Plain) (ends : ∀ t ∈ rest.head?, Ends k t.kind) :
    ∃ q, (nested n).read k p = (e, q) ∧ q.unread = rest ∧ p.Reads tokens e.constants q := by
  obtain ⟨m, rfl⟩ := Nat.exists_eq_add_one.2 (Nat.lt_of_lt_of_le e.nesting_pos deep)
  obtain ⟨q, reaches, left, reads⟩ := h m k p rest (Nat.le_refl _) deep unread plain
    (fun t ht op eq => Nat.le_of_lt ((ends t ht).looser op eq))
    (fun t ht => (ends t ht).unassigned)
  exact ⟨q, reaches.read (current_kind_of_head left ends ⟨nofun, nofun⟩), left, reads⟩

/-- A token by itself can be climbed. -/
theorem climbs_primary {e : Expr} (h : Expr.Primary t e) : Climbs .unary [t] e := by
  intro n k p rest _ _ unread plain _ unassigned
  rw [List.singleton_append] at unread
  have current := current_of_unread unread
  have first := Reads.advance unread plain
  have left := unread_advance unread plain
  cases h with
  | number kind =>
    refine ⟨(number t p.advance).2, ⟨_, _, ?_, rfl⟩, ?_, ?_⟩
    · rw [current]
      simp only [operand?, kind, number, Expr.ofNumber]
      cases Literal.ofNumber? t.text <;> rfl
    · unfold number
      split <;> simp [left]
    · have range := Literal.ofNumber?_isSome_iff t.text
      unfold number Expr.ofNumber
      cases eq : Literal.ofNumber? t.text with
      | some value => exact first.trans (.note p.advance value)
      | none =>
        refine ⟨first.toMoves.trans (.report ..), fun _ inRange => ?_⟩
        have := range.2 (inRange t (List.mem_singleton_self t) kind)
        simp [eq] at this
  | string kind =>
    refine ⟨p.advance.note (.ofQuoted t.text), ⟨_, _, ?_, rfl⟩, by rw [unread_note, left],
      first.trans (.note ..)⟩
    rw [current]
    simp only [operand?, kind]
  | name kind =>
    refine ⟨p.advance.note (.text t.text), ⟨_, _, ?_, rfl⟩, by rw [unread_note, left],
      first.trans (.note ..)⟩
    have plainName : ¬(k = .assignment && (p.advance.note (.text t.text)).sees .equal) := by
      intro both
      rw [Bool.and_eq_true, decide_eq_true_eq] at both
      have : (p.advance.note (.text t.text)).sees .equal = false :=
        sees_eq_false (by rw [unread_note, left]) (fun u hu => unassigned u hu both.1) nofun
      rw [this] at both
      exact absurd both.2 nofun
    rw [current]
    simp only [operand?, kind, name, if_neg plainName]
  | nil kind | true kind | false kind =>
    refine ⟨p.advance, ⟨_, _, ?_, rfl⟩, left, first⟩
    rw [current]
    simp only [operand?, kind]

/-- A group can be climbed if what is inside can. -/
theorem climbs_group {left right : Token} {e : Expr} (hl : left.kind = .leftParen)
    (h : Climbs .assignment tokens e) (hr : right.kind = .rightParen) :
    Climbs .unary (left :: tokens ++ [right]) (.group e right.line) := by
  intro n k p rest _ deep unread plain _ _
  rw [Expr.nesting] at deep
  have unread : p.unread = left :: (tokens ++ right :: rest) := by simpa using unread
  have opened := Reads.advance unread plain
  obtain ⟨q, read, left₂, inside⟩ := h.read (n := n) (by omega) (unread_advance unread plain)
    (opened.plain plain) (by
      intro t ht
      obtain rfl : right = t := by simpa using ht
      rw [hr]
      exact ends_rightParen _)
  have plain₂ := inside.plain (opened.plain plain)
  have closed := Reads.advance left₂ plain₂
  have read : operand? (nested n) k p.current p.advance =
      (some (.group e right.line), q.advance) := by
    rw [current_of_unread unread]
    simp only [operand?, hl, read, expect_of_unread left₂ hr, previous_advance,
      current_of_unread left₂]
  refine ⟨q.advance, ⟨_, _, read, rfl⟩, unread_advance left₂ plain₂, ?_⟩
  simpa [Expr.constants] using (opened.trans inside).trans closed

/-- An operator with one operand can be climbed if its operand can. -/
theorem climbs_unary {op : UnaryOp} {e : Expr} (kind : UnaryOp.ofKind? t.kind = some op)
    (h : Climbs .unary tokens e) : Climbs .unary (t :: tokens) (.unary op e) := by
  intro n k p rest _ deep unread plain _ _
  rw [Expr.nesting] at deep
  have first := Reads.advance unread plain
  obtain ⟨q, read, left, operand⟩ := h.read (n := n) (by omega) (unread_advance unread plain)
    (first.plain plain) fun u _ => ends_unary u.kind
  have read : operand? (nested n) k p.current p.advance = (some (.unary op e), q) := by
    rw [current_of_unread unread]
    cases eq : t.kind <;> rw [eq] at kind <;> cases kind <;> simp only [operand?, eq, read]
  refine ⟨q, ⟨_, _, read, rfl⟩, left, ?_⟩
  simpa [Expr.constants] using first.trans operand

/-- The loop takes an operator and its right operand. -/
theorem infixes_of_read {n : Nat} {k : Precedence} {op : BinaryOp} {l r : Expr}
    (unread : p.unread = t :: rest) (kind : BinaryOp.ofKind? t.kind = some op)
    (le : k.rank ≤ op.precedence.rank)
    (read : (nested n).read op.precedence.next p.advance = (r, q)) :
    infixes (nested n) k l p = infixes (nested n) k (.binary op l r) q := by
  rw [infixes, current_of_unread unread]
  split
  · simp_all
  · rename_i op' seen
    obtain rfl : op = op' := by simpa [kind] using seen
    rw [if_pos le, read]

/-- An operator with two operands can be climbed if both can, the right one a step tighter. -/
theorem climbs_binary {op : BinaryOp} {left right : List Token} {l r : Expr}
    (kind : BinaryOp.ofKind? t.kind = some op) (hl : Climbs op.precedence left l)
    (hr : Climbs op.precedence.next right r) :
    Climbs op.precedence (left ++ t :: right) (.binary op l r) := by
  intro n k p rest le deep unread plain looser _
  rw [Expr.nesting] at deep
  have unread : p.unread = left ++ (t :: (right ++ rest)) := by simpa using unread
  obtain ⟨q, ⟨first, start, operand, loop⟩, left₁, reads₁⟩ := hl n k p _ le (by omega) unread
    plain (by
      intro u hu op' eq
      obtain rfl : t = u := by simpa using hu
      obtain rfl : op = op' := by simpa [kind] using eq
      exact Nat.le_refl _) (by
      rintro u hu - eq
      obtain rfl : t = u := by simpa using hu
      simp [eq, BinaryOp.ofKind?] at kind)
  have plain₁ := reads₁.plain plain
  have sign := Reads.advance left₁ plain₁
  have next := Precedence.rank_next op.precedence_ne_unary
  obtain ⟨s, read, left₂, reads₂⟩ := hr.read (n := n) (by omega) (unread_advance left₁ plain₁)
    (sign.plain plain₁) (by
      refine fun u hu => ⟨fun op' eq => ?_, fun eq => ?_⟩
      · have := looser u hu op' eq
        omega
      · rw [eq] at next
        exact absurd next (Nat.succ_ne_zero _).symm)
  have step := infixes_of_read (l := l) left₁ kind le read
  refine ⟨s, ⟨first, start, operand, loop.trans step⟩, left₂, ?_⟩
  simpa [Expr.constants] using (reads₁.trans sign).trans reads₂

/-- An assignment can be climbed if its value can. -/
theorem climbs_assign {name sign : Token} {e : Expr} (hn : name.kind = .identifier)
    (hs : sign.kind = .equal) (h : Climbs .assignment tokens e) :
    Climbs .assignment (name :: sign :: tokens) (.assign name.text name.line e) := by
  intro n k p rest le deep unread plain looser unassigned
  rw [Expr.nesting] at deep
  obtain rfl : k = .assignment := Precedence.rank_injective (Nat.le_zero.1 le)
  have first := Reads.advance unread plain
  have noted := first.trans (.note p.advance (.text name.text))
  have plain₁ := noted.plain plain
  have left₁ : (p.advance.note (.text name.text)).unread = sign :: (tokens ++ rest) := by
    rw [unread_note, unread_advance unread plain]
    rfl
  have assigned := Reads.advance left₁ plain₁
  obtain ⟨q, read, left₂, value⟩ := h.read (n := n) (by omega) (unread_advance left₁ plain₁)
    (assigned.plain plain₁) (by
      refine fun u hu => ⟨fun op eq => ?_, unassigned u hu⟩
      have := looser u hu op eq
      have := op.rank_precedence_pos
      simp only [Precedence.rank] at *
      omega)
  have read : operand? (nested n) .assignment p.current p.advance =
      (some (.assign name.text name.line e), q) := by
    rw [current_of_unread unread]
    simp only [operand?, hn, Parser.name, sees_of_unread left₁ hs, read]
    rfl
  refine ⟨q, ⟨_, _, read, rfl⟩, left₂, ?_⟩
  simpa [Expr.constants] using (noted.trans assigned).trans value

/-- What binds tighter can be climbed where something looser is asked for. -/
theorem climbs_tighter {k : Precedence} {e : Expr} (h : Climbs k.next tokens e) :
    Climbs k tokens e := by
  have le : k.rank ≤ k.next.rank := by cases k <;> decide
  intro n k' p rest le' deep unread plain looser unassigned
  exact h n k' p rest (Nat.le_trans le' le) deep unread plain
    (fun t ht op eq => Nat.le_trans (looser t ht op eq) le) unassigned

/-- **The parser climbs every derivation.** -/
theorem climbs_of_derives {j : Precedence} {e : Expr} (h : e.Derives j tokens) :
    Climbs j tokens e := by
  induction h with
  | primary h => exact climbs_primary h
  | group hl _ hr ih => exact climbs_group hl ih hr
  | unary kind _ ih => exact climbs_unary kind ih
  | binary kind precedence _ _ ihl ihr =>
    subst precedence
    exact climbs_binary kind ihl ihr
  | assign hn hs _ ih => exact climbs_assign hn hs ih
  | tighter _ ih => exact climbs_tighter ih

/-- **What the grammar derives is read,** if it nests no deeper than `n`. -/
theorem read_of_derives {k : Precedence} {e : Expr} (h : e.Derives k tokens) {n : Nat}
    (deep : e.nesting ≤ n) (unread : p.unread = tokens ++ rest) (plain : p.Plain)
    (ends : ∀ t ∈ rest.head?, Ends k t.kind) :
    ∃ q, (nested n).read k p = (e, q) ∧ q.unread = rest ∧ p.Reads tokens e.constants q :=
  (climbs_of_derives h).read deep unread plain ends

/-! ## Declarations -/

/-- An expression and its semicolon are read. -/
theorem read_statement {semicolon : Token} {e : Expr} (h : e.Derives .assignment tokens)
    (kind : semicolon.kind = .semicolon) (deep : e.nesting ≤ maxNesting)
    (unread : p.unread = tokens ++ semicolon :: rest) (plain : p.Plain) (fault : SyntaxFault) :
    ∃ q, p.wholeExpression = (e, q) ∧ (q.expect .semicolon fault).previous = semicolon ∧
      (q.expect .semicolon fault).unread = rest ∧
      p.Reads (tokens ++ [semicolon]) e.constants (q.expect .semicolon fault) := by
  obtain ⟨q, read, left, value⟩ := read_of_derives h deep unread plain (by
    intro t ht
    obtain rfl : semicolon = t := by simpa using ht
    rw [kind]
    exact ends_semicolon _)
  have plain := value.plain plain
  refine ⟨q, read, ?_, ?_, ?_⟩ <;> rw [expect_of_unread left kind]
  · rw [previous_advance, current_of_unread left]
  · exact unread_advance left plain
  · simpa using value.trans (.advance left plain)

/-- After its first word, a variable declaration without a value is read. -/
theorem read_define {name semicolon : Token} (hn : name.kind = .identifier)
    (hs : semicolon.kind = .semicolon) (unread : p.unread = name :: semicolon :: rest)
    (plain : p.Plain) :
    ∃ q, p.variableDeclaration = (.define name.text name.line none semicolon.line, q) ∧
      q.unread = rest ∧ p.Reads [name, semicolon] [.text name.text] q := by
  have named := (Reads.advance unread plain).trans (.note p.advance (.text name.text))
  have plain₁ := named.plain plain
  have left : (p.advance.note (.text name.text)).unread = semicolon :: rest := by
    rw [unread_note, unread_advance unread plain]
  have bare : (p.advance.note (.text name.text)).sees .equal = false := by
    simp [sees, current_of_unread left, hs]
  refine ⟨(p.advance.note (.text name.text)).advance, ?_, unread_advance left plain₁,
    by simpa using named.trans (.advance left plain₁)⟩
  rw [variableDeclaration]
  simp only [expect_of_unread unread hn, previous_advance, current_of_unread unread, bare,
    expect_of_unread left hs, current_of_unread left]
  rfl

/-- After its first word, a variable declaration with a value is read. -/
theorem read_initialise {name sign semicolon : Token} {e : Expr}
    (hn : name.kind = .identifier) (he : sign.kind = .equal) (h : e.Derives .assignment tokens)
    (hs : semicolon.kind = .semicolon) (deep : e.nesting ≤ maxNesting)
    (unread : p.unread = name :: sign :: (tokens ++ semicolon :: rest)) (plain : p.Plain) :
    ∃ q, p.variableDeclaration = (.define name.text name.line (some e) semicolon.line, q) ∧
      q.unread = rest ∧
      p.Reads (name :: sign :: tokens ++ [semicolon]) (.text name.text :: e.constants) q := by
  have named := (Reads.advance unread plain).trans (.note p.advance (.text name.text))
  have plain₁ := named.plain plain
  have left : (p.advance.note (.text name.text)).unread =
      sign :: (tokens ++ semicolon :: rest) := by
    rw [unread_note, unread_advance unread plain]
  have assigned := named.trans (.advance left plain₁)
  obtain ⟨q, read, previous, left₂, value⟩ := read_statement h hs deep
    (unread_advance left plain₁) (assigned.plain plain) .expectSemicolonAfterDeclaration
  refine ⟨q.expect .semicolon .expectSemicolonAfterDeclaration, ?_, left₂,
    by simpa using assigned.trans value⟩
  rw [variableDeclaration]
  simp only [expect_of_unread unread hn, previous_advance, current_of_unread unread,
    sees_of_unread left he, read, previous]
  rfl

/-- A derived declaration is read, up to the recovery. -/
theorem read_declaration {d : Declaration} (h : d.Derives tokens) (deep : d.nesting ≤ maxNesting)
    (unread : p.unread = tokens ++ rest) (plain : p.Plain) :
    ∃ q, p.declaration = (d, q.recover) ∧ q.unread = rest ∧ p.Reads tokens d.constants q := by
  cases h with
  | @define word name semicolon hw hn hs =>
    have first := Reads.advance unread plain
    obtain ⟨q, read, left, rest⟩ :=
      read_define hn hs (unread_advance unread plain) (first.plain plain)
    refine ⟨q, ?_, left, first.trans rest⟩
    simp only [declaration, current_of_unread unread, hw, read]
  | @initialise word name sign semicolon tokens e hw hn he h hs =>
    have unread : p.unread = word :: name :: sign :: (tokens ++ semicolon :: rest) := by
      simpa using unread
    have first := Reads.advance unread plain
    obtain ⟨q, read, left, rest⟩ :=
      read_initialise hn he h hs deep (unread_advance unread plain) (first.plain plain)
    refine ⟨q, ?_, left, first.trans rest⟩
    simp only [declaration, current_of_unread unread, hw, read]
  | @print word semicolon tokens e hw h hs =>
    have unread : p.unread = word :: (tokens ++ semicolon :: rest) := by simpa using unread
    have first := Reads.advance unread plain
    obtain ⟨q, read, previous, left, rest⟩ := read_statement h hs deep
      (unread_advance unread plain) (first.plain plain) .expectSemicolonAfterValue
    refine ⟨q.expect .semicolon .expectSemicolonAfterValue, ?_, left, first.trans rest⟩
    simp only [declaration, current_of_unread unread, hw, printStatement, read, previous]
  | @expression semicolon tokens e h hs =>
    obtain ⟨t, others, rfl, starts⟩ := h.exists_head
    have unread : p.unread = t :: others ++ semicolon :: rest := by simpa using unread
    obtain ⟨q, read, previous, left, reads⟩ := read_statement h hs deep unread plain
      .expectSemicolonAfterExpression
    refine ⟨q.expect .semicolon .expectSemicolonAfterExpression, ?_, left, reads⟩
    have current : p.current = t := current_of_unread (by simpa using unread)
    simp only [declaration, current]
    split
    · simp_all [Token.startsExpression]
    · simp_all [Token.startsExpression]
    · simp only [expressionStatement, read, previous]

/-- **A derived declaration is read** and nothing is reported, if its constants are few
enough and its integers in range. -/
theorem declaration_of_derives {d : Declaration} (h : d.Derives tokens)
    (deep : d.nesting ≤ maxNesting) (unread : p.unread = tokens ++ rest) (plain : p.Plain)
    (quiet : p.reports = .none) (few : p.constants.size + d.constants.length ≤ Chunk.maxConstants)
    (range : ∀ t ∈ tokens, t.InRange) :
    ∃ q, p.declaration = (d, q) ∧ q.unread = rest ∧ p.Reads tokens d.constants q := by
  obtain ⟨q, read, left, reads⟩ := read_declaration h deep unread plain
  -- Nothing is reported, so there is nothing to recover from.
  have calm : q.recover = q := recover_of_none ((reads.silent few range).trans quiet)
  exact ⟨q, by rw [read, calm], left, reads⟩

/-- **Derived declarations are read to the end** and nothing is reported, if their
constants are few enough and their integers in range. -/
theorem declarations_of_derives {ds : List Declaration}
    (h : Declaration.DerivesAll tokens ds) (deep : ∀ d ∈ ds, d.nesting ≤ maxNesting)
    (unread : p.unread = tokens) (plain : p.Plain) (quiet : p.reports = .none)
    (few : p.constants.size + (ds.flatMap Declaration.constants).length ≤ Chunk.maxConstants)
    (range : ∀ t ∈ tokens, t.InRange) :
    ∃ q, p.declarations = (ds, q) ∧ q.reports = .none ∧
      p.Moves tokens (ds.flatMap Declaration.constants) q := by
  induction h generalizing p with
  | nil =>
    refine ⟨p, ?_, quiet, by simpa [unread] using Moves.refl p⟩
    rw [declarations, dif_pos]
    simp [current, unread, Token.atEnd]
  | @cons first others d ds hd _ ih =>
    rw [List.flatMap_cons, List.length_append] at few
    have rangeFirst : ∀ t ∈ first, t.InRange := fun t ht => range t (List.mem_append_left _ ht)
    obtain ⟨q, read, left, reads⟩ := declaration_of_derives hd (deep d (List.mem_cons_self ..))
      unread plain quiet (by omega) rangeFirst
    have size := reads.size_constants
    obtain ⟨r, readAll, quietAll, moves⟩ := ih (fun d hd => deep d (List.mem_cons_of_mem _ hd))
      left (reads.plain plain) ((reads.silent (by omega) rangeFirst).trans quiet) (by omega)
      fun t ht => range t (List.mem_append_right _ ht)
    refine ⟨r, ?_, quietAll, reads.toMoves.trans moves⟩
    obtain ⟨t, rest, rfl, more⟩ := hd.exists_head
    rw [declarations, dif_neg, read]
    · simp only [readAll]
    · have first : p.unread = t :: (rest ++ others) := by simpa using unread
      rw [current_of_unread first]
      exact more

end Parser
end StackScript
