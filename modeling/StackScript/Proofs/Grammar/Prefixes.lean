/-
# The beginnings of programs

Some tokens are the beginning of a program if others can follow them that make a program of them
all. One need not look for those others: of what a program has read so far it only matters what it
goes on with (`Expectation`), and how many groups are open there.

| expectation | what comes next |
| --- | --- |
| `declaration` | the first token of a declaration, or the end of the source |
| `varName`, `named` | behind `var`: the name; behind the name: `=` or `;` |
| `operand` | the first token of an expression |
| `operator` | an operator; `)` in a group and `;` outside; `=` behind a name to assign to |
| `nothing` | nothing, behind the end of the source |

Every token leads from one expectation to the next or does not fit at all (`Expectation.next`), and
the tokens that fit one after another are exactly the beginnings of programs
(`exists_complete_iff`). One half is an induction on derivations. The other half runs backwards:
`Expectation.Meets` says of some tokens that they are the rest of a program, and keeps that when
a token that fits is put in front of them. Its precedence does not count there: an operator with
its right operand extends every expression that it stands behind (`Expr.Derives.extend`).
-/
import StackScript.Proofs.Grammar

namespace StackScript

/-- A whole source: declarations, and the end of the source. -/
def Program.Complete (tokens : List Token) : Prop :=
  ∃ body last ds, tokens = body ++ [last] ∧ last.kind = .finish ∧ Declaration.DerivesAll body ds

/-- What a program goes on with. `assignable` says that a name at this place may be assigned to,
`groups` how many groups are open. -/
inductive Expectation where
  | declaration
  | varName
  | named
  | operand (assignable : Bool) (groups : Nat)
  | operator (assignable : Bool) (groups : Nat)
  | nothing
  deriving DecidableEq, Repr

namespace Expectation

/-- What is expected behind the first token of an expression. -/
def behindFirst (assignable : Bool) (groups : Nat) : Token.Kind → Option Expectation
  | .number | .string => some (operator false groups)
  | .keyword .nilWord | .keyword .trueWord | .keyword .falseWord => some (operator false groups)
  | .identifier => some (operator assignable groups)
  | .leftParen => some (operand true (groups + 1))
  | .minus | .bang => some (operand false groups)
  | _ => none

/-- What is expected behind a token at the end of an operand. -/
def behindOperand (assignable : Bool) (groups : Nat) : Token.Kind → Option Expectation
  | .equal => if assignable then some (operand true groups) else none
  | .rightParen => if groups = 0 then none else some (operator false (groups - 1))
  | .semicolon => if groups = 0 then some declaration else none
  | kind => if (BinaryOp.ofKind? kind).isSome then some (operand false groups) else none

/-- What is expected behind a token, if it fits. -/
def next : Expectation → Token.Kind → Option Expectation
  | declaration, .finish => some nothing
  | declaration, .keyword .varWord => some varName
  | declaration, .keyword .printWord => some (operand true 0)
  | declaration, kind => behindFirst true 0 kind
  | varName, .identifier => some named
  | named, .equal => some (operand true 0)
  | named, .semicolon => some declaration
  | operand assignable groups, kind => behindFirst assignable groups kind
  | operator assignable groups, kind => behindOperand assignable groups kind
  | _, _ => none

/-- What is expected behind some tokens, if they fit one after another. -/
def after (s : Expectation) (tokens : List Token) : Option Expectation :=
  tokens.foldlM (fun s t => s.next t.kind) s

/-- Without tokens the expectation stays. -/
@[simp] theorem after_nil (s : Expectation) : s.after [] = some s := rfl

/-- The first token changes the expectation for the others. -/
@[simp] theorem after_cons (s : Expectation) (t : Token) (tokens : List Token) :
    s.after (t :: tokens) = (s.next t.kind).bind (·.after tokens) :=
  List.foldlM_cons ..

/-- Tokens that follow one another change the expectation in turn. -/
@[simp] theorem after_append (s : Expectation) (tokens more : List Token) :
    s.after (tokens ++ more) = (s.after tokens).bind (·.after more) :=
  List.foldlM_append ..

/-- Behind an operator an operand is expected. -/
theorem next_operator_of_op {op : BinaryOp} {kind : Token.Kind} (assignable : Bool) (groups : Nat)
    (seen : BinaryOp.ofKind? kind = some op) :
    (operator assignable groups).next kind = some (operand false groups) := by
  cases kind <;> cases seen <;> rfl

/-- What starts an expression starts a statement. -/
theorem next_declaration_of_first {kind : Token.Kind} {s : Expectation}
    (first : behindFirst true 0 kind = some s) : declaration.next kind = some s := by
  cases kind with
  | keyword k => cases k <;> first | exact first | cases first
  | finish => cases first
  | _ => exact first

end Expectation

/-! ## What is derived fits -/

open Expectation in
/-- An expression fits where an operand is expected, and an operator is expected behind it. -/
theorem Expr.Derives.after {k : Precedence} {tokens : List Token} {e : Expr}
    (h : e.Derives k tokens) (assignable : Bool) (may : k = .assignment → assignable = Bool.true)
    (groups : Nat) :
    ∃ b, (operand assignable groups).after tokens = some (operator b groups) ∧
      (assignable = Bool.false → b = Bool.false) := by
  induction h generalizing assignable groups with
  | @primary t e h =>
    cases h with
    | name kind => exact ⟨assignable, by simp [next, behindFirst, kind], id⟩
    | number kind | string kind | nil kind | true kind | false kind =>
      exact ⟨Bool.false, by simp [next, behindFirst, kind], fun _ => rfl⟩
  | @group left right tokens e hl _ hr ih =>
    obtain ⟨b, inner, -⟩ := ih _ (fun _ => rfl) (groups + 1)
    refine ⟨Bool.false, ?_, fun _ => rfl⟩
    simp [next, behindFirst, hl, inner, behindOperand, hr]
  | @unary t op tokens e kind _ ih =>
    obtain ⟨b, inner, shut⟩ := ih Bool.false nofun groups
    refine ⟨b, ?_, fun _ => shut rfl⟩
    have sign : behindFirst assignable groups t.kind = some (operand Bool.false groups) := by
      cases eq : t.kind <;> rw [eq] at kind <;> cases kind <;> rfl
    simp [next, sign, inner]
  | @binary k t op left right l r kind precedence _ _ ihl ihr =>
    obtain ⟨b, first, -⟩ := ihl assignable may groups
    have tighter : k.next ≠ .assignment := by
      rw [← precedence]
      cases op <;> decide
    obtain ⟨c, second, shut⟩ := ihr Bool.false (fun h => absurd h tighter) groups
    refine ⟨c, ?_, fun _ => shut rfl⟩
    simp [first, next_operator_of_op b groups kind, second]
  | @assign name sign tokens e hn hs _ ih =>
    obtain rfl := may rfl
    obtain ⟨b, value, -⟩ := ih _ (fun _ => rfl) groups
    refine ⟨b, ?_, nofun⟩
    simp [next, behindFirst, behindOperand, hn, hs, value]
  | @tighter k tokens e _ ih =>
    refine ih assignable (fun eq => may ?_) groups
    cases k <;> cases eq

namespace Declaration

open Expectation

/-- A declaration fits where one is expected, and another one may follow it. -/
theorem Derives.after {tokens : List Token} {d : Declaration} (h : Derives tokens d) :
    Expectation.declaration.after tokens = some .declaration := by
  cases h with
  | define hw hn hs => simp [next, hw, hn, hs]
  | initialise hw hn hsign value hs =>
    obtain ⟨b, fits, -⟩ := value.after _ (fun _ => rfl) 0
    simp [next, hw, hn, hsign, fits, behindOperand, hs]
  | print hw value hs =>
    obtain ⟨b, fits, -⟩ := value.after _ (fun _ => rfl) 0
    simp [next, hw, fits, behindOperand, hs]
  | @expression semicolon tokens e value hs =>
    obtain ⟨b, fits, -⟩ := value.after _ (fun _ => rfl) 0
    obtain ⟨t, rest, rfl, -⟩ := value.exists_head
    rw [after_cons] at fits
    obtain ⟨s, first, rest⟩ := Option.bind_eq_some_iff.1 fits
    have start := next_declaration_of_first first
    have ended : (operator b 0).next semicolon.kind = some .declaration := by
      simp [next, behindOperand, hs]
    simp [start, rest, ended]

/-- Behind some declarations another one may come. -/
theorem DerivesAll.after {tokens : List Token} {ds : List Declaration} (h : DerivesAll tokens ds) :
    Expectation.declaration.after tokens = some .declaration := by
  induction h with
  | nil => rfl
  | cons first _ ih => simp [first.after, ih]

end Declaration

/-- Behind a complete program nothing comes. -/
theorem Program.Complete.after {tokens : List Token} (h : Complete tokens) :
    Expectation.declaration.after tokens = some .nothing := by
  obtain ⟨body, last, ds, rfl, kind, derives⟩ := h
  simp [derives.after, Expectation.next, kind]

/-! ## What fits is derived -/

namespace Expr.Derives

variable {k : Precedence} {tokens right : List Token} {t : Token} {op : BinaryOp} {l r : Expr}

/-- An operator that binds at least as tightly as the expression that it stands behind extends
the innermost part of it that it does not bind tighter than. -/
theorem extend_of_le (h : l.Derives k tokens) (pos : 0 < k.rank)
    (kind : BinaryOp.ofKind? t.kind = some op) (le : k.rank ≤ op.precedence.rank)
    (hr : r.Derives .unary right) : ∃ e : Expr, e.Derives k (tokens ++ t :: right) := by
  induction h with
  | primary | group | unary =>
    exact absurd le (Nat.not_le.2 op.rank_precedence_lt)
  | assign => exact absurd pos (Nat.lt_irrefl 0)
  | @binary k sign op' left inner l' r' kind' precedence hl hi _ ih =>
    rcases Nat.lt_or_ge k.rank op.precedence.rank with lt | ge
    · have next := Precedence.rank_next (precedence ▸ op'.precedence_ne_unary)
      obtain ⟨e, inside⟩ := ih (by omega) (by omega)
      exact ⟨_, by simpa using Derives.binary kind' precedence hl inside⟩
    · have same : op.precedence = k := Precedence.rank_injective (Nat.le_antisymm ge le)
      exact ⟨_, .binary kind same (.binary kind' precedence hl hi) (hr.loosen k.next.rank_le_unary)⟩
  | @tighter k tokens l h ih =>
    rcases Nat.lt_or_ge k.rank op.precedence.rank with lt | ge
    · have ne : k ≠ .unary := by
        rintro rfl
        exact absurd lt (Nat.not_lt.2 (Nat.le_of_lt op.rank_precedence_lt))
      have next := Precedence.rank_next ne
      obtain ⟨e, inside⟩ := ih (by omega) (by omega)
      exact ⟨e, .tighter inside⟩
    · have same : op.precedence = k := Precedence.rank_injective (Nat.le_antisymm ge le)
      exact ⟨_, .binary kind same (.tighter h) (hr.loosen k.next.rank_le_unary)⟩

/-- **Every operator extends every expression.** -/
theorem extend (h : l.Derives .assignment tokens) (kind : BinaryOp.ofKind? t.kind = some op)
    (hr : r.Derives .unary right) : ∃ e : Expr, e.Derives .assignment (tokens ++ t :: right) := by
  generalize loosest : Precedence.assignment = k at h
  induction h with
  | primary | group | unary => cases loosest
  | @assign name sign tokens e hn hs _ ih =>
    obtain ⟨value, inside⟩ := ih rfl
    exact ⟨_, .assign hn hs inside⟩
  | @binary _ _ op' _ _ _ _ _ precedence =>
    rw [← loosest] at precedence
    have pos := op'.rank_precedence_pos
    rw [precedence] at pos
    exact absurd pos (Nat.lt_irrefl 0)
  | tighter h =>
    subst loosest
    obtain ⟨e, inside⟩ := extend_of_le h (by decide) kind op.rank_precedence_pos hr
    exact ⟨e, .tighter inside⟩

end Expr.Derives

/-- What may follow an operand, up to the end of the source, where some groups are open. -/
inductive Follows : Nat → List Token → Prop where
  | semicolon {t : Token} {rest : List Token} : t.kind = .semicolon → Program.Complete rest →
      Follows 0 (t :: rest)
  | close {t : Token} {groups : Nat} {rest : List Token} : t.kind = .rightParen →
      Follows groups rest → Follows (groups + 1) (t :: rest)
  | operator {t : Token} {op : BinaryOp} {groups : Nat} {right rest : List Token} {r : Expr} :
      BinaryOp.ofKind? t.kind = some op → r.Derives .unary right → Follows groups rest →
        Follows groups (t :: right ++ rest)

namespace Expectation

/-- The loosest precedence of an expression that may stand somewhere. -/
def loosest (assignable : Bool) : Precedence :=
  if assignable then .assignment else .unary

/-- Some tokens begin with an expression, and what may follow it follows. -/
def Continues (assignable : Bool) (groups : Nat) (tokens : List Token) : Prop :=
  ∃ operand rest e, tokens = operand ++ rest ∧
    Expr.Derives (loosest assignable) operand e ∧ Follows groups rest

/-- Some tokens are the rest of a program that goes on like this. -/
def Meets : Expectation → List Token → Prop
  | declaration, tokens => Program.Complete tokens
  | varName, tokens => ∀ word, word.kind = .keyword .varWord → Program.Complete (word :: tokens)
  | named, tokens => ∀ word name, word.kind = .keyword .varWord → name.kind = .identifier →
      Program.Complete (word :: name :: tokens)
  | operand assignable groups, tokens => Continues assignable groups tokens
  | operator assignable groups, tokens => Follows groups tokens ∨
      assignable = true ∧ ∃ sign rest, tokens = sign :: rest ∧ sign.kind = .equal ∧
        Continues true groups rest
  | nothing, tokens => tokens = []

end Expectation

open Expectation

variable {tokens rest : List Token} {t : Token} {e : Expr} {groups : Nat} {assignable : Bool}

/-- What follows an expression ends with the token that ends the expression around it. -/
theorem Follows.exists_whole (follows : Follows groups rest) (h : e.Derives .assignment tokens) :
    ∃ whole last others e', tokens ++ rest = whole ++ last :: others ∧
      Expr.Derives .assignment whole e' ∧
      ((groups = 0 ∧ last.kind = .semicolon ∧ Program.Complete others) ∨
        (last.kind = .rightParen ∧ ∃ fewer, groups = fewer + 1 ∧ Follows fewer others)) := by
  induction follows generalizing tokens e with
  | @semicolon t rest kind complete =>
    exact ⟨tokens, t, rest, e, rfl, h, .inl ⟨rfl, kind, complete⟩⟩
  | @close t groups rest kind follows =>
    exact ⟨tokens, t, rest, e, rfl, h, .inr ⟨kind, groups, rfl, follows⟩⟩
  | @operator t op groups right rest r kind hr _ ih =>
    obtain ⟨e', longer⟩ := h.extend kind hr
    obtain ⟨whole, last, others, e'', same, derives, ended⟩ := ih longer
    exact ⟨whole, last, others, e'', by simpa using same, derives, ended⟩

/-- A statement, up to its semicolon. -/
theorem Expectation.Continues.exists_statement (continues : Continues true 0 tokens) :
    ∃ whole semicolon others e, tokens = whole ++ semicolon :: others ∧
      Expr.Derives .assignment whole e ∧ semicolon.kind = .semicolon ∧
        Program.Complete others := by
  obtain ⟨operand, rest, e, rfl, derives, follows⟩ := continues
  obtain ⟨whole, last, others, e', same, derives, ⟨-, kind, complete⟩ | ⟨-, _, none, -⟩⟩ :=
    follows.exists_whole derives
  · exact ⟨whole, last, others, e', same, derives, kind, complete⟩
  · cases none

/-- A group, behind its opening parenthesis. -/
theorem Expectation.Continues.exists_group (continues : Continues true (groups + 1) tokens) :
    ∃ inner close others e, tokens = inner ++ close :: others ∧
      Expr.Derives .assignment inner e ∧ close.kind = .rightParen ∧ Follows groups others := by
  obtain ⟨operand, rest, e, rfl, derives, follows⟩ := continues
  obtain ⟨whole, last, others, e', same, derives, ⟨none, -⟩ | ⟨kind, _, eq, follows⟩⟩ :=
    follows.exists_whole derives
  · cases none
  · obtain rfl := Nat.succ.inj eq
    exact ⟨whole, last, others, e', same, derives, kind, follows⟩

/-- A declaration in front of what is complete. -/
theorem Declaration.Derives.complete {d : Declaration} (h : d.Derives tokens)
    (complete : Program.Complete rest) : Program.Complete (tokens ++ rest) := by
  obtain ⟨body, last, ds, rfl, kind, derives⟩ := complete
  exact ⟨tokens ++ body, last, d :: ds, (List.append_assoc ..).symm, kind, .cons h derives⟩

namespace Expectation

/-- An operand that is no assignment fits wherever one is expected. -/
theorem Continues.of_unary (h : e.Derives .unary tokens) (follows : Follows groups rest) :
    Continues assignable groups (tokens ++ rest) :=
  ⟨tokens, rest, e, rfl, h.loosen (Precedence.rank_le_unary _), follows⟩

/-- A token by itself continues with what may follow an operand. -/
theorem Continues.of_primary (h : Expr.Primary t e) (follows : Follows groups rest) :
    Continues assignable groups (t :: rest) :=
  .of_unary (.primary h) follows

/-- The first token of an expression is put in front of the rest. -/
theorem continues_of_behindFirst {s : Expectation}
    (first : behindFirst assignable groups t.kind = some s) (meets : s.Meets rest) :
    Continues assignable groups (t :: rest) := by
  unfold behindFirst at first
  split at first <;> cases first <;> rename_i kind
  · exact .of_primary (.number kind) (meets.resolve_right nofun)
  · exact .of_primary (.string kind) (meets.resolve_right nofun)
  · exact .of_primary (.nil kind) (meets.resolve_right nofun)
  · exact .of_primary (.true kind) (meets.resolve_right nofun)
  · exact .of_primary (.false kind) (meets.resolve_right nofun)
  · rcases meets with follows | ⟨rfl, sign, rest, rfl, equal, operand, others, e, rfl, value, more⟩
    · exact .of_primary (.name kind) follows
    · exact ⟨t :: sign :: operand, others, _, rfl, .assign kind equal value, more⟩
  · obtain ⟨inner, close, others, e, rfl, derives, closed, follows⟩ := meets.exists_group
    have group : Continues assignable groups (_ ++ others) :=
      .of_unary (.group kind derives closed) follows
    simpa using group
  · obtain ⟨operand, others, e, rfl, derives, follows⟩ := meets
    show Continues assignable groups (t :: operand ++ others)
    exact .of_unary (.unary (by rw [kind]; rfl) derives) follows
  · obtain ⟨operand, others, e, rfl, derives, follows⟩ := meets
    show Continues assignable groups (t :: operand ++ others)
    exact .of_unary (.unary (by rw [kind]; rfl) derives) follows

/-- The token behind an operand is put in front of the rest. -/
theorem meets_of_behindOperand {s : Expectation}
    (next : behindOperand assignable groups t.kind = some s) (meets : s.Meets rest) :
    (operator assignable groups).Meets (t :: rest) := by
  unfold behindOperand at next
  split at next
  · rename_i kind
    split at next <;> cases next
    exact .inr ⟨‹_›, t, rest, rfl, kind, meets⟩
  · rename_i kind
    split at next <;> cases next
    obtain ⟨fewer, rfl⟩ := Nat.exists_eq_succ_of_ne_zero ‹_›
    exact .inl (.close kind (meets.resolve_right nofun))
  · rename_i kind
    split at next <;> cases next
    subst groups
    exact .inl (.semicolon kind meets)
  · split at next <;> cases next
    obtain ⟨op, seen⟩ := Option.isSome_iff_exists.1 ‹_›
    obtain ⟨operand, others, e, rfl, derives, follows⟩ := meets
    exact .inl (.operator seen derives follows)

/-- **A token that fits is put in front of the rest of a program.** -/
theorem meets_of_next {s s' : Expectation} (next : s.next t.kind = some s')
    (meets : s'.Meets rest) : s.Meets (t :: rest) := by
  unfold Expectation.next at next
  split at next
  · rename_i kind
    cases next
    obtain rfl : rest = [] := meets
    exact ⟨[], t, [], rfl, kind, .nil⟩
  · rename_i kind
    cases next
    exact meets t kind
  · rename_i kind
    cases next
    obtain ⟨value, semicolon, others, e, rfl, derives, ended, complete⟩ :=
      Continues.exists_statement meets
    simpa [Meets] using (Declaration.Derives.print kind derives ended).complete complete
  · obtain ⟨value, semicolon, others, e, same, derives, ended, complete⟩ :=
      (continues_of_behindFirst next meets).exists_statement
    rw [Meets, same]
    simpa using (Declaration.Derives.expression derives ended).complete complete
  · rename_i kind
    cases next
    exact fun word hw => meets word t hw kind
  · rename_i kind
    cases next
    obtain ⟨value, semicolon, others, e, rfl, derives, ended, complete⟩ :=
      Continues.exists_statement meets
    intro word name hw hn
    simpa using (Declaration.Derives.initialise hw hn kind derives ended).complete complete
  · rename_i kind
    cases next
    intro word name hw hn
    exact (Declaration.Derives.define hw hn kind).complete meets
  · exact continues_of_behindFirst next meets
  · exact meets_of_behindOperand next meets
  · cases next

/-- Tokens that lead to an expectation and tokens that meet it meet the first one together. -/
theorem meets_of_after {s s' : Expectation} (fits : s.after tokens = some s')
    (meets : s'.Meets rest) : s.Meets (tokens ++ rest) := by
  induction tokens generalizing s with
  | nil =>
    cases fits
    exact meets
  | cons t tokens ih =>
    rw [after_cons] at fits
    obtain ⟨between, first, others⟩ := Option.bind_eq_some_iff.1 fits
    exact meets_of_next first (ih others)

/-! ## Main statement -/

/-- The end of the source is a complete program. -/
theorem complete_finish (line : Nat) : Program.Complete [.atEnd line] :=
  ⟨[], .atEnd line, [], rfl, rfl, .nil⟩

/-- The open groups are closed, and then the statement. -/
theorem exists_follows (groups : Nat) : ∃ rest, Follows groups rest := by
  induction groups with
  | zero => exact ⟨_, .semicolon (t := ⟨.semicolon, [';'], 0⟩) rfl (complete_finish 0)⟩
  | succ groups ih =>
    obtain ⟨rest, follows⟩ := ih
    exact ⟨_, .close (t := ⟨.rightParen, [')'], 0⟩) rfl follows⟩

/-- Whatever is expected, a program can go on like that. -/
theorem exists_meets (s : Expectation) : ∃ rest, s.Meets rest := by
  let semicolon : Token := ⟨.semicolon, [';'], 0⟩
  let name : Token := ⟨.identifier, ['x'], 0⟩
  cases s with
  | declaration => exact ⟨_, complete_finish 0⟩
  | varName =>
    exact ⟨[name, semicolon, .atEnd 0], fun word hw =>
      (Declaration.Derives.define hw rfl rfl).complete (complete_finish 0)⟩
  | named =>
    exact ⟨[semicolon, .atEnd 0], fun word name hw hn =>
      (Declaration.Derives.define hw hn rfl).complete (complete_finish 0)⟩
  | operand assignable groups =>
    obtain ⟨rest, follows⟩ := exists_follows groups
    exact ⟨name :: rest, .of_primary (.name rfl) follows⟩
  | operator assignable groups =>
    obtain ⟨rest, follows⟩ := exists_follows groups
    exact ⟨rest, .inl follows⟩
  | nothing => exact ⟨[], rfl⟩

end Expectation

/-- **Some tokens are the beginning of a program exactly if they fit one after another.** -/
theorem Program.exists_complete_iff {before : List Token} :
    (∃ more, Complete (before ++ more)) ↔ (Expectation.declaration.after before).isSome := by
  constructor
  · rintro ⟨more, complete⟩
    have fits := complete.after
    rw [after_append] at fits
    obtain ⟨s, first, -⟩ := Option.bind_eq_some_iff.1 fits
    rw [first]
    rfl
  · intro fits
    obtain ⟨s, fits⟩ := Option.isSome_iff_exists.1 fits
    obtain ⟨rest, meets⟩ := s.exists_meets
    exact ⟨rest, meets_of_after fits meets⟩

end StackScript
