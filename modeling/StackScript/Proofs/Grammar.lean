/-
# The grammar, as a relation between tokens and trees

`Derives k tokens e` says that the tokens are an expression with the tree `e` whose
outermost operator binds at least as tightly as `k`. The rules are those of
`StackScript.Program`, one nonterminal for each precedence, with `unary` for the last
two of them:

| rule | constructor |
| --- | --- |
| `expression = NAME "=" expression` | `assign` |
| `equality = equality "==" comparison`, and so on for every binary operator | `binary` |
| `expression = equality`, `equality = comparison`, … | `tighter` |
| `unary = "-" unary` and `unary = "!" unary` | `unary` |
| `primary = "(" expression ")"` | `group` |
| any other `primary` | `primary` |

A chain of operators of one precedence is derived from the left. The relation knows
nothing of how a parser goes about it, nor of the three limits that a parser imposes:
on the number of constants, on integer literals and on nesting. The tree of a number
that is out of range is `nil`.

Nesting, `Expr.nesting`, is one for a token that is an expression by itself; a group,
an operator with one operand and an assignment nest their operand once more, and an
operator with two operands its right one.
-/
import Mathlib.Data.List.TakeDrop
import Mathlib.Data.List.TakeWhile
import StackScript.Program

namespace StackScript

namespace Precedence

/-- Precedences are told apart by their ranks. -/
theorem rank_injective {j k : Precedence} (h : j.rank = k.rank) : j = k := by
  cases j <;> cases k <;> first | rfl | exact absurd h (by decide)

/-- The next precedence is one tighter, up to the tightest. -/
theorem rank_next {k : Precedence} (h : k ≠ .unary) : k.next.rank = k.rank + 1 := by
  cases k <;> first | rfl | exact absurd rfl h

/-- Nothing binds tighter than an operator with one operand. -/
theorem rank_le_unary (k : Precedence) : k.rank ≤ Precedence.unary.rank := by
  cases k <;> decide

end Precedence

/-- No operator with two operands binds as tightly as one with one operand. -/
theorem BinaryOp.precedence_ne_unary (op : BinaryOp) : op.precedence ≠ .unary := by
  cases op <;> decide

/-- Every operator binds tighter than an assignment. -/
theorem BinaryOp.rank_precedence_pos (op : BinaryOp) : 0 < op.precedence.rank := by
  cases op <;> decide

/-- Every operator with two operands binds more loosely than those with one operand. -/
theorem BinaryOp.rank_precedence_lt (op : BinaryOp) :
    op.precedence.rank < Precedence.unary.rank := by
  cases op <;> decide

/-- The operator that a token denotes in front of an operand. -/
def UnaryOp.ofKind? : Token.Kind → Option UnaryOp
  | .minus => some negate
  | .bang => some not
  | _ => none

/-- The tokens that an expression can start with. -/
def Token.startsExpression (t : Token) : Bool :=
  match t.kind with
  | .number | .string | .identifier | .leftParen | .minus | .bang => true
  | .keyword .nilWord | .keyword .trueWord | .keyword .falseWord => true
  | _ => false

/-! ## The limits on tokens -/

/-- Whether a token takes a place among the constants. -/
def Token.isConstant (t : Token) : Bool :=
  t.kind = .number || t.kind = .string || t.kind = .identifier

/-- The sign of an operator with two operands is no constant. -/
theorem BinaryOp.isConstant {t : Token} {op : BinaryOp} (kind : ofKind? t.kind = some op) :
    t.isConstant = false := by
  cases eq : t.kind <;> simp_all [Token.isConstant, ofKind?]

/-- The sign of an operator with one operand is no constant. -/
theorem UnaryOp.isConstant {t : Token} {op : UnaryOp} (kind : ofKind? t.kind = some op) :
    t.isConstant = false := by
  cases eq : t.kind <;> simp_all [Token.isConstant, ofKind?]

/-- An integer literal is in range if it does not exceed the greatest; literals with a
point are always in range. -/
def Token.InRange (t : Token) : Prop :=
  t.kind = .number → '.' ∉ t.text → Nat.ofDigitChars 10 t.text 0 ≤ Literal.maxInt

/-- What is no number is in range. -/
theorem Token.inRange_of_ne {t : Token} (h : t.kind ≠ .number) : t.InRange :=
  fun kind => absurd kind h

/-- A token of another kind than a number is in range. -/
theorem Token.inRange_of_kind {t : Token} {k : Token.Kind} (kind : t.kind = k)
    (other : k ≠ .number) : t.InRange :=
  inRange_of_ne (kind ▸ other)

/-- A number has a value if it has a point or does not exceed the greatest integer literal. -/
theorem Literal.ofNumber?_isSome_iff (text : List Char) :
    (ofNumber? text).isSome ↔ ('.' ∉ text → Nat.ofDigitChars 10 text 0 ≤ maxInt) := by
  have whole := List.takeWhile_append_dropWhile (p := (· != '.')) (l := text)
  rw [ofNumber?, List.span_eq_takeWhile_dropWhile]
  cases rest : text.dropWhile (· != '.') with
  | nil =>
    have absent : '.' ∉ text := by
      intro h
      simpa using List.dropWhile_eq_nil_iff.1 rest '.' h
    rw [rest, List.append_nil] at whole
    rw [whole]
    dsimp only
    split <;> simp_all
  | cons c fraction =>
    obtain rfl : c = '.' := by
      have := List.head?_dropWhile_not (· != '.') text
      rw [rest] at this
      simpa using this
    have present : '.' ∈ text := by
      rw [← whole, rest]
      exact List.mem_append_right _ (List.mem_cons_self ..)
    simp [present]

/-! ## Expressions -/

namespace Expr

/-- The tree of a number token. -/
def ofNumber (t : Token) : Expr :=
  match Literal.ofNumber? t.text with
  | some value => .literal value t.line
  | none => .nil t.line

/-- How deep an expression nests. -/
def nesting : Expr → Nat
  | literal _ _ | nil _ | bool _ _ | global _ _ => 1
  | assign _ _ value => 1 + value.nesting
  | group inner _ => 1 + inner.nesting
  | unary _ operand => 1 + operand.nesting
  | binary _ left right => max left.nesting (1 + right.nesting)

/-- A token that is an expression by itself, with its tree. -/
inductive Primary : Token → Expr → Prop
  | number {t : Token} : t.kind = .number → Primary t (ofNumber t)
  | string {t : Token} : t.kind = .string → Primary t (literal (.ofQuoted t.text) t.line)
  | name {t : Token} : t.kind = .identifier → Primary t (global t.text t.line)
  | nil {t : Token} : t.kind = .keyword .nilWord → Primary t (nil t.line)
  | true {t : Token} : t.kind = .keyword .trueWord → Primary t (bool true t.line)
  | false {t : Token} : t.kind = .keyword .falseWord → Primary t (bool false t.line)

/-- Some tokens that are an expression at a precedence, with its tree. -/
inductive Derives : Precedence → List Token → Expr → Prop
  | primary {t : Token} {e : Expr} : Primary t e → Derives .unary [t] e
  | group {left right : Token} {tokens : List Token} {e : Expr} :
      left.kind = .leftParen → Derives .assignment tokens e → right.kind = .rightParen →
        Derives .unary (left :: tokens ++ [right]) (group e right.line)
  | unary {t : Token} {op : UnaryOp} {tokens : List Token} {e : Expr} :
      UnaryOp.ofKind? t.kind = some op → Derives .unary tokens e →
        Derives .unary (t :: tokens) (unary op e)
  | binary {k : Precedence} {t : Token} {op : BinaryOp} {left right : List Token} {l r : Expr} :
      BinaryOp.ofKind? t.kind = some op → op.precedence = k → Derives k left l →
        Derives k.next right r → Derives k (left ++ t :: right) (binary op l r)
  | assign {name sign : Token} {tokens : List Token} {e : Expr} :
      name.kind = .identifier → sign.kind = .equal → Derives .assignment tokens e →
        Derives .assignment (name :: sign :: tokens) (assign name.text name.line e)
  | tighter {k : Precedence} {tokens : List Token} {e : Expr} :
      Derives k.next tokens e → Derives k tokens e

/-- Every expression nests once at least. -/
theorem nesting_pos (e : Expr) : 0 < e.nesting := by
  induction e with
  | binary op l r ihl ihr => exact Nat.lt_of_lt_of_le ihl (Nat.le_max_left ..)
  | _ => simp only [nesting]; omega

/-- The tree of a number does not nest further. -/
@[simp] theorem nesting_ofNumber (t : Token) : (ofNumber t).nesting = 1 := by
  unfold ofNumber
  split <;> rfl

/-- A token by itself does not nest further. -/
theorem Primary.nesting_eq {t : Token} {e : Expr} (h : Primary t e) : e.nesting = 1 := by
  cases h with
  | number => exact nesting_ofNumber t
  | _ => rfl

/-- No fault is an expression by itself. -/
theorem Primary.not_isFault {t : Token} {e : Expr} (h : Primary t e) : t.isFault = Bool.false := by
  cases h <;> simp_all [Token.isFault]

/-- A token in range gives the constant that the tree holds. -/
theorem Primary.countP_eq {t : Token} {e : Expr} (h : Primary t e) (range : t.InRange) :
    [t].countP Token.isConstant = e.constants.length := by
  cases h with
  | number kind =>
    obtain ⟨value, eq⟩ :=
      Option.isSome_iff_exists.1 ((Literal.ofNumber?_isSome_iff t.text).2 (range kind))
    simp [Token.isConstant, kind, ofNumber, eq, constants]
  | _ => simp_all [Token.isConstant, constants]

namespace Derives

variable {j k : Precedence} {tokens : List Token} {e : Expr}

/-- What binds tightly may stand where something looser is asked for. -/
theorem loosen (h : Derives j tokens e) (le : k.rank ≤ j.rank) : Derives k tokens e := by
  obtain ⟨gap, eq⟩ := Nat.exists_eq_add_of_le le
  induction gap generalizing k with
  | zero =>
    obtain rfl : j = k := Precedence.rank_injective eq
    exact h
  | succ gap ih =>
    have ne : k ≠ .unary := by
      rintro rfl
      have := j.rank_le_unary
      omega
    have next := Precedence.rank_next ne
    exact .tighter (ih (by omega) (by omega))

/-- An expression has a first token, which is none that starts anything else. -/
theorem exists_head (h : Derives k tokens e) :
    ∃ t rest, tokens = t :: rest ∧ t.startsExpression = Bool.true := by
  induction h with
  | @primary t e h =>
    refine ⟨t, [], rfl, ?_⟩
    cases h <;> simp_all [Token.startsExpression]
  | group left => exact ⟨_, _, rfl, by simp [Token.startsExpression, left]⟩
  | @unary t op tokens _ kind =>
    refine ⟨t, tokens, rfl, ?_⟩
    cases eq : t.kind <;> simp_all [Token.startsExpression, UnaryOp.ofKind?]
  | @binary _ t _ _ right _ _ _ _ _ _ ihl =>
    obtain ⟨first, rest, rfl, starts⟩ := ihl
    exact ⟨first, rest ++ t :: right, rfl, starts⟩
  | assign name => exact ⟨_, _, rfl, by simp [Token.startsExpression, name]⟩
  | tighter _ ih => exact ih

/-- No fault is part of an expression. -/
theorem not_isFault (h : Derives k tokens e) : ∀ t ∈ tokens, t.isFault = Bool.false := by
  induction h with
  | primary h => simpa using h.not_isFault
  | group left _ right ih =>
    intro t ht
    simp only [List.cons_append, List.mem_cons, List.mem_append, List.not_mem_nil, or_false] at ht
    rcases ht with rfl | ht | rfl
    · simp [Token.isFault, left]
    · exact ih t ht
    · simp [Token.isFault, right]
  | @unary t op _ _ kind _ ih =>
    intro u hu
    rcases List.mem_cons.1 hu with rfl | hu
    · cases eq : u.kind <;> simp_all [Token.isFault, UnaryOp.ofKind?]
    · exact ih u hu
  | @binary _ t _ _ _ _ _ kind _ _ _ ihl ihr =>
    intro u hu
    rcases List.mem_append.1 hu with hu | hu
    · exact ihl u hu
    · rcases List.mem_cons.1 hu with rfl | hu
      · cases eq : u.kind <;> simp_all [Token.isFault, BinaryOp.ofKind?]
      · exact ihr u hu
  | assign name sign _ ih =>
    intro t ht
    simp only [List.mem_cons] at ht
    rcases ht with rfl | rfl | ht
    · simp [Token.isFault, name]
    · simp [Token.isFault, sign]
    · exact ih t ht
  | tighter _ ih => exact ih

/-- The constants of an expression are as many as the tokens that hold one. -/
theorem countP_eq (h : Derives k tokens e) (range : ∀ t ∈ tokens, t.InRange) :
    tokens.countP Token.isConstant = e.constants.length := by
  induction h with
  | primary h => exact h.countP_eq (range _ (List.mem_singleton_self _))
  | group left _ right ih =>
    have := ih fun t ht => range t (by simp [ht])
    simp [Token.isConstant, left, right, constants, this]
  | @unary t op tokens _ kind _ ih =>
    have := ih fun u hu => range u (List.mem_cons_of_mem _ hu)
    simp [UnaryOp.isConstant kind, constants, this]
  | @binary _ t op left right _ _ kind _ _ _ ihl ihr =>
    have hl := ihl fun u hu => range u (List.mem_append_left _ hu)
    have hr := ihr fun u hu => range u (List.mem_append_right _ (List.mem_cons_of_mem _ hu))
    simp [List.countP_append, BinaryOp.isConstant kind, constants, hl, hr]
  | assign name sign _ ih =>
    have := ih fun t ht => range t (by simp [ht])
    simp [Token.isConstant, name, sign, constants, this]
  | tighter _ ih => exact ih range

end Derives
end Expr

/-! ## Declarations -/

namespace Declaration

/-- How deep the expression of a declaration nests; `0` if it has none. -/
def nesting : Declaration → Nat
  | define _ _ initial _ => (initial.map Expr.nesting).getD 0
  | print value _ | expression value _ => value.nesting

/-- Some tokens that are a declaration, with its tree. -/
inductive Derives : List Token → Declaration → Prop
  | define {word name semicolon : Token} :
      word.kind = .keyword .varWord → name.kind = .identifier → semicolon.kind = .semicolon →
        Derives [word, name, semicolon] (define name.text name.line none semicolon.line)
  | initialise {word name sign semicolon : Token} {tokens : List Token} {e : Expr} :
      word.kind = .keyword .varWord → name.kind = .identifier → sign.kind = .equal →
        e.Derives .assignment tokens → semicolon.kind = .semicolon →
          Derives (word :: name :: sign :: tokens ++ [semicolon])
            (define name.text name.line (some e) semicolon.line)
  | print {word semicolon : Token} {tokens : List Token} {e : Expr} :
      word.kind = .keyword .printWord → e.Derives .assignment tokens →
        semicolon.kind = .semicolon →
          Derives (word :: tokens ++ [semicolon]) (print e semicolon.line)
  | expression {semicolon : Token} {tokens : List Token} {e : Expr} :
      e.Derives .assignment tokens → semicolon.kind = .semicolon →
        Derives (tokens ++ [semicolon]) (expression e semicolon.line)

/-- Some tokens that are declarations in turn, with their trees. -/
inductive DerivesAll : List Token → List Declaration → Prop
  | nil : DerivesAll [] []
  | cons {first others : List Token} {d : Declaration} {ds : List Declaration} :
      Derives first d → DerivesAll others ds → DerivesAll (first ++ others) (d :: ds)

namespace Derives

variable {tokens : List Token} {d : Declaration}

/-- A declaration has a first token, which is not the end of the source. -/
theorem exists_head (h : Derives tokens d) :
    ∃ t rest, tokens = t :: rest ∧ t.kind ≠ .finish := by
  cases h with
  | define word | initialise word | print word => exact ⟨_, _, rfl, by rw [word]; nofun⟩
  | expression value =>
    obtain ⟨t, rest, rfl, starts⟩ := value.exists_head
    refine ⟨t, _, rfl, ?_⟩
    rintro eq
    simp [Token.startsExpression, eq] at starts

/-- A declaration ends with a semicolon. -/
theorem exists_last (h : Derives tokens d) :
    ∃ init semicolon, tokens = init ++ [semicolon] ∧ semicolon.kind = .semicolon := by
  cases h with
  | @define word name semicolon _ _ ended => exact ⟨[word, name], semicolon, rfl, ended⟩
  | initialise _ _ _ _ ended | print _ _ ended | expression _ ended => exact ⟨_, _, rfl, ended⟩

/-- No fault is part of a declaration. -/
theorem not_isFault (h : Derives tokens d) : ∀ t ∈ tokens, t.isFault = false := by
  intro t ht
  cases h with
  | define word name semicolon =>
    simp only [List.mem_cons, List.not_mem_nil, or_false] at ht
    rcases ht with rfl | rfl | rfl <;> simp_all [Token.isFault]
  | initialise word name sign value semicolon =>
    simp only [List.cons_append, List.mem_cons, List.mem_append, List.not_mem_nil, or_false] at ht
    rcases ht with rfl | rfl | rfl | ht | rfl
    all_goals first | exact value.not_isFault t ht | simp_all [Token.isFault]
  | print word value semicolon =>
    simp only [List.cons_append, List.mem_cons, List.mem_append, List.not_mem_nil, or_false] at ht
    rcases ht with rfl | ht | rfl
    all_goals first | exact value.not_isFault t ht | simp_all [Token.isFault]
  | expression value semicolon =>
    rcases List.mem_append.1 ht with ht | ht
    · exact value.not_isFault t ht
    · simp_all [Token.isFault]

/-- The constants of a declaration are as many as the tokens that hold one. -/
theorem countP_eq (h : Derives tokens d) (range : ∀ t ∈ tokens, t.InRange) :
    tokens.countP Token.isConstant = d.constants.length := by
  cases h with
  | define word name semicolon => simp [Token.isConstant, word, name, semicolon, constants]
  | initialise word name sign value semicolon =>
    have := value.countP_eq fun t ht => range t (by simp [ht])
    simp [Token.isConstant, word, name, sign, semicolon, constants, this]
  | print word value semicolon =>
    have := value.countP_eq fun t ht => range t (by simp [ht])
    simp [Token.isConstant, word, semicolon, constants, this]
  | expression value semicolon =>
    have := value.countP_eq fun t ht => range t (by simp [ht])
    simp [Token.isConstant, semicolon, constants, this]

end Derives

namespace DerivesAll

variable {tokens : List Token} {ds : List Declaration}

/-- No fault is part of some declarations. -/
theorem not_isFault (h : DerivesAll tokens ds) : ∀ t ∈ tokens, t.isFault = false := by
  induction h with
  | nil => simp
  | cons first _ ih =>
    intro t ht
    rcases List.mem_append.1 ht with ht | ht
    · exact first.not_isFault t ht
    · exact ih t ht

/-- The constants of some declarations are as many as the tokens that hold one. -/
theorem countP_eq (h : DerivesAll tokens ds) (range : ∀ t ∈ tokens, t.InRange) :
    tokens.countP Token.isConstant = (ds.flatMap constants).length := by
  induction h with
  | nil => rfl
  | cons first _ ih =>
    rw [List.countP_append, first.countP_eq fun t ht => range t (List.mem_append_left _ ht),
      ih fun t ht => range t (List.mem_append_right _ ht), List.flatMap_cons, List.length_append]

end DerivesAll
end Declaration
end StackScript
