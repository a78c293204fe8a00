/-
# Comparisons are coherent, but for NaN

Neither `<=` nor `>=` is an operation of the machine: `a <= b` says that `a > b` does not hold,
and `a >= b` that `a < b` does not. Two integers have an order, and so have two doubles, finite or
not, unless one of them is NaN; the two zeros are the same. What the operators say depends on the
order alone:

| `a` to `b` | `<` | `<=` | `==` | `!=` | `>=` | `>` |
| --- | --- | --- | --- | --- | --- | --- |
| below | ✓ | ✓ | | ✓ | | |
| same | | ✓ | ✓ | | ✓ | |
| above | | | | ✓ | ✓ | ✓ |
| none | | ✓ | | ✓ | ✓ | |

So `<=` is `<` or `==` in all rows but the last one, where it holds and they do not.
-/
import StackScript.Proofs.Reformatting
import StackScript.Proofs.Wrapping

namespace StackScript

/-! ## The order of two doubles -/

section Doubles

open Float.Model (UnpackedFloat)

/-- From the other side, the order of two doubles is turned around. -/
theorem compare_unpacked_swap (u v : UnpackedFloat) : v.compare u = (u.compare v).map .swap := by
  have magnitudes (e e' : Int) (m m' : Nat) : (compare e' e).then (compare m' m) =
      ((compare e e').then (compare m m')).swap := by
    rw [Ordering.swap_then, Int.compare_swap, Nat.compare_swap]
  cases u with
  | finite s m e =>
    cases v with
    | finite s' m' e' =>
      cases s <;> cases s'
      · exact congrArg (fun order => some order.swap) (magnitudes e e' m m')
      · rfl
      · rfl
      · exact congrArg some (magnitudes e e' m m')
    | infinity s' => cases s <;> cases s' <;> rfl
    | _ => cases s <;> rfl
  | infinity s =>
    cases v with
    | finite s' | infinity s' => cases s <;> cases s' <;> rfl
    | _ => cases s <;> rfl
  | _ =>
    cases v with
    | finite s' | infinity s' => cases s' <;> rfl
    | _ => rfl

/-- Two doubles have no order if and only if one of them is NaN. -/
theorem isNone_compare_unpacked (u v : UnpackedFloat) :
    (u.compare v).isNone = (u.isNaN || v.isNaN) := by
  cases u with
  | notANumber => rfl
  | finite s =>
    cases v with
    | finite s' | infinity s' => cases s <;> cases s' <;> rfl
    | _ => cases s <;> rfl
  | infinity s => cases v <;> cases s <;> rfl
  | zero s =>
    cases v with
    | finite s' | infinity s' => cases s' <;> rfl
    | _ => rfl

/-- One double is below another exactly if it comes first in their order. -/
theorem decide_lt_double (x y : Float) :
    decide (x < y) = (x.toModel.compare y.toModel == some .lt) :=
  calc
    decide (x < y) = x.lt y := Bool.decide_eq_true
    _ = x.toModel.lt y.toModel := Bool.decide_eq_true

end Doubles

/-! ## The order of two numbers -/

namespace Datum

/-- Two integers, or two doubles. -/
inductive OneKind : Datum → Datum → Prop where
  | ints (m n : Int32) : OneKind (int m) (int n)
  | doubles (x y : Float) : OneKind (double x) (double y)

/-- Whether a value is a double that is no number. -/
def isNaN : Datum → Bool
  | double x => x.isNaN
  | _ => false

/-- The order of two numbers of one kind, if they have one. -/
def order? : Datum → Datum → Option Ordering
  | int m, int n => some (compare m.toInt n.toInt)
  | double x, double y => x.toModel.compare y.toModel
  | _, _ => none

namespace OneKind

variable {a b : Datum}

/-- Of one kind are two values from either side. -/
theorem symm (kind : a.OneKind b) : b.OneKind a := by
  cases kind with
  | ints m n => exact .ints n m
  | doubles x y => exact .doubles y x

/-- From the other side, the order of two values is turned around. -/
theorem order?_swap (kind : a.OneKind b) : b.order? a = (a.order? b).map .swap := by
  cases kind with
  | ints m n => exact congrArg some (Int.compare_swap m.toInt n.toInt).symm
  | doubles x y => exact compare_unpacked_swap _ _

/-- Only NaN has no order. -/
theorem isNone_order? (kind : a.OneKind b) : (a.order? b).isNone = (a.isNaN || b.isNaN) := by
  cases kind with
  | ints m n => rfl
  | doubles x y => exact isNone_compare_unpacked _ _

end OneKind
end Datum

/-! ## Operators -/

namespace BinaryOp

/-- The operators that compare. -/
def compares : BinaryOp → Bool
  | equal | notEqual | greater | greaterEqual | less | lessEqual => true
  | _ => false

/-- What a comparison says of two numbers in some order, or in none. -/
def accepts : BinaryOp → Option Ordering → Bool
  | equal, o => o == some .eq
  | notEqual, o => o != some .eq
  | greater, o => o == some .gt
  | greaterEqual, o => o != some .lt
  | less, o => o == some .lt
  | lessEqual, o => o != some .gt
  | _, _ => false

/-- What a comparison says of two numbers. -/
def holds (op : BinaryOp) (a b : Datum) : Bool :=
  op.accepts (a.order? b)

variable {a b : Datum}

/-- What is below from one side is above from the other. -/
theorem beq_some_swap (o : Option Ordering) :
    (o.map Ordering.swap == some Ordering.lt) = (o == some Ordering.gt) := by
  rcases o with _ | (_ | _ | _) <;> rfl

/-- Of two values of one kind, `==` says that neither comes before the other. -/
theorem compute_equal (kind : a.OneKind b) :
    equal.compute a b = .ok (.bool (a.order? b == some .eq)) := by
  cases kind with
  | ints m n =>
    have same : (m == n) = (some (compare m.toInt n.toInt) == some .eq) := by
      rw [Bool.eq_iff_iff, beq_iff_eq, beq_iff_eq, Option.some_inj, Std.compare_eq_iff_eq,
        Int32.toInt_inj]
    exact congrArg (Except.ok ∘ Datum.bool) same
  | doubles x y => rfl

/-- Of two values of one kind, `<` says that the first comes before the second. -/
theorem compute_less (kind : a.OneKind b) :
    less.compute a b = .ok (.bool (a.order? b == some .lt)) := by
  cases kind with
  | ints m n =>
    have below : decide (m.toInt < n.toInt) = (some (compare m.toInt n.toInt) == some .lt) := by
      rw [Bool.eq_iff_iff, beq_iff_eq, Option.some_inj, Int.compare_eq_lt, decide_eq_true_iff]
    exact congrArg (Except.ok ∘ Datum.bool) below
  | doubles x y => exact congrArg (Except.ok ∘ Datum.bool) (decide_lt_double x y)

/-- Of two values of one kind, `>` says that the second comes before the first. -/
theorem compute_greater (kind : a.OneKind b) :
    greater.compute a b = .ok (.bool (a.order? b == some .gt)) := by
  have turned : greater.compute a b = less.compute b a := by cases kind <;> rfl
  rw [turned, compute_less kind.symm, kind.order?_swap, beq_some_swap]

/-- **What a comparison says depends on the order alone.** -/
theorem compute_of_oneKind {op : BinaryOp} (compares : op.compares = true) (kind : a.OneKind b) :
    op.compute a b = .ok (.bool (op.holds a b)) := by
  cases op with
  | equal => exact compute_equal kind
  | notEqual =>
    have same : notEqual.compute a b = equal.compute a b >>= UnaryOp.not.compute := rfl
    rw [same, compute_equal kind]
    rfl
  | greater => exact compute_greater kind
  | greaterEqual =>
    rw [compute_greaterEqual, compute_less kind]
    rfl
  | less => exact compute_less kind
  | lessEqual =>
    rw [compute_lessEqual, compute_greater kind]
    rfl
  | _ => cases compares

/-- What binds more loosely than a sum compares. -/
theorem compares_of_loose {op : BinaryOp} (loose : op.precedence.rank < Precedence.term.rank) :
    op.compares = true := by
  cases op <;> first | rfl | exact absurd loose (by decide)

/-- The operands of a comparison bind at least as tightly as a sum may. -/
theorem loose_of_compares {op : BinaryOp} (compares : op.compares = true) :
    op.precedence.next.rank ≤ Precedence.term.rank := by
  cases op <;> first | exact absurd compares (by decide) | decide

/-- The result of a comparison is a boolean. -/
theorem exists_bool_of_compute {op : BinaryOp} {d : Datum} (compares : op.compares = true)
    (computed : op.compute a b = .ok d) : ∃ truth, d = .bool truth := by
  have numeric {ints : Int → Int → Bool} {doubles : Float → Float → Bool}
      (computed : a.numeric (fun m n => .ok (.bool (ints m n))) (fun x y => .bool (doubles x y)) b =
        .ok d) : ∃ truth, d = .bool truth := by
    unfold Datum.numeric at computed
    split at computed <;> cases computed <;> exact ⟨_, rfl⟩
  cases op with
  | equal | notEqual => exact ⟨_, (Except.ok.inj computed).symm⟩
  | greater | greaterEqual | less | lessEqual =>
    rw [compute] at computed
    exact numeric computed
  | _ => cases compares

end BinaryOp

/-! ## Expressions -/

/-- Some tokens are an expression that has a value and no effect, as a first and as a second
operand. An assignment has an effect, if only that of binding its name anew. -/
structure HasValue (limit : Nat) (w : World) (tokens : List Token) (d : Datum) : Prop where
  exists_tree : ∃ e : Expr, e.Derives .assignment tokens ∧
    (∀ name line value, e ≠ .assign name line value) ∧
    ∀ height ≤ 1, e.eval limit height w = .ok d w

namespace Expr

variable {limit height : Nat} {w w' : World} {a b d : Datum} {l r e : Expr} {op : BinaryOp}
  {tokens left right : List Token}

/-- Two operands without effects and an operation on their values are an expression without
effects. -/
theorem eval_binary (first : l.eval limit height w = .ok a w)
    (second : r.eval limit (height + 1) w = .ok b w) (computed : op.compute a b = .ok d) :
    (binary op l r).eval limit height w = .ok d w := by
  simp only [eval, bind, EStateM.bind, first, second, computed]
  rfl

/-- What an expression does is not a matter of its lines. -/
theorem Resembles.eval_eq {L : Nat → Nat → Prop} {e e' : Expr} (alike : e.Resembles L e')
    (limit height : Nat) : e'.eval limit height = e.eval limit height := by
  induction alike generalizing height with
  | literal | nil | bool | global => rfl
  | assign name _ _ ih => rw [eval, eval, ih]
  | group _ _ ih => exact ih height
  | unary op _ ih => rw [eval, eval, ih]
  | binary op _ _ ihl ihr => rw [eval, eval, ihl, ihr]

/-- The value of a comparison is a boolean. -/
theorem exists_bool_of_compares (compares : op.compares = Bool.true)
    (value : (binary op l r).eval limit height w = .ok d w') : ∃ truth, d = .bool truth := by
  simp only [eval, bind, EStateM.bind] at value
  cases first : l.eval limit height w with
  | error => rw [first] at value; cases value
  | ok a w₁ =>
    simp only [first] at value
    cases second : r.eval limit (height + 1) w₁ with
    | error => rw [second] at value; cases value
    | ok b w₂ =>
      simp only [second] at value
      cases computed : op.compute a b with
      | error => rw [computed] at value; cases value
      | ok d' =>
        rw [computed] at value
        cases value
        exact BinaryOp.exists_bool_of_compute compares computed

/-- What has a number for its value, and is no assignment, can be an operand of a comparison. -/
theorem Derives.term_of_value (h : e.Derives .assignment tokens)
    (plain : ∀ name line value, e ≠ .assign name line value)
    (value : e.eval limit height w = .ok d w') (number : ∀ truth, d ≠ .bool truth) :
    e.Derives .term tokens := by
  -- More loosely than a sum bind only assignments and comparisons.
  have tighter {k : Precedence} (h : e.Derives k tokens) (loose : k.rank < Precedence.term.rank) :
      e.Derives k.next tokens := by
    cases h with
    | primary | group | unary => exact absurd loose (by decide)
    | binary _ same =>
      subst same
      obtain ⟨truth, eq⟩ := exists_bool_of_compares (BinaryOp.compares_of_loose loose) value
      exact absurd eq (number truth)
    | assign => exact absurd rfl (plain _ _ _)
    | tighter h => exact h
  exact tighter (tighter (tighter h (by decide)) (by decide)) (by decide)

/-- Two operands of a comparison, and the comparison between them, are an expression. -/
theorem Derives.compare {t : Token} (first : l.Derives .term left) (second : r.Derives .term right)
    (sign : BinaryOp.ofKind? t.kind = some op) (compares : op.compares = Bool.true) :
    (Expr.binary op l r).Derives .assignment (left ++ t :: right) := by
  have loose := BinaryOp.loose_of_compares compares
  have next : op.precedence.rank ≤ Precedence.term.rank := by
    rw [Precedence.rank_next op.precedence_ne_unary] at loose
    omega
  exact (binary sign rfl (first.loosen next) (second.loosen loose)).loosen (Nat.zero_le _)

end Expr

/-- The value of an expression is not a matter of its lines. -/
theorem HasValue.resembles {L : Nat → Nat → Prop} {limit : Nat} {w : World}
    {tokens tokens' : List Token} {d : Datum} (value : HasValue limit w tokens d)
    (alike : List.Forall₂ (Token.Resembles L) tokens tokens') : HasValue limit w tokens' d := by
  obtain ⟨e, derives, plain, evaluated⟩ := value.exists_tree
  obtain ⟨e', derives', trees⟩ := derives.resembles alike
  refine ⟨e', derives', ?_, fun height le => ?_⟩
  · rintro name line inner rfl
    cases trees
    exact plain _ _ _ rfl
  · rw [trees.eval_eq]
    exact evaluated height le

/-! ## Main statement -/

/-- A machine answers sources that print a comparison of two expressions with its truth,
whatever the lines are on which the expressions stand. -/
def Machine.Tells (m : Machine) (left : List Token) (op : BinaryOp) (right : List Token)
    (truth : Bool) : Prop :=
  ∀ (source : String) (left' right' : List Token) (sign : Token),
    List.Forall₂ (Token.Resembles AnyLines) left left' →
    List.Forall₂ (Token.Resembles AnyLines) right right' →
    BinaryOp.ofKind? sign.kind = some op →
    PrintsOnly source (left' ++ sign :: right') → compiles source = true →
    ∃ after, m.interpret source = (.ok, after) ∧
      after.printed = m.printed ++ lineBytes (toString truth)

section Main

variable {settings : Settings} {output errors : Sink} {m : Machine} {left right : List Token}
  {a b : Datum}

/-- A machine at rest answers a comparison of two expressions with what it says of their values. -/
theorem Machine.Idle.tells {limit : Nat} (idle : m.Idle limit)
    (first : HasValue limit m.world left a) (second : HasValue limit m.world right b)
    (kind : a.OneKind b) {op : BinaryOp} (compares : op.compares = true) :
    m.Tells left op right (op.holds a b) := by
  intro source left' right' sign alikeLeft alikeRight spelled prints accepted
  obtain ⟨l, derivesLeft, plainLeft, valueLeft⟩ := (first.resembles alikeLeft).exists_tree
  obtain ⟨r, derivesRight, plainRight, valueRight⟩ := (second.resembles alikeRight).exists_tree
  have numbers : (∀ truth, a ≠ .bool truth) ∧ ∀ truth, b ≠ .bool truth := by
    cases kind <;> exact ⟨nofun, nofun⟩
  have operandLeft := derivesLeft.term_of_value plainLeft (valueLeft 0 (by omega)) numbers.1
  have operandRight := derivesRight.term_of_value plainRight (valueRight 1 le_rfl) numbers.2
  obtain ⟨e, endLine, derives, -, -, one⟩ := prints.exists_derives accepted
  obtain rfl := derives.unique_whole (operandLeft.compare operandRight spelled compares)
  have value := Expr.eval_binary (valueLeft 0 (by omega)) (valueRight 1 le_rfl)
    (BinaryOp.compute_of_oneKind compares kind)
  obtain ⟨after, answer, -, printed⟩ := idle.interpret_print accepted one value
  refine ⟨after, answer, ?_⟩
  rw [printed]
  cases op.holds a b <;> rfl

/-- **Comparisons are coherent, but for NaN.** Of two expressions without effects that have two
integers or two doubles for their values, an accepted source prints what each comparison says of
the values. `<` says what `>` says from the other side, and `!=` denies `==`. If neither value is
NaN, infinite or not and whatever the sign of a zero, `<=` says that `<` or `==` does, and `>=` that
`>` or `==` does. If one is NaN, then `<=` and `>=` hold, and `<`, `>` and `==` do not. -/
theorem comparisons_coherent (reliable : output.Reliable)
    (reached : Reached settings output errors m)
    (first : HasValue settings.stackMax m.world left a)
    (second : HasValue settings.stackMax m.world right b) (kind : a.OneKind b) :
    ∃ holds turned : BinaryOp → Bool,
      (∀ op : BinaryOp, op.compares = true →
        m.Tells left op right (holds op) ∧ m.Tells right op left (turned op)) ∧
      holds .less = turned .greater ∧ holds .greater = turned .less ∧
      holds .notEqual = !holds .equal ∧
      if a.isNaN || b.isNaN then
        holds .lessEqual = true ∧ holds .greaterEqual = true ∧
          holds .less = false ∧ holds .greater = false ∧ holds .equal = false
      else
        holds .lessEqual = (holds .less || holds .equal) ∧
          holds .greaterEqual = (holds .greater || holds .equal) := by
  have idle := reached.idle reliable
  refine ⟨(·.holds a b), (·.holds b a), fun op compares =>
    ⟨idle.tells first second kind compares, idle.tells second first kind.symm compares⟩, ?_⟩
  simp only [BinaryOp.holds, kind.order?_swap, ← kind.isNone_order?]
  rcases a.order? b with _ | order
  · exact ⟨rfl, rfl, rfl, rfl, rfl, rfl, rfl, rfl⟩
  · cases order <;> exact ⟨rfl, rfl, rfl, rfl, rfl⟩

end Main

/-! ## Infinities and NaN -/

/-- Tokens resemble themselves. -/
theorem resembles_self (tokens : List Token) :
    List.Forall₂ (Token.Resembles AnyLines) tokens tokens :=
  List.forall₂_same.2 fun _ _ => ⟨rfl, rfl, trivial⟩

/-- The tokens of a quotient of two numbers. -/
def quotient (a b : String) : List Token :=
  [⟨.number, a.toList, 1⟩, ⟨.slash, ['/'], 1⟩, ⟨.number, b.toList, 1⟩]

/-- A quotient of two numbers is an expression. -/
theorem derives_quotient (a b : String) :
    Expr.Derives .assignment (quotient a b) (.binary .divide
      (.ofNumber ⟨.number, a.toList, 1⟩) (.ofNumber ⟨.number, b.toList, 1⟩)) :=
  Expr.Derives.loosen (.binary (k := .factor) rfl rfl
    (.tighter (.primary (.number rfl))) (.primary (.number rfl))) (by decide)

/-- What one source prints is what all sources of that comparison print. -/
theorem Machine.Tells.eq {m : Machine} {left right : List Token} {op : BinaryOp}
    {truth truth' : Bool} (tells : m.Tells left op right truth) (source : String) (sign : Token)
    (spelled : BinaryOp.ofKind? sign.kind = some op)
    (prints : PrintsOnly source (left ++ sign :: right)) (accepted : compiles source = true)
    (printed : (m.interpret source).2.printed = m.printed ++ lineBytes (toString truth')) :
    truth = truth' := by
  obtain ⟨after, answer, told⟩ := tells source left right sign
    (resembles_self left) (resembles_self right) spelled prints accepted
  rw [answer, told, List.append_cancel_left_eq] at printed
  cases truth <;> cases truth' <;> first | rfl | exact absurd printed (by decide +kernel)

/-- An infinite quotient is no exception, and neither is a zero with a sign. -/
theorem comparisons_coherent_infinity :
    let m := Machine.create ⟨256, false⟩ .unlimited .unlimited
    let left := quotient "1.0" "0.0"
    let right : List Token := [⟨.minus, ['-'], 1⟩, ⟨.number, "0.0".toList, 1⟩]
    Sink.unlimited.Reliable ∧ HasValue 256 m.world left (.double (1.0 / 0.0)) ∧
      HasValue 256 m.world right (.double (-0.0)) ∧
      compiles "print 1.0 / 0.0 >= -0.0;" = true ∧
      ∃ holds : BinaryOp → Bool, holds .greaterEqual = (holds .greater || holds .equal) ∧
        ∃ after, m.interpret "print 1.0 / 0.0 >= -0.0;" = (.ok, after) ∧
          after.printed = lineBytes (toString (holds .greaterEqual)) := by
  intro m left right
  have reliable : Sink.unlimited.Reliable := ⟨fun _ _ => rfl, fun _ => rfl⟩
  have first : HasValue 256 m.world left (.double (1.0 / 0.0)) := by
    refine ⟨_, derives_quotient .., nofun, fun height le => ?_⟩
    rcases Nat.le_one_iff_eq_zero_or_eq_one.1 le with rfl | rfl <;> rfl
  have second : HasValue 256 m.world right (.double (-0.0)) := by
    refine ⟨_, Expr.Derives.loosen (.unary rfl (.primary (.number rfl))) (by decide), nofun,
      fun height le => ?_⟩
    rcases Nat.le_one_iff_eq_zero_or_eq_one.1 le with rfl | rfl <;> rfl
  have accepted : compiles "print 1.0 / 0.0 >= -0.0;" = true := by decide +kernel
  have prints : PrintsOnly "print 1.0 / 0.0 >= -0.0;"
      (left ++ ⟨.greaterEqual, ['>', '='], 1⟩ :: right) :=
    ⟨⟨⟨.keyword .printWord, "print".toList, 1⟩, ⟨.semicolon, [';'], 1⟩, rfl, rfl,
      by decide +kernel⟩, by decide +kernel⟩
  have reached : Reached ⟨256, false⟩ .unlimited .unlimited m := .create
  obtain ⟨holds, turned, tells, -, -, -, laws⟩ :=
    comparisons_coherent reliable reached first second (.doubles _ _)
  rw [if_neg (by decide +kernel)] at laws
  exact ⟨reliable, first, second, accepted, holds, laws.2,
    (tells .greaterEqual rfl).1 _ _ _ _ (resembles_self left) (resembles_self right) rfl prints
      accepted⟩

/-- **NaN is an exception.** Of `0.0 / 0.0` and `1.0`, `<=` says what neither `<` nor `==` does. -/
theorem comparisons_incoherent_of_nan :
    let m := Machine.create ⟨256, false⟩ .unlimited .unlimited
    let left := quotient "0.0" "0.0"
    let right : List Token := [⟨.number, "1.0".toList, 1⟩]
    HasValue 256 m.world left (.double (0.0 / 0.0)) ∧ HasValue 256 m.world right (.double 1.0) ∧
      (∃ holds : BinaryOp → Bool,
        ∀ op : BinaryOp, op.compares = true → m.Tells left op right (holds op)) ∧
      ¬ ∃ holds : BinaryOp → Bool,
        (∀ op : BinaryOp, op.compares = true → m.Tells left op right (holds op)) ∧
          holds .lessEqual = (holds .less || holds .equal) := by
  intro m left right
  have first : HasValue 256 m.world left (.double (0.0 / 0.0)) := by
    refine ⟨_, derives_quotient .., nofun, fun height le => ?_⟩
    rcases Nat.le_one_iff_eq_zero_or_eq_one.1 le with rfl | rfl <;> rfl
  have second : HasValue 256 m.world right (.double 1.0) := by
    refine ⟨_, Expr.Derives.loosen (.primary (.number rfl)) (by decide), nofun,
      fun height le => ?_⟩
    rcases Nat.le_one_iff_eq_zero_or_eq_one.1 le with rfl | rfl <;> rfl
  have reached : Reached ⟨256, false⟩ .unlimited .unlimited m := .create
  have idle : m.Idle 256 := reached.idle ⟨fun _ _ => rfl, fun _ => rfl⟩
  refine ⟨first, second,
    ⟨_, fun op compares => idle.tells first second (.doubles _ _) compares⟩, ?_⟩
  rintro ⟨holds, tells, law⟩
  have prints {source : String} {sign : Token}
      (scanned : (TokenStream.scan source.toList).tokens =
        ⟨.keyword .printWord, "print".toList, 1⟩ :: (left ++ sign :: right) ++
          [⟨.semicolon, [';'], 1⟩])
      (inside : ∀ t ∈ left ++ sign :: right, t.kind ≠ .semicolon) :
      PrintsOnly source (left ++ sign :: right) := ⟨⟨_, _, rfl, rfl, scanned⟩, inside⟩
  have lessEqual : holds .lessEqual = true :=
    (tells .lessEqual rfl).eq "print 0.0 / 0.0 <= 1.0;" ⟨.lessEqual, ['<', '='], 1⟩ rfl
      (prints (by decide +kernel) (by decide +kernel)) (by decide +kernel) (by decide +kernel)
  have less : holds .less = false :=
    (tells .less rfl).eq "print 0.0 / 0.0 < 1.0;" ⟨.less, ['<'], 1⟩ rfl
      (prints (by decide +kernel) (by decide +kernel)) (by decide +kernel) (by decide +kernel)
  have equal : holds .equal = false :=
    (tells .equal rfl).eq "print 0.0 / 0.0 == 1.0;" ⟨.equalEqual, ['=', '='], 1⟩ rfl
      (prints (by decide +kernel) (by decide +kernel)) (by decide +kernel) (by decide +kernel)
  rw [lessEqual, less, equal] at law
  cases law

end StackScript
