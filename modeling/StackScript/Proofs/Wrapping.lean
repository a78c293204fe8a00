/-
# Integer expressions compute modulo 2^32

An arithmetic expression is made of integer literals, `+`, `-`, `*` and parentheses. What it
amounts to, over all integers, is said on its tokens (`AmountsTo`), with the precedences of
the grammar and chains from the left:

| tokens | amount |
| --- | --- |
| a literal | its decimal value |
| `( e )` | that of `e` |
| `- e` | the negative |
| `l * r`, `l + r`, `l - r` | the product, the sum, the difference |

The machine wraps after every operation, and has no larger integers in between. That does
not matter, because wrapping is a map of rings: wrapped operands give the wrapped result
(`BinaryOp.compute_wrap`). A quotient is no ring operation, so what is said of it is said of
one division: it is the exact quotient, rounded toward zero and then wrapped.
-/
import Mathlib.Data.Int.ModEq
import StackScript.Proofs.Literals

namespace StackScript

/-! ## Amounts -/

/-- The tokens of arithmetic expressions. -/
def Token.isArithmetic (t : Token) : Bool :=
  match t.kind with
  | .number => '.' ∉ t.text
  | .plus | .minus | .star | .leftParen | .rightParen => true
  | _ => false

/-- Some tokens that are an arithmetic expression at a precedence, with the integer that it
amounts to. -/
inductive AmountsTo : Precedence → List Token → Int → Prop
  | literal {t : Token} : t.kind = .number → '.' ∉ t.text →
      AmountsTo .unary [t] (Nat.ofDigitChars 10 t.text 0)
  | group {left right : Token} {tokens : List Token} {n : Int} : left.kind = .leftParen →
      AmountsTo .assignment tokens n → right.kind = .rightParen →
        AmountsTo .unary (left :: tokens ++ [right]) n
  | negative {t : Token} {tokens : List Token} {n : Int} : t.kind = .minus →
      AmountsTo .unary tokens n → AmountsTo .unary (t :: tokens) (-n)
  | product {t : Token} {left right : List Token} {m n : Int} : t.kind = .star →
      AmountsTo .factor left m → AmountsTo .unary right n →
        AmountsTo .factor (left ++ t :: right) (m * n)
  | sum {t : Token} {left right : List Token} {m n : Int} : t.kind = .plus →
      AmountsTo .term left m → AmountsTo .factor right n →
        AmountsTo .term (left ++ t :: right) (m + n)
  | difference {t : Token} {left right : List Token} {m n : Int} : t.kind = .minus →
      AmountsTo .term left m → AmountsTo .factor right n →
        AmountsTo .term (left ++ t :: right) (m - n)
  | tighter {k : Precedence} {tokens : List Token} {n : Int} :
      AmountsTo k.next tokens n → AmountsTo k tokens n

/-- The operation on integers that an operator stands for, if it is a ring operation. -/
def BinaryOp.ring? : BinaryOp → Option (Int → Int → Int)
  | add => some (· + ·)
  | subtract => some (· - ·)
  | multiply => some (· * ·)
  | _ => none

/-- The integer that an arithmetic tree amounts to. -/
def Expr.amount? : Expr → Option Int
  | literal (.int n) _ => some n.toInt
  | group inner _ => inner.amount?
  | unary .negate operand => operand.amount?.map (- ·)
  | binary op left right => do return (← op.ring?) (← left.amount?) (← right.amount?)
  | _ => none

/-! ## Trees and tokens amount to the same -/

/-- An integer literal in range is what its digits say. -/
theorem Expr.amount?_ofNumber {t : Token} (whole : '.' ∉ t.text)
    (small : Nat.ofDigitChars 10 t.text 0 ≤ Literal.maxInt) :
    (ofNumber t).amount? = some (Nat.ofDigitChars 10 t.text 0 : Int) := by
  have value : Literal.ofNumber? t.text = some (.int (.ofNat (Nat.ofDigitChars 10 t.text 0))) := by
    rw [Literal.ofNumber?_of_whole whole, if_pos small]
  rw [Literal.maxInt] at small
  rw [ofNumber, value, amount?, Int32.toInt_ofNat_of_lt (by omega)]

/-- Tokens that amount to something have a tree that does. -/
theorem AmountsTo.exists_derives {k : Precedence} {tokens : List Token} {n : Int}
    (h : AmountsTo k tokens n) (range : ∀ t ∈ tokens, t.InRange) :
    ∃ e : Expr, e.Derives k tokens ∧ e.amount? = some n := by
  induction h with
  | literal number whole =>
    have small := range _ (List.mem_singleton_self _) number whole
    exact ⟨_, .primary (.number number), Expr.amount?_ofNumber whole small⟩
  | group opened _ closed ih =>
    obtain ⟨e, derives, amount⟩ := ih fun t mem => range t (by simp [mem])
    exact ⟨_, .group opened derives closed, amount⟩
  | negative minus _ ih =>
    obtain ⟨e, derives, amount⟩ := ih fun t mem => range t (List.mem_cons_of_mem _ mem)
    exact ⟨.unary .negate e, .unary (by rw [minus]; rfl) derives, by rw [Expr.amount?, amount]; rfl⟩
  | product sign _ _ ihl ihr | sum sign _ _ ihl ihr | difference sign _ _ ihl ihr =>
    obtain ⟨l, first, left⟩ := ihl fun t mem => range t (List.mem_append_left _ mem)
    obtain ⟨r, second, right⟩ := ihr fun t mem =>
      range t (List.mem_append_right _ (List.mem_cons_of_mem _ mem))
    refine ⟨_, .binary (by rw [sign]; rfl) rfl first second, ?_⟩
    rw [Expr.amount?, left, right]
    rfl
  | tighter _ ih =>
    obtain ⟨e, derives, amount⟩ := ih range
    exact ⟨e, .tighter derives, amount⟩

/-- An expression of arithmetic tokens amounts to something. -/
theorem Expr.Derives.exists_amountsTo {k : Precedence} {tokens : List Token} {e : Expr}
    (h : e.Derives k tokens) (arithmetic : ∀ t ∈ tokens, t.isArithmetic = Bool.true) :
    ∃ n, AmountsTo k tokens n := by
  induction h with
  | @primary t e h =>
    have plain := arithmetic t (List.mem_singleton_self t)
    rw [Token.isArithmetic] at plain
    cases h with
    | number kind => exact ⟨_, .literal kind (by simpa [kind] using plain)⟩
    | _ kind => simp [kind] at plain
  | group opened _ closed ih =>
    obtain ⟨n, amounts⟩ := ih fun t mem => arithmetic t (by simp [mem])
    exact ⟨n, .group opened amounts closed⟩
  | @unary t op tokens e kind _ ih =>
    obtain ⟨n, amounts⟩ := ih fun u mem => arithmetic u (List.mem_cons_of_mem t mem)
    have plain := arithmetic t (List.mem_cons_self ..)
    rw [Token.isArithmetic] at plain
    -- The other operator in front of an operand is no arithmetic token.
    have minus : t.kind = .minus := by
      cases eq : t.kind <;> simp_all [UnaryOp.ofKind?]
    exact ⟨-n, .negative minus amounts⟩
  | @binary k t op left right l r kind bound _ _ ihl ihr =>
    obtain ⟨m, first⟩ := ihl fun u mem => arithmetic u (List.mem_append_left _ mem)
    obtain ⟨n, second⟩ := ihr fun u mem =>
      arithmetic u (List.mem_append_right _ (List.mem_cons_of_mem t mem))
    have plain := arithmetic t (List.mem_append_right _ (List.mem_cons_self ..))
    rw [Token.isArithmetic] at plain
    have sign : t.kind = .plus ∧ op = .add ∨ t.kind = .minus ∧ op = .subtract ∨
        t.kind = .star ∧ op = .multiply := by
      cases eq : t.kind <;> simp_all [BinaryOp.ofKind?]
    subst bound
    rcases sign with ⟨plus, rfl⟩ | ⟨minus, rfl⟩ | ⟨star, rfl⟩
    · exact ⟨m + n, .sum plus first second⟩
    · exact ⟨m - n, .difference minus first second⟩
    · exact ⟨m * n, .product star first second⟩
  | @assign name sign tokens e named _ _ =>
    have plain := arithmetic name (List.mem_cons_self ..)
    simp [Token.isArithmetic, named] at plain
  | tighter _ ih =>
    obtain ⟨n, amounts⟩ := ih arithmetic
    exact ⟨n, .tighter amounts⟩

/-- Tokens have one tree at most. -/
theorem Expr.Derives.unique_whole {tokens : List Token} {e e' : Expr}
    (h : e.Derives .assignment tokens) (h' : e'.Derives .assignment tokens) : e = e' := by
  have plain : ∀ t ∈ tokens ++ [], t.isFault = Bool.false := by simpa using h.not_isFault
  exact (h.unique h' rfl plain nofun nofun).1

/-- Some tokens amount to one integer at most. -/
theorem AmountsTo.unique {tokens : List Token} {m n : Int} (hm : AmountsTo .assignment tokens m)
    (hn : AmountsTo .assignment tokens n) (range : ∀ t ∈ tokens, t.InRange) : m = n := by
  obtain ⟨e, derives, amount⟩ := hm.exists_derives range
  obtain ⟨e', derives', amount'⟩ := hn.exists_derives range
  obtain rfl := derives.unique_whole derives'
  exact Option.some.inj (amount.symm.trans amount')

/-! ## Wrapping is a map of rings -/

/-- Wrapping a negative is taking the negative of what was wrapped. -/
theorem UnaryOp.compute_wrap (n : Int) : negate.compute (.wrap n) = .ok (.wrap (-n)) := by
  rw [Datum.wrap, compute, Datum.wrap_neg, ← Int32.ofInt_neg]
  rfl

/-- Wrapped operands of a ring operation give the wrapped result. -/
theorem BinaryOp.compute_wrap {op : BinaryOp} {f : Int → Int → Int} (ring : op.ring? = some f)
    (m n : Int) : op.compute (.wrap m) (.wrap n) = .ok (.wrap (f m n)) := by
  cases op <;> cases ring
  case add =>
    rw [Datum.wrap, Datum.wrap, compute, Datum.numeric, Datum.wrap_add, ← Int32.ofInt_add]
    · rfl
    · intro _ _ text
      cases text
  case subtract =>
    rw [Datum.wrap, Datum.wrap, compute, Datum.numeric, Datum.wrap_sub, ← Int32.ofInt_sub]
    rfl
  case multiply =>
    rw [Datum.wrap, Datum.wrap, compute, Datum.numeric, Datum.wrap_mul, ← Int32.ofInt_mul]
    rfl

/-- **An arithmetic tree evaluates to its amount, wrapped,** whatever overflows on the way. -/
theorem Expr.eval_of_amount? {e : Expr} {n : Int} (amount : e.amount? = some n)
    {limit height : Nat} (room : height + e.nesting ≤ limit) (w : World) :
    e.eval limit height w = .ok (.wrap n) w := by
  induction e generalizing n height with
  | literal value line =>
    cases value with
    | int k =>
      obtain rfl := Option.some.inj amount
      have free : height < limit := room
      rw [eval, Evaluation.hold, if_pos free, Datum.wrap, Int32.ofInt_toInt]
      rfl
    | _ => cases amount
  | group inner line ih =>
    rw [nesting] at room
    exact ih amount (by omega)
  | unary op operand ih =>
    cases op with
    | not => cases amount
    | negate =>
      obtain ⟨m, inner, rfl⟩ := Option.map_eq_some_iff.1 amount
      rw [nesting] at room
      exact eval_unary (ih inner (by omega)) (UnaryOp.compute_wrap m)
  | binary op left right ihl ihr =>
    simp only [amount?, Option.bind_eq_bind, Option.bind_eq_some_iff, Option.pure_def,
      Option.some.injEq] at amount
    obtain ⟨f, ring, m, first, k, second, rfl⟩ := amount
    rw [nesting] at room
    have before : left.eval limit height w = .ok (.wrap m) w := ihl first (by omega)
    have behind : right.eval limit (height + 1) w = .ok (.wrap k) w := ihr second (by omega)
    simp only [eval, bind, EStateM.bind, before, behind, BinaryOp.compute_wrap ring]
    rfl
  | _ => cases amount

/-- A number of 32 bits is congruent to an integer if that wraps to it. -/
theorem toInt_modEq_iff {k : Int32} {n : Int} :
    k.toInt ≡ n [ZMOD 2 ^ 32] ↔ .ofInt n = k := by
  rw [Int32.ofInt_eq_iff_bmod_eq_toInt]
  constructor
  · intro congruent
    have same : n % (2 ^ 32 : Nat) = k.toInt % (2 ^ 32 : Nat) := congruent.symm
    rw [← Int.emod_bmod, same, Int.emod_bmod]
    exact (Int32.ofInt_eq_iff_bmod_eq_toInt ..).1 (Int32.ofInt_toInt k)
  · intro wrapped
    rw [← wrapped]
    exact Int.bmod_emod

/-- The only number of 32 bits that is congruent to an integer. -/
theorem toInt_ofInt_modEq (n : Int) : (Int32.ofInt n).toInt ≡ n [ZMOD 2 ^ 32] ∧
    ∀ k : Int32, k.toInt ≡ n [ZMOD 2 ^ 32] → k = .ofInt n :=
  ⟨toInt_modEq_iff.2 rfl, fun _ congruent => (toInt_modEq_iff.1 congruent).symm⟩

/-! ## Main statement -/

variable {settings : Settings} {output errors : Sink}

/-- **Integer expressions compute modulo 2^32.** An accepted source that prints an arithmetic
expression prints the one number of 32 bits that is congruent to what its tokens amount to,
whatever overflows on the way; 256 places on the stack are enough. And every division of two
integers, the second of which is not zero, leaves the one number of 32 bits that is congruent
to the exact quotient, rounded toward zero. -/
theorem integers_compute_modulo (reliable : output.Reliable) (room : 256 ≤ settings.stackMax) :
    (∀ (m : Machine) (source : String) (tokens : List Token),
      Reached settings output errors m → PrintsOnly source tokens →
      (∀ t ∈ tokens, t.isArithmetic = true) → compiles source = true →
      ∃ n : Int, AmountsTo .assignment tokens n ∧
        (∀ other, AmountsTo .assignment tokens other → other = n) ∧
        ∃ k : Int32, k.toInt ≡ n [ZMOD 2 ^ 32] ∧
          (∀ other : Int32, other.toInt ≡ n [ZMOD 2 ^ 32] → other = k) ∧
          ∃ after, m.interpret source = (.ok, after) ∧
            after.printed = m.printed ++ lineBytes (toString k.toInt)) ∧
    ∀ (m : Machine) (constants : List Value) (a b : Int32) (below : List Value),
      m.stack.values = .int b :: .int a :: below → b ≠ 0 →
      ∃ q : Int32, q.toInt ≡ a.toInt.tdiv b.toInt [ZMOD 2 ^ 32] ∧
        (∀ other : Int32, other.toInt ≡ a.toInt.tdiv b.toInt [ZMOD 2 ^ 32] → other = q) ∧
        ∃ fits, m.step constants .divide = .next (m.withValues (.int q :: below) fits) := by
  constructor
  · intro m source tokens reached prints arithmetic accepted
    obtain ⟨e, endLine, derives, deep, range, one⟩ := prints.exists_derives accepted
    obtain ⟨n, amounts⟩ := derives.exists_amountsTo arithmetic
    have unique (other : Int) (h : AmountsTo .assignment tokens other) : other = n :=
      h.unique amounts range
    -- The tree that the amount is read off is the one that the source has.
    obtain ⟨e', derives', amount⟩ := amounts.exists_derives range
    obtain rfl := derives.unique_whole derives'
    have value : e.eval settings.stackMax 0 m.world = .ok (.wrap n) m.world :=
      Expr.eval_of_amount? amount (by rw [Parser.maxNesting] at deep; omega) m.world
    obtain ⟨after, answer, -, printed⟩ :=
      (reached.idle reliable).interpret_print accepted one value
    obtain ⟨congruent, only⟩ := toInt_ofInt_modEq n
    exact ⟨n, amounts, unique, _, congruent, only, after, answer, printed⟩
  · intro m constants a b below top nonzero
    have quotient : Value.arithmetic .divide (.int a) (.int b) = .ok (.int (a / b)) := by
      rw [Value.arithmetic, ArithmeticOp.onInts, if_neg nonzero]
      rfl
    have wrapped : Int32.ofInt (a.toInt.tdiv b.toInt) = a / b :=
      Datum.int.inj (Datum.wrap_tdiv a b)
    obtain ⟨congruent, only⟩ := toInt_ofInt_modEq (a.toInt.tdiv b.toInt)
    rw [wrapped] at congruent only
    obtain ⟨fits, divided⟩ := Machine.mapTop2_of_ok top quotient
    exact ⟨a / b, congruent, only, fits, by rw [Machine.step, divided]; rfl⟩

/-- The greatest number and one more is the least number, and so is the quotient of the least
number by `-1`. -/
theorem integers_compute_modulo_greatest :
    let m := Machine.create ⟨256, false⟩ .unlimited .unlimited
    Sink.unlimited.Reliable ∧ compiles "print 2147483647 + 1;" = true ∧
      (∃ after, m.interpret "print 2147483647 + 1;" = (.ok, after) ∧
        after.printed = lineBytes "-2147483648") ∧
      ∃ fits, ({ m with stack := ⟨[.int (-1), .int (-2147483648)], 256, by decide⟩ }).step
        [] .divide = .next (m.withValues [.int (-2147483648)] fits) := by
  intro m
  have reliable : Sink.unlimited.Reliable := ⟨fun _ _ => rfl, fun _ => rfl⟩
  have accepted : compiles "print 2147483647 + 1;" = true := by decide +kernel
  let tokens : List Token :=
    [⟨.number, "2147483647".toList, 1⟩, ⟨.plus, ['+'], 1⟩, ⟨.number, ['1'], 1⟩]
  have prints : PrintsOnly "print 2147483647 + 1;" tokens :=
    ⟨⟨⟨.keyword .printWord, "print".toList, 1⟩, ⟨.semicolon, [';'], 1⟩, rfl, rfl,
      by decide +kernel⟩, by decide +kernel⟩
  have greatest : AmountsTo .term [⟨.number, "2147483647".toList, 1⟩]
      (Nat.ofDigitChars 10 "2147483647".toList 0 : Nat) :=
    .tighter (.tighter (.literal rfl (by decide +kernel)))
  have one : AmountsTo .factor [⟨.number, ['1'], 1⟩] (Nat.ofDigitChars 10 ['1'] 0 : Nat) :=
    .tighter (.literal rfl (by decide +kernel))
  have amounts : AmountsTo .assignment tokens
      ((Nat.ofDigitChars 10 "2147483647".toList 0 : Nat) + (Nat.ofDigitChars 10 ['1'] 0 : Nat)) :=
    .tighter (.tighter (.tighter (.sum rfl greatest one)))
  have room : 256 ≤ (⟨256, false⟩ : Settings).stackMax := Nat.le_refl 256
  obtain ⟨sums, quotients⟩ := integers_compute_modulo reliable room
  refine ⟨reliable, accepted, ?_, ?_⟩
  · obtain ⟨n, -, unique, k, -, only, after, answer, printed⟩ :=
      sums m _ tokens .create prints (by decide +kernel) accepted
    obtain rfl := unique _ amounts
    obtain rfl := only (-2147483648) (by decide +kernel)
    exact ⟨after, answer, printed⟩
  · obtain ⟨q, -, only, fits, divided⟩ := quotients
      { m with stack := ⟨[.int (-1), .int (-2147483648)], 256, by decide⟩ } []
      (-2147483648) (-1) [] rfl (by decide)
    obtain rfl := only (-2147483648) (by decide +kernel)
    exact ⟨fits, divided⟩

end StackScript
