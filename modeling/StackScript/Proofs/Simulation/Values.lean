/-
# Operations on values and on what they stand for

Each operation of the machine on values does to them what the operator of the source does
to what they stand for: it has the same fault, or its result stands for the operator's
(`Represents`). Integers of the machine wrap at every operation; the operators compute
with unbounded integers and wrap once. References are compared by handle, texts by
content; in one pool that is the same.

`>=`, `<=` and `!=` are two operations of the machine, the second of which negates.
-/
import StackScript.Proofs.Evaluator

namespace StackScript

/-- The machine has a value for what an evaluation gives, or both have the same fault. -/
inductive Represents (pool : StringPool) :
    Except RuntimeFault Value → Except RuntimeFault Datum → Prop where
  | ok {v : Value} {d : Datum} : v.content? pool = some d → Represents pool (.ok v) (.ok d)
  | error (fault : RuntimeFault) : Represents pool (.error fault) (.error fault)

/-- The values, each with what it stands for. -/
inductive Value.Denotes (pool : StringPool) : Value → Datum → Prop where
  | nil : Denotes pool .nil .nil
  | bool (b : Bool) : Denotes pool (.bool b) (.bool b)
  | int (n : Int32) : Denotes pool (.int n) (.int n)
  | double (x : Float) : Denotes pool (.double x) (.double x)
  | text {h : Handle} {s : StoredString} : pool.get? h = some s →
      Denotes pool (.object h) (.text s.bytes)

variable {pool : StringPool} {u v : Value} {a b d : Datum}

/-- A value with content denotes it. -/
theorem Value.denotes_of_content? (h : v.content? pool = some d) : v.Denotes pool d := by
  cases v with
  | object k =>
    obtain ⟨s, live, rfl⟩ := Option.map_eq_some_iff.1 h
    exact .text live
  | _ =>
    obtain rfl := Option.some.inj h
    constructor

/-! ## Integers -/

namespace Datum

/-- The exact negative is wrapped to that of the machine. -/
theorem wrap_neg (n : Int32) : wrap (-n.toInt) = int (-n) := by
  rw [wrap, Int32.ofInt_neg, Int32.ofInt_toInt]

/-- The exact sum is wrapped to that of the machine. -/
theorem wrap_add (m n : Int32) : wrap (m.toInt + n.toInt) = int (m + n) := by
  rw [wrap, Int32.ofInt_add, Int32.ofInt_toInt, Int32.ofInt_toInt]

/-- The exact difference is wrapped to that of the machine. -/
theorem wrap_sub (m n : Int32) : wrap (m.toInt - n.toInt) = int (m - n) := by
  rw [wrap, Int32.ofInt_sub, Int32.ofInt_toInt, Int32.ofInt_toInt]

/-- The exact product is wrapped to that of the machine. -/
theorem wrap_mul (m n : Int32) : wrap (m.toInt * n.toInt) = int (m * n) := by
  rw [wrap, Int32.ofInt_mul, Int32.ofInt_toInt, Int32.ofInt_toInt]

/-- The one quotient that does not fit wraps as that of the machine does. -/
theorem wrap_tdiv (m n : Int32) : wrap (m.toInt.tdiv n.toInt) = int (m / n) := by
  rw [wrap, Datum.int.injEq, Int32.ofInt_eq_iff_bmod_eq_toInt, Int32.toInt_div]

/-- Only zero is zero. -/
theorem toInt_eq_zero_iff (n : Int32) : n.toInt = 0 ↔ n = 0 := by
  rw [← Int32.toInt_inj, Int32.toInt_zero]

end Datum

/-! ## One value -/

/-- Whether a value counts as false is a matter of what it stands for. -/
theorem represents_isFalsey (h : v.content? pool = some d) :
    Represents pool (.ok (.bool v.isFalsey)) (UnaryOp.not.compute d) := by
  refine .ok ?_
  cases Value.denotes_of_content? h <;> rfl

/-- The negative of a value represents that of what it stands for. -/
theorem represents_negate (h : v.content? pool = some d) :
    Represents pool v.negate (UnaryOp.negate.compute d) := by
  cases Value.denotes_of_content? h with
  | int n =>
    rw [UnaryOp.compute, Datum.wrap_neg]
    exact .ok rfl
  | double x => exact .ok rfl
  | _ => exact .error _

/-- The text of a value is that of what it stands for. -/
theorem Value.text_eq_toText (h : v.content? pool = some d) : v.text pool = d.toText := by
  cases Value.denotes_of_content? h with
  | nil | int | double => rfl
  | bool b => cases b <;> rfl
  | text live =>
    rw [Value.text, live]
    rfl

/-! ## Two values -/

/-- Whether two values are the same is a matter of what they stand for. -/
theorem Value.same_eq_same (hu : u.content? pool = some a) (hv : v.content? pool = some b) :
    u.same v = a.same b := by
  cases Value.denotes_of_content? hu with
  | @text h s live =>
    cases Value.denotes_of_content? hv with
    | @text k t live' =>
      rw [Value.same, Datum.same, Bool.eq_iff_iff, beq_iff_eq, beq_iff_eq]
      refine ⟨?_, StringPool.eq_of_bytes_eq live live'⟩
      rintro rfl
      rw [Option.some.inj (live.symm.trans live')]
    | _ => rfl
  | _ => cases Value.denotes_of_content? hv <;> rfl

section Numeric

variable {ints : Int → Int → Except RuntimeFault Datum} {doubles : Float → Float → Datum}

/-- Arithmetic on values represents that on what they stand for, if it does so on integers. -/
theorem represents_arithmetic (op : ArithmeticOp)
    (hints : ∀ m n : Int32, Represents pool ((op.onInts m n).map .int) (ints m.toInt n.toInt))
    (hdoubles : ∀ x y, .double (op.onDoubles x y) = doubles x y)
    (hu : u.content? pool = some a) (hv : v.content? pool = some b) :
    Represents pool (Value.arithmetic op u v) (a.numeric ints doubles b) := by
  cases Value.denotes_of_content? hu with
  | int m =>
    cases Value.denotes_of_content? hv with
    | int n => exact hints m n
    | _ => exact .error _
  | double x =>
    cases Value.denotes_of_content? hv with
    | double y => exact .ok (congrArg some (hdoubles x y))
    | _ => exact .error _
  | _ => exact .error _

/-- A comparison of values represents that of what they stand for, if it does so of integers. -/
theorem represents_order (op : OrderOp)
    (hints : ∀ m n : Int32, .ok (.bool (op.onInts m n)) = ints m.toInt n.toInt)
    (hdoubles : ∀ x y, .bool (op.onDoubles x y) = doubles x y)
    (hu : u.content? pool = some a) (hv : v.content? pool = some b) :
    Represents pool (Value.order op u v) (a.numeric ints doubles b) := by
  cases Value.denotes_of_content? hu with
  | int m =>
    cases Value.denotes_of_content? hv with
    | int n =>
      rw [Value.order, Datum.numeric, ← hints]
      exact .ok rfl
    | _ => exact .error _
  | double x =>
    cases Value.denotes_of_content? hv with
    | double y => exact .ok (congrArg some (hdoubles x y))
    | _ => exact .error _
  | _ => exact .error _

end Numeric

/-- The operation `>` on values represents `>` on what they stand for. -/
theorem represents_greater (hu : u.content? pool = some a) (hv : v.content? pool = some b) :
    Represents pool (Value.order .greater u v) (BinaryOp.greater.compute a b) := by
  rw [BinaryOp.compute]
  refine represents_order .greater (fun m n => ?_) (fun _ _ => rfl) hu hv
  simp [OrderOp.onInts, Int32.lt_iff_toInt_lt]

/-- The operation `<` on values represents `<` on what they stand for. -/
theorem represents_less (hu : u.content? pool = some a) (hv : v.content? pool = some b) :
    Represents pool (Value.order .less u v) (BinaryOp.less.compute a b) := by
  rw [BinaryOp.compute]
  refine represents_order .less (fun m n => ?_) (fun _ _ => rfl) hu hv
  simp [OrderOp.onInts, Int32.lt_iff_toInt_lt]

/-- Numbers are added; what is not two texts is no other sum. -/
theorem represents_add (hu : u.content? pool = some a) (hv : v.content? pool = some b)
    (texts : ∀ s t, ¬ (a = .text s ∧ b = .text t)) :
    Represents pool (Value.arithmetic .add u v) (BinaryOp.add.compute a b) := by
  have numeric : BinaryOp.add.compute a b =
      a.numeric (fun m n => .ok (.wrap (m + n))) (fun x y => .double (x + y)) b := by
    unfold BinaryOp.compute
    split <;> simp_all
  rw [numeric]
  refine represents_arithmetic .add (fun m n => ?_) (fun _ _ => rfl) hu hv
  rw [Datum.wrap_add]
  exact .ok rfl

/-- A difference represents that of what the values stand for. -/
theorem represents_subtract (hu : u.content? pool = some a) (hv : v.content? pool = some b) :
    Represents pool (Value.arithmetic .subtract u v) (BinaryOp.subtract.compute a b) := by
  rw [BinaryOp.compute]
  refine represents_arithmetic .subtract (fun m n => ?_) (fun _ _ => rfl) hu hv
  rw [Datum.wrap_sub]
  exact .ok rfl

/-- A product represents that of what the values stand for. -/
theorem represents_multiply (hu : u.content? pool = some a) (hv : v.content? pool = some b) :
    Represents pool (Value.arithmetic .multiply u v) (BinaryOp.multiply.compute a b) := by
  rw [BinaryOp.compute]
  refine represents_arithmetic .multiply (fun m n => ?_) (fun _ _ => rfl) hu hv
  rw [Datum.wrap_mul]
  exact .ok rfl

/-- A quotient represents that of what the values stand for. -/
theorem represents_divide (hu : u.content? pool = some a) (hv : v.content? pool = some b) :
    Represents pool (Value.arithmetic .divide u v) (BinaryOp.divide.compute a b) := by
  rw [BinaryOp.compute]
  refine represents_arithmetic .divide (fun m n => ?_) (fun _ _ => rfl) hu hv
  rw [ArithmeticOp.onInts, Datum.wrap_tdiv]
  by_cases zero : n = 0
  · rw [if_pos zero, if_pos ((Datum.toInt_eq_zero_iff n).2 zero)]
    exact .error _
  · rw [if_neg zero, if_neg (mt (Datum.toInt_eq_zero_iff n).1 zero)]
    exact .ok rfl

/-! ## Operators in two operations -/

/-- Of integers, what is not below is the same or above. -/
theorem not_decide_int_lt (m n : Int) : (!decide (m < n)) = decide (n ≤ m) := by
  rw [← decide_not]
  exact decide_eq_decide.2 Int.not_lt

/-- The operation `>=` denies `<`. -/
theorem BinaryOp.compute_greaterEqual (a b : Datum) :
    greaterEqual.compute a b = less.compute a b >>= UnaryOp.not.compute := by
  cases a with
  | int m =>
    cases b with
    | int n =>
      have holds := not_decide_int_lt m.toInt n.toInt
      exact congrArg (fun b => (.ok (.bool b) : Except RuntimeFault Datum)) holds.symm
    | _ => rfl
  | double x => cases b <;> rfl
  | _ => rfl

/-- The operation `<=` denies `>`. -/
theorem BinaryOp.compute_lessEqual (a b : Datum) :
    lessEqual.compute a b = greater.compute a b >>= UnaryOp.not.compute := by
  cases a with
  | int m =>
    cases b with
    | int n =>
      have holds := not_decide_int_lt n.toInt m.toInt
      exact congrArg (fun b => (.ok (.bool b) : Except RuntimeFault Datum)) holds.symm
    | _ => rfl
  | double x => cases b <;> rfl
  | _ => rfl

end StackScript
