/-
# Rounding to six significant digits

Two roundings to nearest, and of two that are equally near to the even one: to an integer
(`Nearest`), and to six significant digits (`Rounds`). Either says which numbers it chooses
among, not how; either determines its result.

The numbers with six significant digits are `d × 10 ^ (E - 5)` with six digits in `d`. Their grid
is not even: at a power of ten the distance between neighbours changes. Two facts join both
roundings:

* To round to six digits, it is enough to look at the grid of the number's own decimal exponent.
  A rounding that is carried into the next power of ten stays the same number
  (`rounds_of_nearest`).
* With the exponent of the result, it is the rounding to an integer (`Rounds.nearest`). So
  whoever rounds once more, now with the digits behind the point that this exponent leaves, gets
  the same number.
-/
import Mathlib.Algebra.Order.Field.Power
import Mathlib.Data.Rat.Floor
import Mathlib.Tactic.FieldSimp
import Mathlib.Tactic.Linarith
import Mathlib.Tactic.NormNum
import Mathlib.Tactic.Positivity
import Mathlib.Tactic.Ring
import StackScript.Decimal

namespace StackScript
namespace Decimal

/-! ## Integers -/

/-- `n` is an integer nearest to `y`, and an even one if another is equally near. -/
structure Nearest (y : ℚ) (n : ℤ) : Prop where
  near (m : ℤ) : |y - n| ≤ |y - m|
  even (m : ℤ) : m ≠ n → |y - m| = |y - n| → Even n

namespace Nearest

variable {y : ℚ} {m n : ℤ}

/-- An integer within a half is nearest, if it is even where the distance is a half. -/
theorem of_le_half (half : |y - n| ≤ 1 / 2) (even : |y - n| = 1 / 2 → Even n) : Nearest y n := by
  -- Two different integers have the distance one at least.
  have apart (m : ℤ) (ne : m ≠ n) : 1 ≤ |y - n| + |y - m| := by
    have one : (1 : ℚ) ≤ |(m : ℚ) - n| := by
      exact_mod_cast Int.one_le_abs (sub_ne_zero.2 ne)
    calc (1 : ℚ) ≤ |(m : ℚ) - n| := one
      _ = |(y - n) - (y - m)| := by congr 1; ring
      _ ≤ |y - n| + |y - m| := abs_sub ..
  refine ⟨fun m => ?_, fun m ne eq => even ?_⟩
  · by_cases eq : m = n
    · rw [eq]
    · have := apart m eq
      linarith
  · have := apart m ne
    linarith

/-- The neighbours of an integer show that it is nearest. -/
theorem le_half_of_neighbours (above : |y - n| ≤ |y - (n + 1 : ℤ)|)
    (below : |y - n| ≤ |y - (n - 1 : ℤ)|) : |y - n| ≤ 1 / 2 := by
  push_cast at above below
  rw [← sq_le_sq] at above below
  rw [abs_le]
  constructor <;> nlinarith

/-- A number halfway between two integers is as near to a neighbour. -/
theorem exists_neighbour (half : |y - n| = 1 / 2) :
    ∃ m : ℤ, |m - n| = 1 ∧ |y - m| = |y - n| := by
  rcases (abs_eq (by norm_num)).1 half with above | below
  · refine ⟨n + 1, by simp, ?_⟩
    rw [half, show y - ((n + 1 : ℤ) : ℚ) = -(1 / 2) by push_cast; linarith, abs_neg]
    norm_num
  · refine ⟨n - 1, by simp, ?_⟩
    rw [half, show y - ((n - 1 : ℤ) : ℚ) = 1 / 2 by push_cast; linarith]
    norm_num

/-- The nearest integer is within a half. -/
theorem le_half (h : Nearest y n) : |y - n| ≤ 1 / 2 :=
  le_half_of_neighbours (h.near (n + 1)) (h.near (n - 1))

/-- Of two integers that are equally near, one is odd. -/
theorem eq_of_even (h : Nearest y n) (even : Even n) (even' : Even m)
    (same : |y - m| = |y - n|) : m = n := by
  obtain ⟨a, rfl⟩ := even
  obtain ⟨b, rfl⟩ := even'
  have half := h.le_half
  have close : |((b + b : ℤ) : ℚ) - (a + a : ℤ)| ≤ 1 := by
    calc |((b + b : ℤ) : ℚ) - (a + a : ℤ)|
        = |(y - (a + a : ℤ)) - (y - (b + b : ℤ))| := by congr 1; ring
      _ ≤ |y - (a + a : ℤ)| + |y - (b + b : ℤ)| := abs_sub ..
      _ ≤ 1 := by rw [same]; linarith
  have : |(b + b) - (a + a)| ≤ 1 := by exact_mod_cast close
  rw [abs_le] at this
  omega

/-- A number has one nearest integer. -/
theorem unique (h : Nearest y n) (h' : Nearest y m) : m = n := by
  by_contra ne
  have same : |y - m| = |y - n| := le_antisymm (h'.near n) (h.near m)
  exact ne (h.eq_of_even (h.even m ne same) (h'.even n (Ne.symm ne) same.symm) same)

/-- Rounding does not pass an integer. -/
theorem le_of_le (h : Nearest y n) (le : m ≤ y) : m ≤ n := by
  have := abs_le.1 h.le_half
  have : (m : ℚ) < (n + 1 : ℤ) := by
    push_cast
    linarith
  exact Int.lt_add_one_iff.1 (by exact_mod_cast this)

/-- What is not below an integer is not rounded below it. -/
theorem ge_of_ge (h : Nearest y n) (le : y ≤ m) : n ≤ m := by
  have := abs_le.1 h.le_half
  have : ((n : ℤ) : ℚ) < (m + 1 : ℤ) := by
    push_cast
    linarith
  exact Int.lt_add_one_iff.1 (by exact_mod_cast this)

end Nearest

/-- Dividing integers rounds their ratio to the nearest integer. -/
theorem nearest_roundHalfEven (num : ℕ) {den : ℕ} (pos : 0 < den) :
    Nearest (num / den) (roundHalfEven num den) := by
  have den_pos : (0 : ℚ) < den := by exact_mod_cast pos
  obtain ⟨quotient, hq⟩ : ∃ k, num / den = k := ⟨_, rfl⟩
  obtain ⟨rest, hr⟩ : ∃ k, num % den = k := ⟨_, rfl⟩
  have whole : den * quotient + rest = num := by rw [← hq, ← hr, Nat.div_add_mod]
  have split : (num : ℚ) / den = quotient + rest / den := by
    rw [← whole]
    push_cast
    field_simp
  have small : (rest : ℚ) / den < 1 := by
    rw [div_lt_one den_pos, ← hr]
    exact_mod_cast Nat.mod_lt num pos
  have nonneg : 0 ≤ (rest : ℚ) / den := by positivity
  rw [split]
  simp only [roundHalfEven, hq, hr]
  rcases Nat.lt_trichotomy (2 * rest) den with below | half | above
  · have : (rest : ℚ) / den < 1 / 2 := by
      rw [div_lt_div_iff₀ den_pos two_pos]
      exact_mod_cast (by omega : rest * 2 < 1 * den)
    rw [if_pos below]
    refine .of_le_half ?_ fun eq => ?_ <;> simp only [Int.cast_natCast, add_sub_cancel_left] at *
    · rw [abs_of_nonneg nonneg]
      exact this.le
    · rw [abs_of_nonneg nonneg] at eq
      linarith
  · have : (rest : ℚ) / den = 1 / 2 := by
      rw [div_eq_div_iff den_pos.ne' two_ne_zero]
      exact_mod_cast (by omega : rest * 2 = 1 * den)
    rw [if_neg (by omega), if_neg (by omega), this]
    refine .of_le_half (le_of_eq ?_) fun _ => ⟨(quotient + 1) / 2, by push_cast; omega⟩
    rcases Nat.mod_two_eq_zero_or_one quotient with even | odd
    · rw [even]
      norm_num
    · rw [odd]
      push_cast
      rw [abs_of_neg (by linarith)]
      ring
  · have : 1 / 2 < (rest : ℚ) / den := by
      rw [div_lt_div_iff₀ two_pos den_pos]
      exact_mod_cast (by omega : 1 * den < rest * 2)
    rw [if_neg (by omega), if_pos above]
    have distance : |(quotient : ℚ) + rest / den - ((quotient + 1 : ℕ) : ℤ)| = 1 - rest / den := by
      push_cast
      rw [abs_of_neg (by linarith)]
      ring
    refine .of_le_half ?_ fun eq => ?_ <;> rw [distance] at *
    · linarith
    · linarith

/-! ## Six digits -/

/-- The number whose six digits are `d`, with the decimal exponent `e`. -/
def decimal (d e : ℤ) : ℚ :=
  d * 10 ^ (e - 5)

/-- An integer has six digits. -/
def IsSix (d : ℤ) : Prop :=
  100000 ≤ |d| ∧ |d| < 1000000

/-- `decimal d e` is a number with six significant digits that is nearest to `q`; and if another
is equally near, its last digit is even. -/
structure Rounds (q : ℚ) (d e : ℤ) : Prop where
  six : IsSix d
  near (d' e' : ℤ) : IsSix d' → |q - decimal d e| ≤ |q - decimal d' e'|
  even (d' e' : ℤ) : IsSix d' → decimal d' e' ≠ decimal d e →
    |q - decimal d' e'| = |q - decimal d e| → Even d

section Grid

variable {q : ℚ} {d d' e e' n : ℤ}

/-- Powers of ten are positive. -/
theorem ten_zpow_pos (e : ℤ) : (0 : ℚ) < 10 ^ e :=
  zpow_pos (by norm_num) e

/-- A decimal of the opposite digits is the opposite decimal. -/
theorem decimal_neg (d e : ℤ) : decimal (-d) e = -decimal d e := by
  rw [decimal, decimal]
  push_cast
  ring

/-- A number of a grid is in every finer grid. -/
theorem decimal_refine (d : ℤ) (le : e ≤ e') :
    decimal d e' = decimal (d * 10 ^ (e' - e).toNat) e := by
  have exponent : e' - 5 = ((e' - e).toNat : ℤ) + (e - 5) := by omega
  rw [decimal, decimal, exponent, zpow_add₀ (by norm_num), zpow_natCast]
  push_cast
  ring

/-- In a grid, distances are those of integers. -/
theorem abs_sub_decimal (q : ℚ) (d e : ℤ) :
    |q - decimal d e| = |q * 10 ^ (5 - e) - d| * 10 ^ (e - 5) := by
  have unit : (10 : ℚ) ^ (5 - e) * 10 ^ (e - 5) = 1 := by
    rw [← zpow_add₀ (by norm_num), show 5 - e + (e - 5) = 0 by ring, zpow_zero]
  have scaled : q - decimal d e = (q * 10 ^ (5 - e) - d) * 10 ^ (e - 5) := by
    rw [sub_mul, mul_assoc, unit, mul_one, decimal]
  rw [scaled, abs_mul, abs_of_pos (ten_zpow_pos _)]

/-- Of two decimals with one exponent, the nearer one has the nearer digits. -/
theorem abs_sub_decimal_le_iff :
    |q - decimal d e| ≤ |q - decimal n e| ↔ |q * 10 ^ (5 - e) - d| ≤ |q * 10 ^ (5 - e) - n| := by
  rw [abs_sub_decimal, abs_sub_decimal, mul_le_mul_iff_left₀ (ten_zpow_pos _)]

/-- Two decimals with one exponent are equally near if their digits are. -/
theorem abs_sub_decimal_eq_iff :
    |q - decimal d e| = |q - decimal n e| ↔ |q * 10 ^ (5 - e) - d| = |q * 10 ^ (5 - e) - n| := by
  rw [abs_sub_decimal, abs_sub_decimal, mul_left_inj' (ten_zpow_pos _).ne']

/-- Decimals with one exponent are told apart by their digits. -/
theorem decimal_inj : decimal d e = decimal n e ↔ d = n := by
  rw [decimal, decimal, mul_left_inj' (ten_zpow_pos _).ne']
  exact_mod_cast Iff.rfl

/-- The magnitude of a decimal is that of its digits. -/
theorem abs_decimal (d e : ℤ) : |decimal d e| = |d| * 10 ^ (e - 5) := by
  rw [decimal, abs_mul, abs_of_pos (ten_zpow_pos _), Int.cast_abs]

/-- The decimal exponent of a number with six digits. -/
theorem IsSix.bounds (six : IsSix d) (e : ℤ) :
    10 ^ e ≤ |decimal d e| ∧ |decimal d e| < 10 ^ (e + 1) := by
  have low : (100000 : ℚ) ≤ |d| := by exact_mod_cast six.1
  have high : (|d| : ℚ) < 1000000 := by exact_mod_cast six.2
  have pos := ten_zpow_pos (e - 5)
  have lower : (10 : ℚ) ^ e = 100000 * 10 ^ (e - 5) := by
    rw [show e = 5 + (e - 5) by ring, zpow_add₀ (by norm_num)]
    norm_num
  have upper : (10 : ℚ) ^ (e + 1) = 1000000 * 10 ^ (e - 5) := by
    rw [show e + 1 = 6 + (e - 5) by ring, zpow_add₀ (by norm_num)]
    norm_num
  rw [abs_decimal, lower, upper]
  exact ⟨mul_le_mul_of_nonneg_right (by exact_mod_cast low) pos.le,
    mul_lt_mul_of_pos_right (by exact_mod_cast high) pos⟩

/-- A number is written with six digits in one way. -/
theorem IsSix.decimal_injective (six : IsSix d) (six' : IsSix d')
    (eq : decimal d e = decimal d' e') : d = d' ∧ e = e' := by
  obtain ⟨low, high⟩ := six.bounds e
  obtain ⟨low', high'⟩ := six'.bounds e'
  rw [← eq] at low' high'
  have le : e < e' + 1 := (zpow_lt_zpow_iff_right₀ (by norm_num)).1 (low.trans_lt high')
  have ge : e' < e + 1 := (zpow_lt_zpow_iff_right₀ (by norm_num)).1 (low'.trans_lt high)
  obtain rfl : e = e' := by omega
  exact ⟨decimal_inj.1 eq, rfl⟩

/-- Six digits are those of a number from 100000 up to 999999, with either sign. -/
theorem isSix_iff : IsSix d ↔ 100000 ≤ d ∧ d < 1000000 ∨ -1000000 < d ∧ d ≤ -100000 := by
  rw [IsSix, le_abs, abs_lt]
  omega

/-- The neighbours of a number with six digits in its grid have six digits, with some exponent. -/
theorem IsSix.exists_of_close (six : IsSix d) (close : |n - d| = 1) (e : ℤ) :
    ∃ d' e', IsSix d' ∧ decimal d' e' = decimal n e := by
  rw [abs_eq (by norm_num)] at close
  rw [isSix_iff] at six
  have coarser (d' : ℤ) (eq : d' * 10 = n) : decimal d' (e + 1) = decimal n e := by
    rw [decimal_refine d' (show e ≤ e + 1 by omega), show (e + 1 - e).toNat = 1 by omega, pow_one,
      eq]
  have finer : decimal (n * 10) (e - 1) = decimal n e := by
    rw [decimal_refine n (show e - 1 ≤ e by omega), show (e - (e - 1)).toNat = 1 by omega, pow_one]
  by_cases top : n = 1000000 ∨ n = -1000000
  · exact ⟨n / 10, e + 1, isSix_iff.2 (by omega), coarser _ (by omega)⟩
  · by_cases bottom : n = 99999 ∨ n = -99999
    · exact ⟨n * 10, e - 1, isSix_iff.2 (by omega), finer⟩
    · exact ⟨n, e, isSix_iff.2 (by omega), rfl⟩

namespace Rounds

/-- Rounding does not depend on the sign. -/
theorem neg (h : Rounds q d e) : Rounds (-q) (-d) e := by
  have mirrored (d' e' : ℤ) : |-q - decimal d' e'| = |q - decimal (-d') e'| := by
    rw [← abs_neg, decimal_neg]
    congr 1
    ring
  have six {d' : ℤ} (six : IsSix d') : IsSix (-d') := by rwa [IsSix, abs_neg]
  refine ⟨six h.six, fun d' e' six' => ?_, fun d' e' six' ne eq => ?_⟩
  · rw [mirrored, mirrored, neg_neg]
    exact h.near _ e' (six six')
  · rw [mirrored, mirrored, neg_neg] at eq
    refine (h.even _ e' (six six') (fun same => ne ?_) eq).neg
    rw [decimal_neg, ← same, decimal_neg, neg_neg]

/-- Rounding keeps the sign. -/
theorem of_abs (h : Rounds |q| d e) : Rounds q (if q < 0 then -d else d) e := by
  split_ifs with negative
  · rw [abs_of_neg negative] at h
    exact neg_neg q ▸ h.neg
  · rwa [abs_of_nonneg (not_lt.1 negative)] at h

/-- **With its exponent, a rounded number is the nearest integer.** -/
theorem nearest (h : Rounds q d e) : Nearest (q * 10 ^ (5 - e)) d := by
  have near (n : ℤ) (close : |n - d| = 1) :
      |q * 10 ^ (5 - e) - d| ≤ |q * 10 ^ (5 - e) - n| := by
    obtain ⟨d', e', six, eq⟩ := h.six.exists_of_close close e
    rw [← abs_sub_decimal_le_iff, ← eq]
    exact h.near d' e' six
  refine .of_le_half (Nearest.le_half_of_neighbours (near _ (by simp)) (near _ (by simp))) ?_
  intro half
  obtain ⟨n, close, same⟩ := Nearest.exists_neighbour half
  obtain ⟨d', e', six, eq⟩ := h.six.exists_of_close close e
  refine h.even d' e' six (fun same => ?_) ?_
  · rw [eq, decimal_inj] at same
    simp [same] at close
  · rw [eq, abs_sub_decimal_eq_iff, same]

/-- Two roundings of one number are the same decimal, whichever exponents they have. -/
theorem eq_of_le (h : Rounds q d e) (h' : Rounds q d' e') (le : e ≤ e') :
    decimal d' e' = decimal d e := by
  by_contra ne
  have same : |q - decimal d' e'| = |q - decimal d e| :=
    le_antisymm (h'.near d e h.six) (h.near d' e' h'.six)
  have even : Even d := h.even d' e' h'.six ne same
  have even' : Even d' := h'.even d e h.six (Ne.symm ne) same.symm
  rw [decimal_refine d' le] at ne same
  exact ne (decimal_inj.2
    (h.nearest.eq_of_even even (even'.mul_right _) (abs_sub_decimal_eq_iff.1 same)))

/-- **A number is rounded to six digits in one way.** -/
theorem unique (h : Rounds q d e) (h' : Rounds q d' e') : d' = d ∧ e' = e := by
  refine h'.six.decimal_injective h.six ?_
  rcases le_total e e' with le | le
  · exact h.eq_of_le h' le
  · exact (h'.eq_of_le h le).symm

end Rounds

/-- An integer that is nearest in the grid of a number's own decimal exponent is at least as near as
any number with six significant digits. -/
theorem Nearest.six (h : Nearest (q * 10 ^ (5 - e)) n) (le : 10 ^ e ≤ q) (six : IsSix d') :
    |q - decimal n e| ≤ |q - decimal d' e'| ∧
      (decimal d' e' ≠ decimal n e → |q - decimal d' e'| = |q - decimal n e| → Even n) := by
  rcases le_or_gt e e' with coarser | finer
  · rw [decimal_refine d' coarser]
    refine ⟨abs_sub_decimal_le_iff.2 (h.near _), fun ne same => ?_⟩
    exact h.even _ (fun eq => ne (congrArg (decimal · e) eq)) (abs_sub_decimal_eq_iff.1 same)
  · -- A finer grid ends below the number's own power of ten, which is in its grid.
    have power : decimal 100000 e = 10 ^ e := by
      rw [decimal, show e = 5 + (e - 5) by ring, zpow_add₀ (by norm_num)]
      norm_num
    have below : decimal d' e' < 10 ^ e := by
      calc decimal d' e' ≤ |decimal d' e'| := le_abs_self _
        _ < 10 ^ (e' + 1) := (six.bounds e').2
        _ ≤ 10 ^ e := zpow_le_zpow_right₀ (by norm_num) finer
    have worse : |q - decimal n e| < |q - decimal d' e'| := by
      calc |q - decimal n e| ≤ |q - decimal 100000 e| := abs_sub_decimal_le_iff.2 (h.near _)
        _ = q - 10 ^ e := by rw [power, abs_of_nonneg (by linarith)]
        _ < q - decimal d' e' := by linarith
        _ ≤ |q - decimal d' e'| := le_abs_self _
    exact ⟨worse.le, fun _ same => absurd same worse.ne'⟩

/-- **To round to six digits, it is enough to round to an integer** in the grid of the number's
own decimal exponent. What is carried into the next power of ten is the same number there. -/
theorem rounds_of_nearest (low : 10 ^ e ≤ q) (high : q < 10 ^ (e + 1))
    (h : Nearest (q * 10 ^ (5 - e)) n) :
    n = 1000000 ∧ Rounds q 100000 (e + 1) ∨ n ≠ 1000000 ∧ Rounds q n e := by
  have pos := ten_zpow_pos (5 - e)
  have lower : (10 : ℚ) ^ e * 10 ^ (5 - e) = (100000 : ℤ) := by
    rw [← zpow_add₀ (by norm_num), show e + (5 - e) = 5 by ring]
    norm_num
  have upper : (10 : ℚ) ^ (e + 1) * 10 ^ (5 - e) = (1000000 : ℤ) := by
    rw [← zpow_add₀ (by norm_num), show e + 1 + (5 - e) = 6 by ring]
    norm_num
  have above : 100000 ≤ n := h.le_of_le (lower ▸ mul_le_mul_of_nonneg_right low pos.le)
  have below : n ≤ 1000000 := h.ge_of_ge (upper ▸ mul_le_mul_of_nonneg_right high.le pos.le)
  by_cases carry : n = 1000000
  · refine .inl ⟨carry, ?_⟩
    have eq : decimal 100000 (e + 1) = decimal n e := by
      rw [decimal_refine _ (show e ≤ e + 1 by omega), show (e + 1 - e).toNat = 1 by omega, carry]
      norm_num
    refine ⟨isSix_iff.2 (by omega), fun d' e' six => ?_, fun d' e' six ne same => by decide⟩
    rw [eq]
    exact (h.six low six).1
  · refine .inr ⟨carry, isSix_iff.2 (by omega), fun d' e' six => (h.six low six).1,
      fun d' e' six => (h.six low six).2⟩

end Grid

/-! ## Ratios -/

section Ratio

variable {num den : ℕ}

/-- The decimal exponent of a ratio that is not below `10 ^ -depth`. -/
theorem leading_bounds (pos : 0 < den) (deep : den ≤ num * 10 ^ depth) :
    (10 : ℚ) ^ ((leading (num * 10 ^ depth / den) : ℤ) - depth) ≤ num / den ∧
      (num / den : ℚ) < 10 ^ ((leading (num * 10 ^ depth / den) : ℤ) - depth + 1) := by
  have den_pos : (0 : ℚ) < den := by exact_mod_cast pos
  have low := leading_le (Nat.div_pos deep pos)
  have high := lt_leading (num * 10 ^ depth / den)
  rw [Nat.pow_eq, Nat.le_div_iff_mul_le pos] at low
  rw [Nat.pow_eq, Nat.div_lt_iff_lt_mul pos] at high
  generalize leading (num * 10 ^ depth / den) = k at *
  have split (j : ℤ) : (10 : ℚ) ^ (j - depth) = 10 ^ j / 10 ^ depth := by
    rw [zpow_sub₀ (by norm_num), zpow_natCast]
  constructor
  · rw [split, div_le_div_iff₀ (by positivity) den_pos, zpow_natCast]
    exact_mod_cast low
  · rw [show (k : ℤ) - depth + 1 = ((k + 1 : ℕ) : ℤ) - depth by push_cast; ring, split,
      div_lt_div_iff₀ den_pos (by positivity), zpow_natCast]
    exact_mod_cast high

/-- Scaling rounds a quotient times a power of ten to the nearest integer. -/
theorem nearest_scaled (num : ℕ) (pos : 0 < den) (shift : ℤ) :
    Nearest (num / den * 10 ^ shift) (scaled num den shift) := by
  have den_pos : (0 : ℚ) < den := by exact_mod_cast pos
  have power : (10 : ℚ) ^ shift = 10 ^ shift.toNat / 10 ^ (-shift).toNat := by
    rw [← zpow_natCast, ← zpow_natCast, ← zpow_sub₀ (by norm_num)]
    congr 1
    omega
  have ratio : (num / den * 10 ^ shift : ℚ) =
      (num * 10 ^ shift.toNat : ℕ) / (den * 10 ^ (-shift).toNat : ℕ) := by
    rw [power]
    push_cast
    field_simp
  rw [ratio]
  exact nearest_roundHalfEven _ (Nat.mul_pos pos (Nat.pow_pos (by norm_num)))

/-- **A ratio is rounded correctly.** -/
theorem rounds_ofRatio (pos : 0 < den) (deep : den ≤ num * 10 ^ depth) :
    Rounds (num / den) (SixDigits.ofRatio num den).digits (SixDigits.ofRatio num den).exponent := by
  obtain ⟨e, exponent⟩ : ∃ e : ℤ, (leading (num * 10 ^ depth / den) : ℤ) - depth = e := ⟨_, rfl⟩
  obtain ⟨low, high⟩ := leading_bounds pos deep
  rw [exponent] at low high
  simp only [SixDigits.ofRatio, Nat.pow_eq, exponent]
  rcases rounds_of_nearest low high (nearest_scaled num pos (5 - e)) with
    ⟨carry, rounds⟩ | ⟨no, rounds⟩
  · rw [if_pos (by exact_mod_cast carry)]
    exact rounds
  · rw [if_neg (by exact_mod_cast no)]
    exact rounds

end Ratio
end Decimal
end StackScript
