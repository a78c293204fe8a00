/-
# Doubles as decimal text

A double is written with six significant digits, rounded to nearest and a tie to the
even last digit. With `E` the decimal exponent of the rounded number:

| number | text |
| --- | --- |
| NaN | `nan` |
| infinities | `inf`, `-inf` |
| zeros | `0`, `-0` |
| `E < -4` or `6 ≤ E` | one digit, point, the others; `e`, sign, at least two digits |
| any other | positional |

Zeros at the end of a fraction are left out, and so is a point that nothing follows.
The rounding is exact: a finite double is a ratio of two integers, and `ofRatio`
divides integers only.
-/

namespace StackScript
namespace Decimal

/-- `num / den` rounded to the nearest integer, a half to the even neighbour. -/
def roundHalfEven (num den : Nat) : Nat :=
  let quotient := num / den
  let twice := 2 * (num % den)
  if twice < den then quotient
  else if den < twice then quotient + 1
  else quotient + quotient % 2

/-- The exponent of the leading decimal digit of an integer; that of `0` is `0`. -/
def leading (n : Nat) : Nat :=
  if n < 10 then 0 else leading (n / 10) + 1

/-- The power of ten at the leading digit does not exceed the number. -/
theorem leading_le {n : Nat} (h : 0 < n) : Nat.pow 10 (leading n) ≤ n := by
  fun_induction leading n with
  | case1 => simpa using Nat.succ_le_of_lt h
  | case2 n hn ih =>
    have := ih (by omega)
    simp only [Nat.pow_eq, Nat.pow_succ] at this ⊢
    omega

/-- The next power of ten does exceed it. -/
theorem lt_leading (n : Nat) : n < Nat.pow 10 (leading n + 1) := by
  fun_induction leading n with
  | case1 => simpa
  | case2 n hn ih =>
    simp only [Nat.pow_eq, Nat.pow_succ] at ih ⊢
    omega

/-- A positive number with six significant digits: `digits × 10 ^ (exponent - 5)`. -/
structure SixDigits where
  digits : Nat
  exponent : Int
  deriving DecidableEq

/-- `num / den × 10 ^ shift`, rounded. -/
def scaled (num den : Nat) (shift : Int) : Nat :=
  roundHalfEven (num * Nat.pow 10 shift.toNat) (den * Nat.pow 10 (-shift).toNat)

/-- Every positive double is above `10 ^ -depth`. -/
def depth : Nat := 324

/-- `num / den` rounded to six significant digits, for ratios above `10 ^ -depth`. A
number that rounds up to seven digits takes the next exponent. -/
def SixDigits.ofRatio (num den : Nat) : SixDigits :=
  let exponent : Int := leading (num * Nat.pow 10 depth / den) - depth
  let digits := scaled num den (5 - exponent)
  if digits = 1000000 then ⟨100000, exponent + 1⟩ else ⟨digits, exponent⟩

/-- The digits without the zeros at their end. -/
def trim (digits : List Char) : List Char :=
  (digits.reverse.dropWhile (· == '0')).reverse

/-- A whole part and a fraction, of which zeros at the end are left out. -/
def withFraction (whole fraction : List Char) : List Char :=
  match trim fraction with
  | [] => whole
  | kept => whole ++ '.' :: kept

/-- The exponent of exponent form: a sign and at least two digits. -/
def exponentText (e : Int) : List Char :=
  let digits := Nat.toDigits 10 e.natAbs
  (if e < 0 then '-' else '+') :: (List.replicate (2 - digits.length) '0' ++ digits)

/-- Exponent form stands outside these decimal exponents. -/
def positional (e : Int) : Bool :=
  -4 ≤ e && e < 6

/-- The text of a rounded number. -/
def SixDigits.text (r : SixDigits) : List Char :=
  let digits := Nat.toDigits 10 r.digits
  if positional r.exponent then
    if r.exponent < 0 then
      withFraction ['0'] (List.replicate (r.exponent.natAbs - 1) '0' ++ digits)
    else
      withFraction (digits.take (r.exponent.toNat + 1)) (digits.drop (r.exponent.toNat + 1))
  else
    withFraction (digits.take 1) (digits.drop 1) ++ 'e' :: exponentText r.exponent

/-- What a double is, by its bits: `finite m e` is `m × 2 ^ e`. -/
inductive Magnitude where
  | nan
  | infinite
  | finite (mantissa : Nat) (exponent : Int)
  deriving DecidableEq

/-- How many values the fraction bits of a double take. -/
def fractions : Nat := 0x10000000000000

/-- How many values the exponent bits of a double take. -/
def exponents : Nat := 0x800

/-- The sign bit of a double. -/
def isNegative (x : Float) : Bool :=
  x.toBits.toNat / (fractions * exponents) == 1

/-- The magnitude of a double: one sign bit, eleven exponent bits, fifty-two fraction
bits. -/
def Magnitude.ofFloat (x : Float) : Magnitude :=
  let biased := x.toBits.toNat / fractions % exponents
  let fraction := x.toBits.toNat % fractions
  if biased = exponents - 1 then
    if fraction = 0 then infinite else nan
  else if biased = 0 then finite fraction (-1074)
  else finite (fractions + fraction) (Int.ofNat biased - 1075)

/-- The text of a magnitude. -/
def Magnitude.text : Magnitude → List Char
  | nan => ['n', 'a', 'n']
  | infinite => ['i', 'n', 'f']
  | finite m e =>
    if m = 0 then ['0']
    else (SixDigits.ofRatio (m * Nat.pow 2 e.toNat) (Nat.pow 2 (-e).toNat)).text

/-- The text of a double. A NaN has no sign. -/
def text (x : Float) : List Char :=
  match Magnitude.ofFloat x with
  | .nan => Magnitude.nan.text
  | m => if isNegative x then '-' :: m.text else m.text

end Decimal
end StackScript
