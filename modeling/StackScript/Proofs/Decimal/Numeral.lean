/-
# Decimal numerals

A numeral is written as

| part | text |
| --- | --- |
| sign | `-`, or nothing |
| whole part | digits, one at least |
| fraction | a point and digits, or nothing |
| exponent | `e`, a sign and digits, or nothing |

and stands for a rational number (`Numeral.value`). A text is that of one numeral at most
(`Numeral.text_injective`), so it denotes one number at most.

The text of a rounded number is that of a numeral for it (`SixDigits.numeral`). Where the point
stands among the digits depends on the exponent; leaving out zeros at the end of a fraction changes
nothing but the text.
-/
import Mathlib.Data.List.DropRight
import StackScript.Proofs.Decimal.Rounding
import StackScript.Proofs.Scanning.Lexicon

namespace StackScript
namespace Decimal

/-! ## Digits -/

/-- Some characters are digits. -/
def AreDigits (s : List Char) : Prop :=
  ∀ c ∈ s, c.isDigit = true

/-- A number is written in digits. -/
theorem areDigits_toDigits (n : ℕ) : AreDigits (Nat.toDigits 10 n) :=
  fun _ mem => Nat.isDigit_of_mem_toDigits (by decide) (by decide) mem

/-- Zeros are digits. -/
theorem areDigits_replicate (n : ℕ) : AreDigits (List.replicate n '0') := by
  intro c mem
  rw [List.eq_of_mem_replicate mem]
  decide

namespace AreDigits

variable {s t : List Char}

/-- Digits that follow digits are digits. -/
theorem append (first : AreDigits s) (second : AreDigits t) : AreDigits (s ++ t) :=
  fun c mem => (List.mem_append.1 mem).elim (first c) (second c)

/-- Some of the characters of digits are digits. -/
theorem of_subset (sub : t ⊆ s) (digits : AreDigits s) : AreDigits t :=
  fun c mem => digits c (sub mem)

/-- Digits end where something else begins. -/
theorem append_inj {s' rest rest' : List Char} (digits : AreDigits s) (digits' : AreDigits s')
    (ends : ∀ c ∈ rest.head?, c.isDigit = false) (ends' : ∀ c ∈ rest'.head?, c.isDigit = false)
    (eq : s ++ rest = s' ++ rest') : s = s' ∧ rest = rest' :=
  append_inj_of_stop digits digits' ends ends' eq

end AreDigits

/-! ## Numerals -/

/-- A sign in front of a numeral. -/
def signText (negative : Bool) : List Char :=
  if negative then ['-'] else []

/-- A decimal numeral, as it is written. -/
@[ext]
structure Numeral where
  negative : Bool
  whole : List Char
  fraction : Option (List Char)
  /-- Whether the exponent has a minus sign, and its digits. -/
  exponent : Option (Bool × List Char)
  whole_ne_nil : whole ≠ []
  whole_digits : AreDigits whole
  fraction_digits : ∀ f ∈ fraction, AreDigits f
  exponent_digits : ∀ e ∈ exponent, AreDigits e.2

namespace Numeral

/-- The point and the fraction behind it. -/
def fractionText : Option (List Char) → List Char
  | none => []
  | some f => '.' :: f

/-- The letter, the sign and the digits of an exponent. -/
def exponentPart : Option (Bool × List Char) → List Char
  | none => []
  | some (negative, digits) => 'e' :: (if negative then '-' else '+') :: digits

def text (n : Numeral) : List Char :=
  signText n.negative ++ n.whole ++ fractionText n.fraction ++ exponentPart n.exponent

/-- The number that digits around a point stand for. -/
def pointed (whole fraction : List Char) : ℚ :=
  Nat.ofDigitChars 10 (whole ++ fraction) 0 / 10 ^ fraction.length

/-- The power of ten that an exponent stands for; without one it is the power `0`. -/
def power : Option (Bool × List Char) → ℤ
  | none => 0
  | some (negative, digits) => (if negative then -1 else 1) * (Nat.ofDigitChars 10 digits 0 : ℤ)

/-- The number that a numeral stands for. -/
def value (n : Numeral) : ℚ :=
  (if n.negative then -1 else 1) * pointed n.whole (n.fraction.getD []) * 10 ^ power n.exponent

/-- An exponent does not start with a digit. -/
theorem head?_exponentPart (e : Option (Bool × List Char)) :
    ∀ c ∈ (exponentPart e).head?, c.isDigit = false := by
  cases e <;> simp [exponentPart]

/-- What follows the whole part does not start with a digit. -/
theorem head?_fractionText (f : Option (List Char)) (e : Option (Bool × List Char)) :
    ∀ c ∈ (fractionText f ++ exponentPart e).head?, c.isDigit = false := by
  cases f with
  | none => exact head?_exponentPart e
  | some f => simp [fractionText]

/-- An exponent can be read off its text. -/
theorem exponentPart_injective {e e' : Option (Bool × List Char)}
    (eq : exponentPart e = exponentPart e') : e = e' := by
  rcases e with _ | ⟨_ | _, digits⟩ <;> rcases e' with _ | ⟨_ | _, digits'⟩ <;>
    simp_all [exponentPart]

/-- Fraction and exponent can be read off their text. -/
theorem fractionText_injective {f f' : Option (List Char)} {e e' : Option (Bool × List Char)}
    (digits : ∀ s ∈ f, AreDigits s) (digits' : ∀ s ∈ f', AreDigits s)
    (eq : fractionText f ++ exponentPart e = fractionText f' ++ exponentPart e') :
    f = f' ∧ e = e' := by
  -- A point is not the letter of an exponent.
  have point (s : List Char) (e : Option (Bool × List Char)) : exponentPart e ≠ '.' :: s := by
    cases e <;> simp [exponentPart]
  cases f with
  | none =>
    cases f' with
    | none => exact ⟨rfl, exponentPart_injective eq⟩
    | some f' => exact absurd eq (point _ e)
  | some f =>
    cases f' with
    | none => exact absurd eq.symm (point _ e')
    | some f' =>
      obtain ⟨rfl, same⟩ := (digits f rfl).append_inj (digits' f' rfl) (head?_exponentPart e)
        (head?_exponentPart e') (List.cons.inj eq).2
      exact ⟨rfl, exponentPart_injective same⟩

/-- **A text is that of one numeral.** -/
theorem text_injective {n n' : Numeral} (eq : n.text = n'.text) : n = n' := by
  -- A sign is not a digit.
  have sign (n : Numeral) (s : List Char) :
      n.whole ++ (fractionText n.fraction ++ exponentPart n.exponent) ≠ '-' :: s := by
    intro eq
    obtain ⟨c, whole, split⟩ := List.exists_cons_of_ne_nil n.whole_ne_nil
    have digit := n.whole_digits c (by rw [split]; exact List.mem_cons_self ..)
    rw [split] at eq
    obtain rfl : c = '-' := (List.cons.inj eq).1
    exact absurd digit (by decide)
  have signs : n.negative = n'.negative := by
    simp only [text, List.append_assoc] at eq
    cases h : n.negative <;> cases h' : n'.negative
    · rfl
    · rw [h, h'] at eq
      exact absurd eq (sign n _)
    · rw [h, h'] at eq
      exact absurd eq.symm (sign n' _)
    · rfl
  simp only [text, signs, List.append_assoc, List.append_cancel_left_eq] at eq
  obtain ⟨whole, rest⟩ := n.whole_digits.append_inj n'.whole_digits
    (head?_fractionText n.fraction n.exponent) (head?_fractionText n'.fraction n'.exponent) eq
  obtain ⟨fraction, exponent⟩ :=
    fractionText_injective n.fraction_digits n'.fraction_digits rest
  exact Numeral.ext signs whole fraction exponent

end Numeral

/-! ## Zeros at the end -/

/-- Trimming drops the zeros at the end. -/
theorem trim_eq (s : List Char) : trim s = s.rdropWhile (· == '0') := rfl

/-- What is left out of some digits are zeros. -/
theorem exists_append_trim (s : List Char) : ∃ k, s = trim s ++ List.replicate k '0' := by
  refine ⟨(s.rtakeWhile (· == '0')).length, ?_⟩
  have zeros : s.rtakeWhile (· == '0') = List.replicate (s.rtakeWhile (· == '0')).length '0' :=
    List.eq_replicate_of_mem fun c mem =>
      beq_iff_eq.1 (List.mem_rtakeWhile_imp (p := (· == '0')) mem)
  rw [← zeros, trim_eq, List.rdropWhile_append_rtakeWhile]

/-- Trimming adds no character. -/
theorem trim_subset (s : List Char) : trim s ⊆ s :=
  (List.rdropWhile_prefix (· == '0') s).subset

/-- What is kept of some digits has no zero at its end. -/
theorem getLast?_trim (s : List Char) : ∀ c ∈ (trim s).getLast?, c ≠ '0' := by
  rintro c last rfl
  obtain ⟨init, eq⟩ := List.getLast?_eq_some_iff.1 last
  have kept : trim s ≠ [] := by simp [eq]
  refine List.rdropWhile_last_not (· == '0') s kept ?_
  simp only [← trim_eq, eq, List.getLast_concat, beq_self_eq_true]

/-- The fraction that is left of some digits, if any. -/
def keptFraction (digits : List Char) : Option (List Char) :=
  match trim digits with
  | [] => none
  | kept => some kept

/-- A fraction of which nothing is left is not written, and neither is its point. -/
theorem withFraction_eq (whole digits : List Char) :
    withFraction whole digits = whole ++ Numeral.fractionText (keptFraction digits) := by
  unfold withFraction keptFraction
  cases trim digits with
  | nil => exact (List.append_nil whole).symm
  | cons => rfl

/-- A fraction that is kept is what trimming leaves, and something is left. -/
theorem eq_trim_of_mem_keptFraction {digits f : List Char} (mem : f ∈ keptFraction digits) :
    f = trim digits ∧ f ≠ [] := by
  unfold keptFraction at mem
  cases eq : trim digits with
  | nil => simp [eq] at mem
  | cons c kept =>
    rw [eq] at mem
    obtain rfl := Option.some.inj mem
    exact ⟨rfl, List.cons_ne_nil c kept⟩

/-- A fraction that is left does not end with a zero. -/
theorem getLast?_of_mem_keptFraction {digits f : List Char} (mem : f ∈ keptFraction digits) :
    ∃ c ∈ f.getLast?, c ≠ '0' := by
  obtain ⟨rfl, kept⟩ := eq_trim_of_mem_keptFraction mem
  have last := List.getLast?_eq_some_getLast kept
  exact ⟨_, last, getLast?_trim _ _ last⟩

/-- No fraction is as good as an empty one. -/
theorem getD_keptFraction (digits : List Char) : (keptFraction digits).getD [] = trim digits := by
  unfold keptFraction
  cases trim digits <;> rfl

/-- Zeros at the end of a fraction count for nothing. -/
theorem pointed_trim (whole digits : List Char) :
    Numeral.pointed whole (trim digits) = Numeral.pointed whole digits := by
  obtain ⟨k, eq⟩ := exists_append_trim digits
  have scale : (10 : ℚ) ^ k ≠ 0 := by positivity
  have value : Nat.ofDigitChars 10 (whole ++ digits) 0 =
      10 ^ k * Nat.ofDigitChars 10 (whole ++ trim digits) 0 := by
    conv_lhs => rw [eq, ← List.append_assoc, Nat.ofDigitChars_append]
    exact Nat.ofDigitChars_replicate_zero
  have length : digits.length = k + (trim digits).length := by
    conv_lhs => rw [eq, List.length_append, List.length_replicate, Nat.add_comm]
  rw [Numeral.pointed, Numeral.pointed, value, length, pow_add]
  push_cast
  rw [mul_div_mul_left _ _ scale]

/-! ## The text of a rounded number -/

/-- Exponents from -4 up to 5 are not written. -/
theorem positional_iff {e : ℤ} : positional e = true ↔ -4 ≤ e ∧ e < 6 := by
  simp [positional]

namespace SixDigits

/-- The digits in front of the point. -/
def whole (r : SixDigits) : List Char :=
  if positional r.exponent then
    if r.exponent < 0 then ['0'] else (Nat.toDigits 10 r.digits).take (r.exponent.toNat + 1)
  else (Nat.toDigits 10 r.digits).take 1

/-- The digits behind the point, with the zeros at their end. -/
def rest (r : SixDigits) : List Char :=
  if positional r.exponent then
    if r.exponent < 0 then
      List.replicate (r.exponent.natAbs - 1) '0' ++ Nat.toDigits 10 r.digits
    else (Nat.toDigits 10 r.digits).drop (r.exponent.toNat + 1)
  else (Nat.toDigits 10 r.digits).drop 1

/-- The sign and the digits of an exponent, at least two. -/
def exponentOf (e : ℤ) : Bool × List Char :=
  (decide (e < 0),
    List.replicate (2 - (Nat.toDigits 10 e.natAbs).length) '0' ++ Nat.toDigits 10 e.natAbs)

/-- The exponent that is written. -/
def shown (r : SixDigits) : Option (Bool × List Char) :=
  if positional r.exponent then none else some (exponentOf r.exponent)

/-- An exponent inside the bounds is not shown. -/
theorem shown_of_inside {r : SixDigits} (inside : -4 ≤ r.exponent ∧ r.exponent < 6) :
    r.shown = none := by
  rw [shown, if_pos (positional_iff.2 inside)]

/-- An exponent outside the bounds is shown. -/
theorem shown_of_outside {r : SixDigits} (outside : r.exponent < -4 ∨ 6 ≤ r.exponent) :
    r.shown = some (exponentOf r.exponent) := by
  rw [shown, if_neg (mt positional_iff.1 (by omega))]

/-- An exponent is shown exactly outside the bounds. -/
theorem isSome_shown_iff (r : SixDigits) :
    r.shown.isSome = true ↔ r.exponent < -4 ∨ 6 ≤ r.exponent := by
  constructor
  · intro written
    by_contra inside
    simp [shown_of_inside (by omega : -4 ≤ r.exponent ∧ r.exponent < 6)] at written
  · intro outside
    rw [shown_of_outside outside]
    rfl

/-- The text of a shown exponent starts with `e`. -/
theorem exponentPart_exponentOf (e : ℤ) :
    Numeral.exponentPart (some (exponentOf e)) = 'e' :: exponentText e := by
  unfold exponentText exponentOf Numeral.exponentPart
  by_cases h : e < 0 <;> simp [h]

/-- The text is the whole part, what is kept of the fraction, and the exponent if it is shown. -/
theorem text_eq (r : SixDigits) :
    r.text = withFraction r.whole r.rest ++ Numeral.exponentPart r.shown := by
  unfold text whole rest shown
  dsimp only
  split_ifs with plain small
  · exact (List.append_nil _).symm
  · exact (List.append_nil _).symm
  · rw [exponentPart_exponentOf]

/-- A shown exponent has the power that it was made of. -/
theorem power_exponentOf (e : ℤ) : Numeral.power (some (exponentOf e)) = e := by
  have digits : Nat.ofDigitChars 10 (exponentOf e).2 0 = e.natAbs := by
    rw [exponentOf, Nat.ofDigitChars_append, Nat.ofDigitChars_replicate_zero, Nat.mul_zero,
      Nat.ofDigitChars_ten_toDigits]
  show (if decide (e < 0) then -1 else 1) * (Nat.ofDigitChars 10 (exponentOf e).2 0 : ℤ) = e
  rw [digits]
  by_cases h : e < 0
  · simp only [h, decide_true, if_true]
    omega
  · simp only [h, decide_false, Bool.false_eq_true, if_false]
    omega

/-- An exponent is shown with two digits at least. -/
theorem two_le_length_exponentOf (e : ℤ) : 2 ≤ (exponentOf e).2.length := by
  unfold exponentOf
  rw [List.length_append, List.length_replicate]
  omega

/-- An exponent that is written is that of the number, with two digits at least. -/
theorem of_mem_shown {r : SixDigits} {e : Bool × List Char} (mem : e ∈ r.shown) :
    Numeral.power (some e) = r.exponent ∧ 2 ≤ e.2.length := by
  unfold shown at mem
  split_ifs at mem
  · cases mem
  · cases mem
    exact ⟨power_exponentOf _, two_le_length_exponentOf _⟩

/-- An exponent is shown in digits. -/
theorem areDigits_exponentOf (e : ℤ) : AreDigits (exponentOf e).2 :=
  (areDigits_replicate _).append (areDigits_toDigits _)

/-- There is a digit in front of the point. -/
theorem whole_ne_nil (r : SixDigits) : r.whole ≠ [] := by
  unfold whole
  split_ifs <;> simp

/-- Digits stand in front of the point. -/
theorem areDigits_whole (r : SixDigits) : AreDigits r.whole := by
  unfold whole
  split_ifs
  · exact areDigits_replicate 1
  · exact (areDigits_toDigits _).of_subset (List.take_subset ..)
  · exact (areDigits_toDigits _).of_subset (List.take_subset ..)

/-- Digits stand behind the point. -/
theorem areDigits_rest (r : SixDigits) : AreDigits r.rest := by
  unfold rest
  split_ifs
  · exact (areDigits_replicate _).append (areDigits_toDigits _)
  · exact (areDigits_toDigits _).of_subset (List.drop_subset ..)
  · exact (areDigits_toDigits _).of_subset (List.drop_subset ..)

/-- **The numeral of a rounded number,** with a sign. -/
def numeral (negative : Bool) (r : SixDigits) : Numeral where
  negative
  whole := r.whole
  fraction := keptFraction r.rest
  exponent := r.shown
  whole_ne_nil := r.whole_ne_nil
  whole_digits := r.areDigits_whole
  fraction_digits f mem := by
    rw [(eq_trim_of_mem_keptFraction mem).1]
    exact r.areDigits_rest.of_subset (trim_subset _)
  exponent_digits e mem := by
    unfold shown at mem
    split_ifs at mem
    · cases mem
    · cases mem
      exact areDigits_exponentOf _

/-- The text of the numeral is the sign and the text of the digits. -/
theorem text_numeral (negative : Bool) (r : SixDigits) :
    (r.numeral negative).text = signText negative ++ r.text := by
  rw [text_eq, withFraction_eq, Numeral.text, List.append_assoc, List.append_assoc,
    List.append_assoc]
  rfl

/-- Six digits are written as six characters. -/
theorem length_toDigits {r : SixDigits} (six : IsSix r.digits) :
    (Nat.toDigits 10 r.digits).length = 6 := by
  rw [isSix_iff] at six
  have le : (Nat.toDigits 10 r.digits).length ≤ 6 :=
    (Nat.length_toDigits_le_iff (by decide) (by decide)).2 (by omega)
  have gt : ¬(Nat.toDigits 10 r.digits).length ≤ 5 :=
    mt (Nat.length_toDigits_le_iff (by decide) (by decide)).1 (by omega)
  omega

/-- The digits around the point are those of the number, perhaps behind some zeros. -/
theorem exists_whole_append_rest (r : SixDigits) :
    ∃ j, r.whole ++ r.rest = List.replicate j '0' ++ Nat.toDigits 10 r.digits := by
  unfold whole rest
  split_ifs
  · exact ⟨r.exponent.natAbs - 1 + 1, rfl⟩
  · exact ⟨0, List.take_append_drop ..⟩
  · exact ⟨0, List.take_append_drop ..⟩

/-- The point and the exponent put the digits in their place. -/
theorem power_sub_length_rest {r : SixDigits} (six : IsSix r.digits) :
    Numeral.power r.shown - r.rest.length = r.exponent - 5 := by
  have length := length_toDigits six
  unfold shown rest
  split_ifs with plain small
  · rw [List.length_append, List.length_replicate, length, Numeral.power]
    omega
  · rw [List.length_drop, length, Numeral.power]
    rw [positional_iff] at plain
    omega
  · rw [List.length_drop, length, power_exponentOf]
    omega

/-- Inside the bounds, the digits behind the point are those that the exponent leaves. -/
theorem length_rest_of_inside {r : SixDigits} (six : IsSix r.digits)
    (inside : -4 ≤ r.exponent ∧ r.exponent < 6) : r.rest.length = (5 - r.exponent).toNat := by
  have point := power_sub_length_rest six
  rw [shown_of_inside inside, Numeral.power] at point
  omega

/-- Outside the bounds, five digits stand behind the point. -/
theorem length_rest_of_outside {r : SixDigits} (six : IsSix r.digits)
    (outside : r.exponent < -4 ∨ 6 ≤ r.exponent) : r.rest.length = 5 := by
  have point := power_sub_length_rest six
  rw [shown_of_outside outside, power_exponentOf] at point
  omega

/-- **The numeral of a rounded number stands for it.** -/
theorem value_numeral {r : SixDigits} (six : IsSix r.digits) (negative : Bool) :
    (r.numeral negative).value = (if negative then -1 else 1) * decimal r.digits r.exponent := by
  obtain ⟨j, digits⟩ := r.exists_whole_append_rest
  have value : Nat.ofDigitChars 10 (r.whole ++ r.rest) 0 = r.digits := by
    rw [digits, Nat.ofDigitChars_append, Nat.ofDigitChars_replicate_zero, Nat.mul_zero,
      Nat.ofDigitChars_ten_toDigits]
  show (if negative then -1 else 1) *
    Numeral.pointed r.whole ((keptFraction r.rest).getD []) * 10 ^ Numeral.power r.shown = _
  rw [getD_keptFraction, pointed_trim, Numeral.pointed, value, mul_assoc, decimal,
    ← power_sub_length_rest six, zpow_sub₀ (by norm_num), zpow_natCast]
  congr 1
  push_cast
  ring

end SixDigits
end Decimal
end StackScript
