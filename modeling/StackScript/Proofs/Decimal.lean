/-
# The text of a double is its correct rounding

The text of a finite double `q` other than zero is a numeral for `q` rounded to six significant
digits (`text_correctly_rounded`). The usual way to write it rounds twice: to six digits, to learn
the decimal exponent `e`; and, if no exponent is written, once more to `5 - e` digits behind the
point. Both roundings give the same number, also where the first is carried into the next power of
ten:

| double | six digits, exponent | digits behind the point | text |
| --- | --- | ---: | --- |
| `9.999996` | `100000`, `1` | 4 | `10` |
| `0.000099999996` | `100000`, `-4` | 9 | `0.0001` |
| `999999.5` | `100000`, `6` | | `1e+06` |

Zeros and then a point are taken off the end of either text only if there is a point in it, so
that no digit of the whole part is lost.
-/
import StackScript.Proofs.Decimal.Double
import StackScript.Proofs.Decimal.Numeral

namespace StackScript
namespace Decimal

/-! ## Zeros behind a point -/

/-- The digits of a number, with a point in front of the last `n` of them; no point for `n = 0`. -/
def fixed (s n : ℕ) : List Char :=
  let digits := List.replicate (n + 1 - (Nat.toDigits 10 s).length) '0' ++ Nat.toDigits 10 s
  if n = 0 then digits
  else digits.take (digits.length - n) ++ '.' :: digits.drop (digits.length - n)

/-- A text with a point, without the zeros at its end and then without a point there. -/
def trimFraction (s : List Char) : List Char :=
  if '.' ∈ s then (s.rdropWhile (· == '0')).rdropWhile (· == '.') else s

/-- Zeros at the end do not change what is left when zeros are dropped from the end. -/
theorem rdropWhile_append_replicate (s : List Char) (k : ℕ) :
    (s ++ List.replicate k '0').rdropWhile (· == '0') = s.rdropWhile (· == '0') := by
  induction k with
  | zero => rw [List.replicate_zero, List.append_nil]
  | succ k ih =>
    rw [List.replicate_succ', ← List.append_assoc, List.rdropWhile_concat_pos _ _ _ rfl, ih]

/-- Nothing is dropped if the last character is none of those to be dropped. -/
theorem rdropWhile_of_getLast? {s : List Char} {c : Char} (ends : ∀ d ∈ s.getLast?, d ≠ c) :
    s.rdropWhile (· == c) = s := by
  rcases List.eq_nil_or_concat' s with rfl | ⟨init, d, rfl⟩
  · rfl
  · refine List.rdropWhile_concat_neg _ _ _ ?_
    rw [beq_iff_eq]
    exact ends d List.getLast?_concat

/-- Behind a point, zeros are left out, and then the point if nothing is left behind it. -/
theorem trimFraction_point {front rest : List Char} (ends : ∀ c ∈ front.getLast?, c ≠ '.')
    (digits : AreDigits rest) : trimFraction (front ++ '.' :: rest) = withFraction front rest := by
  obtain ⟨k, eq⟩ := exists_append_trim rest
  have kept := getLast?_trim rest
  have inside : AreDigits (trim rest) := digits.of_subset (trim_subset rest)
  have point : '.' ∈ front ++ '.' :: rest := by simp
  have split : front ++ '.' :: rest = (front ++ '.' :: trim rest) ++ List.replicate k '0' := by
    conv_lhs => rw [eq]
    simp
  rw [trimFraction, if_pos point, split, rdropWhile_append_replicate]
  unfold withFraction
  rcases List.eq_nil_or_concat' (trim rest) with none | ⟨init, c, some⟩
  · rw [none, List.rdropWhile_concat_neg _ _ _ (by decide),
      List.rdropWhile_concat_pos _ _ _ (by decide), rdropWhile_of_getLast? ends]
  · rw [some] at kept inside
    have zero : c ≠ '0' := kept c List.getLast?_concat
    have dot : c ≠ '.' := by
      rintro rfl
      exact absurd (inside '.' (by simp)) (by decide)
    have whole : front ++ '.' :: (init ++ [c]) = (front ++ '.' :: init) ++ [c] := by simp
    rw [some, whole, List.rdropWhile_concat_neg _ _ _ (by simpa using zero),
      List.rdropWhile_concat_neg _ _ _ (by simpa using dot), ← whole]
    cases init <;> rfl

/-! ## Rounding twice -/

section Twice

variable {r : SixDigits}

/-- Digits do not end with a point. -/
theorem getLast?_ne_point {front whole : List Char} (digits : AreDigits whole) (kept : whole ≠ []) :
    ∀ c ∈ (front ++ whole).getLast?, c ≠ '.' := by
  rintro c last rfl
  rw [List.getLast?_append_of_ne_nil _ kept] at last
  exact absurd (digits '.' (List.mem_of_getLast? last)) (by decide)

/-- The digits on both sides of the point are those of the number, filled up with zeros. -/
theorem fixed_eq (six : IsSix r.digits) :
    fixed r.digits r.rest.length =
      if r.rest.length = 0 then r.whole ++ r.rest else r.whole ++ '.' :: r.rest := by
  have length := SixDigits.length_toDigits six
  have digits : List.replicate (r.rest.length + 1 - 6) '0' ++ Nat.toDigits 10 r.digits =
      r.whole ++ r.rest := by
    unfold SixDigits.whole SixDigits.rest
    split_ifs with plain small
    · rw [List.length_append, List.length_replicate, length,
        show r.exponent.natAbs - 1 + 6 + 1 - 6 = r.exponent.natAbs - 1 + 1 by omega]
      rfl
    · rw [List.length_drop, length, show 6 - (r.exponent.toNat + 1) + 1 - 6 = 0 by omega]
      exact (List.take_append_drop ..).symm
    · rw [List.length_drop, length]
      exact (List.take_append_drop ..).symm
  unfold fixed
  dsimp only
  rw [length, digits, List.length_append, Nat.add_sub_cancel, List.take_left, List.drop_left]

/-- **Whoever puts the point among six digits** and takes off what stands for nothing has the
digits of the text. -/
theorem trimFraction_fixed (six : IsSix r.digits) (negative : Bool) :
    trimFraction (signText negative ++ fixed r.digits r.rest.length) =
      signText negative ++ withFraction r.whole r.rest := by
  rw [fixed_eq six]
  split_ifs with none
  · rw [List.length_eq_zero_iff] at none
    have point : '.' ∉ signText negative ++ r.whole := by
      intro mem
      rcases List.mem_append.1 mem with mem | mem
      · cases negative <;> simp [signText] at mem
      · exact absurd (r.areDigits_whole '.' mem) (by decide)
    rw [none, List.append_nil, trimFraction, if_neg point]
    rfl
  · rw [← List.append_assoc,
      trimFraction_point (getLast?_ne_point r.areDigits_whole r.whole_ne_nil) r.areDigits_rest,
      withFraction_eq, withFraction_eq, List.append_assoc]

end Twice

/-! ## Main statement -/

/-- Every double but zero is above `10 ^ -depth`. -/
theorem deep_of_le {m : ℕ} {e : ℤ} (pos : 0 < m) (le : -1074 ≤ e) :
    2 ^ (-e).toNat ≤ m * 2 ^ e.toNat * 10 ^ depth := by
  have split : depth = 54 * 6 := rfl
  calc 2 ^ (-e).toNat ≤ 2 ^ (179 * 6) := Nat.pow_le_pow_right (by decide) (by omega)
    _ = (2 ^ 179) ^ 6 := Nat.pow_mul ..
    _ ≤ (10 ^ 54) ^ 6 := Nat.pow_le_pow_left (by norm_num) 6
    _ = 10 ^ depth := by rw [split, Nat.pow_mul]
    _ ≤ m * 2 ^ e.toNat * 10 ^ depth :=
      Nat.le_mul_of_pos_left _ (Nat.mul_pos pos (Nat.pow_pos (by decide)))

/-- The text of a finite double other than zero is that of its rounded magnitude. -/
theorem exists_rounds {x : Float} {q : ℚ} (value : value? x = some q) (nonzero : q ≠ 0) :
    ∃ r : SixDigits, Rounds |q| r.digits r.exponent ∧
      text x = signText (decide (q < 0)) ++ r.text := by
  obtain ⟨m, e, pos, le, magnitude, size, sign⟩ := exists_magnitude value nonzero
  have ratio : |q| = (m * 2 ^ e.toNat : ℕ) / (2 ^ (-e).toNat : ℕ) := by
    have power : (2 : ℚ) ^ e = 2 ^ e.toNat / 2 ^ (-e).toNat := by
      rw [← zpow_natCast, ← zpow_natCast, ← zpow_sub₀ (by norm_num)]
      congr 1
      omega
    rw [size, power]
    push_cast
    ring
  refine ⟨.ofRatio (m * 2 ^ e.toNat) (2 ^ (-e).toNat), ?_, ?_⟩
  · rw [ratio]
    exact rounds_ofRatio (Nat.pow_pos (by decide)) (deep_of_le pos le)
  · rw [text_of_ofFloat magnitude, sign, Magnitude.text, if_neg pos.ne']
    rfl

/-- **The text of a double is its correct rounding.** Let `q` be the exact value of a finite double,
not zero, and `decimal d e` be `q` rounded to six significant digits; there is one such number. The
text is that of a single numeral, and that stands for it: in exponent form, with two digits at
least, just for `e` below `-4` or from `6` on, and without zeros at the end of its fraction or a
point with nothing behind it. A negative number has the text of the positive one behind a minus
sign.

The same text comes from rounding twice. With `5 - e` digits behind the point, `q` is rounded to
the same number, and its digits are those of the text, as are the six digits in exponent form. -/
theorem text_correctly_rounded {x : Float} {q : ℚ} (value : value? x = some q)
    (nonzero : q ≠ 0) :
    ∃ d e : ℤ, Rounds q d e ∧ (∀ d' e', Rounds q d' e' → d' = d ∧ e' = e) ∧
      (∃ n : Numeral, n.text = text x ∧ (∀ n' : Numeral, n'.text = text x → n' = n) ∧
        n.value = decimal d e ∧
        (n.exponent.isSome = true ↔ e < -4 ∨ 6 ≤ e) ∧
        (∀ p ∈ n.exponent, Numeral.power (some p) = e ∧ 2 ≤ p.2.length) ∧
        ∀ f ∈ n.fraction, ∃ c ∈ f.getLast?, c ≠ '0') ∧
      (0 < q → text (-x) = '-' :: text x) ∧
      (e < -4 ∨ 6 ≤ e → text x =
        trimFraction (signText (decide (q < 0)) ++ fixed d.natAbs 5) ++ 'e' :: exponentText e) ∧
      (∀ s : ℕ, Nearest (|q| * 10 ^ (5 - e)) s ↔ s = d.natAbs) ∧
      (-4 ≤ e ∧ e < 6 → text x =
        trimFraction (signText (decide (q < 0)) ++ fixed d.natAbs (5 - e).toNat)) := by
  obtain ⟨r, rounds, written⟩ := exists_rounds value nonzero
  have six : IsSix r.digits := rounds.six
  have digits : (if q < 0 then -(r.digits : ℤ) else r.digits).natAbs = r.digits := by
    split_ifs <;> omega
  refine ⟨_, r.exponent, rounds.of_abs, fun d' e' => rounds.of_abs.unique, ?_,
    fun positive => text_neg value positive, ?_⟩
  · refine ⟨r.numeral (decide (q < 0)), ?_, fun n' same => ?_, ?_, ?_, ?_, ?_⟩
    · rw [SixDigits.text_numeral, written]
    · exact Numeral.text_injective (by rw [same, SixDigits.text_numeral, written])
    · rw [SixDigits.value_numeral six]
      by_cases negative : q < 0 <;> simp [negative, decimal_neg]
    · exact r.isSome_shown_iff
    · exact fun p mem => SixDigits.of_mem_shown mem
    · exact fun f mem => getLast?_of_mem_keptFraction mem
  · rw [digits]
    refine ⟨fun outside => ?_, fun s => ?_, fun inside => ?_⟩
    · rw [written, SixDigits.text_eq, SixDigits.shown_of_outside outside,
        SixDigits.exponentPart_exponentOf, ← List.append_assoc, ← trimFraction_fixed six,
        SixDigits.length_rest_of_outside six outside]
    · refine ⟨fun near => ?_, ?_⟩
      · exact_mod_cast rounds.nearest.unique near
      · rintro rfl
        exact rounds.nearest
    · rw [written, SixDigits.text_eq, SixDigits.shown_of_inside inside, Numeral.exponentPart,
        List.append_nil, ← SixDigits.length_rest_of_inside six inside, trimFraction_fixed six]

/-- The double next to 9.999996 is carried: its text is that of ten, with an exponent that is one
above its own. -/
theorem text_correctly_rounded_carried :
    ∃ (x : Float) (q : ℚ), value? x = some q ∧ q < 10 ∧ text x = ['1', '0'] ∧
      text (-x) = ['-', '1', '0'] ∧
      ∃ d e : ℤ, Rounds q d e ∧ ∃ n : Numeral, n.text = ['1', '0'] ∧ n.value = decimal d e := by
  let x : Float := .ofBits 0x4023FFFF79C842FA
  have value : value? x = some (5629497282413306 * 2 ^ (-49 : ℤ)) := by decide +kernel
  have written : text x = ['1', '0'] := by decide +kernel
  obtain ⟨d, e, rounds, -, ⟨n, same, -, denotes, -⟩, negated, -⟩ :=
    text_correctly_rounded value (by norm_num)
  refine ⟨x, _, value, by norm_num, written, ?_, d, e, rounds, n, same.trans written, denotes⟩
  rw [negated (by norm_num), written]

end Decimal
end StackScript
