/-
# The exact value of a double

A finite double is a whole number times a power of two, with a sign; its bits are those of the sign,
of the biased exponent and of the fraction. `value?` is that number, as the semantics of doubles
has it. What is read from the bits to write a double as text agrees with it, and negation changes
the sign only:

| biased exponent | fraction | number |
| --- | --- | --- |
| `0` | `f` | `f × 2 ^ -1074` |
| `b`, from `1` to `2046` | `f` | `(2 ^ 52 + f) × 2 ^ (b - 1075)` |
-/
import Mathlib
import StackScript.Decimal

namespace StackScript
namespace Decimal

open Float.Model (Format UnpackedFloat)
open Float.Model.UnpackedFloat
  (Sign unpack pack packComponents unpackSign unpackExponent unpackMantissa)

/-- The exact value of a double, if it is finite. -/
def value? (x : Float) : Option ℚ :=
  match x.toModel.unpack with
  | .finite sign m e _ => some (sign.apply m * 2 ^ e)
  | .zero _ => some 0
  | _ => none

/-- Just the finite doubles have a value. -/
theorem isSome_value? (x : Float) : (value? x).isSome = x.isFinite := by
  show _ = x.toModel.unpack.isFinite
  unfold value?
  cases x.toModel.unpack <;> rfl

/-! ## Bits -/

section Bits

variable {b c : BitVec Format.binary64.numBits} {s : Sign} {m : ℕ} {e : ℤ} {pos : 0 < m}

/-- The mantissa is in the last 52 bits. -/
theorem toNat_unpackMantissa (b : BitVec Format.binary64.numBits) :
    (unpackMantissa b).toNat = b.toNat % 2 ^ 52 := by
  rw [UnpackedFloat.unpackMantissa_def, BitVec.extractLsb'_toNat, Nat.shiftRight_zero]

/-- The exponent is in the eleven bits before the mantissa. -/
theorem toNat_unpackExponent (b : BitVec Format.binary64.numBits) :
    (unpackExponent b).toNat = b.toNat / 2 ^ 52 % 2 ^ 11 := by
  rw [UnpackedFloat.unpackExponent_def, BitVec.extractLsb'_toNat, Nat.shiftRight_eq_div_pow]

/-- The sign is the first bit. -/
theorem toNat_unpackSign (b : BitVec Format.binary64.numBits) :
    (unpackSign b).toNat = b.toNat / 2 ^ 63 := by
  have small : b.toNat < 2 ^ 64 := b.isLt
  rw [UnpackedFloat.unpackSign_def, BitVec.extractLsb'_toNat, Nat.shiftRight_eq_div_pow]
  exact Nat.mod_eq_of_lt (show b.toNat / 2 ^ 63 < 2 ^ 1 by omega)

/-- The bits of a normal number have one more in front. -/
theorem toNat_one_append {w : ℕ} (v : BitVec w) : (1#1 ++ v).toNat = 2 ^ w + v.toNat := by
  rw [BitVec.toNat_append, ← Nat.shiftLeft_add_eq_or_of_lt v.isLt]
  simp [Nat.shiftLeft_eq]

/-- A finite number, by the parts of its bits. -/
theorem parts_of_unpack (u : unpack Format.binary64 b = .finite s m e pos) :
    s = Sign.ofBitVec (unpackSign b) ∧
      ((unpackExponent b).toNat = 0 ∧ m = (unpackMantissa b).toNat ∧ e = -1074 ∨
        0 < (unpackExponent b).toNat ∧ (unpackExponent b).toNat < 2047 ∧
          m = 2 ^ 52 + (unpackMantissa b).toNat ∧ e = (unpackExponent b).toNat - 1075) := by
  have small : (unpackExponent b).toNat < 2048 := (unpackExponent b).isLt
  unfold unpack at u
  dsimp only at u
  split at u
  · split at u <;> cases u
  · rename_i finite
    split at u
    · rename_i zero
      split at u
      · cases u
      · cases u
        refine ⟨rfl, .inl ⟨by rw [zero]; rfl, rfl, ?_⟩⟩
        rw [zero]
        rfl
    · rename_i nonzero
      cases u
      have positive : (unpackExponent b).toNat ≠ 0 := fun eq =>
        nonzero (BitVec.eq_of_toNat_eq eq)
      have below : (unpackExponent b).toNat ≠ 2047 := fun eq =>
        finite (BitVec.eq_of_toNat_eq eq)
      exact ⟨rfl, .inr ⟨by omega, by omega, toNat_one_append _, rfl⟩⟩

/-- Packing puts the parts of a finite number back, with any sign. -/
theorem pack_of_unpack (u : unpack Format.binary64 b = .finite s m e pos) (sign : Sign) :
    pack Format.binary64 (.finite sign m e pos) =
      packComponents Format.binary64 sign (unpackExponent b) (unpackMantissa b) := by
  obtain ⟨-, parts⟩ := parts_of_unpack u
  have fraction : (unpackMantissa b).toNat < 2 ^ 52 := (unpackMantissa b).isLt
  have bias : (e + (Format.binary64.exponentBias : ℕ) +
      (Format.binary64.mantissaBitsWithoutImplicit : ℕ)).toNat = (e + 1075).toNat := by
    show (e + (1023 : ℕ) + (52 : ℕ)).toNat = _
    omega
  have bits : Format.binary64.mantissaBits = 53 := rfl
  unfold pack
  simp only [bias, bits]
  rcases parts with ⟨zero, rfl, rfl⟩ | ⟨positive, below, rfl, rfl⟩
  · have short : (unpackMantissa b).toNat.log2 + 1 ≠ 53 := fun eq => by
      have := Nat.log2_self_le (Nat.pos_iff_ne_zero.1 pos)
      rw [show (unpackMantissa b).toNat.log2 = 52 by omega] at this
      omega
    have exponent : unpackExponent b = 0#11 := BitVec.eq_of_toNat_eq zero
    rw [if_neg (by decide), if_neg short, exponent, BitVec.ofNat_toNat, BitVec.setWidth_eq]
  · have long : (2 ^ 52 + (unpackMantissa b).toNat).log2 = 52 := by
      rw [Nat.log2_eq_iff (by omega)]
      omega
    have biased : ((unpackExponent b).toNat - 1075 + 1075 : ℤ).toNat =
        (unpackExponent b).toNat := by
      omega
    have mantissa : BitVec.ofNat 52 (2 ^ 52 + (unpackMantissa b).toNat) = unpackMantissa b := by
      apply BitVec.eq_of_toNat_eq
      rw [BitVec.toNat_ofNat]
      omega
    rw [biased, long, if_neg (by simp only [Format.binary64]; omega), if_pos rfl, mantissa,
      BitVec.ofNat_toNat, BitVec.setWidth_eq]

end Bits

/-! ## Doubles -/

section Doubles

variable {x : Float} {q : ℚ} {s : Sign} {m : ℕ} {e : ℤ} {pos : 0 < m}

/-- The bits of a double. -/
def bits (x : Float) : BitVec Format.binary64.numBits :=
  x.toModel.toBits.toBitVec

/-- A sign is that of a negative number. -/
def IsMinus : Sign → Bool
  | .negative => true
  | .positive => false

/-- A double is negative if its sign bit says so. -/
theorem isNegative_eq (x : Float) :
    isNegative x = IsMinus (Sign.ofBitVec (unpackSign (bits x))) := by
  have sign : isNegative x = ((unpackSign (bits x)).toNat == 1) := by
    rw [toNat_unpackSign]
    rfl
  rw [sign]
  generalize unpackSign (bits x) = v
  revert v
  decide

/-- The magnitude of a finite number is read from its bits. -/
theorem ofFloat_of_bits (x : Float) : Magnitude.ofFloat x =
    if (unpackExponent (bits x)).toNat = 2047 then
      if (unpackMantissa (bits x)).toNat = 0 then .infinite else .nan
    else if (unpackExponent (bits x)).toNat = 0 then
      .finite (unpackMantissa (bits x)).toNat (-1074)
    else .finite (2 ^ 52 + (unpackMantissa (bits x)).toNat)
      ((unpackExponent (bits x)).toNat - 1075) := by
  rw [toNat_unpackExponent, toNat_unpackMantissa]
  rfl

/-- The magnitude of a finite double is its mantissa and exponent. -/
theorem ofFloat_of_unpack (u : x.toModel.unpack = .finite s m e pos) :
    Magnitude.ofFloat x = .finite m e := by
  obtain ⟨-, parts⟩ := parts_of_unpack (b := bits x) u
  rw [ofFloat_of_bits]
  rcases parts with ⟨zero, rfl, rfl⟩ | ⟨positive, below, rfl, rfl⟩
  · rw [if_neg (by omega), if_pos zero]
  · rw [if_neg (by omega), if_neg (by omega)]

/-- A finite double is negative if it is unpacked with a minus. -/
theorem isNegative_of_unpack (u : x.toModel.unpack = .finite s m e pos) :
    isNegative x = IsMinus s := by
  rw [isNegative_eq, (parts_of_unpack (b := bits x) u).1]

/-- No finite double has an exponent below that of the least one. -/
theorem le_of_unpack (u : x.toModel.unpack = .finite s m e pos) : -1074 ≤ e := by
  obtain ⟨-, parts⟩ := parts_of_unpack u
  omega

/-- Negating a finite number changes its sign only. -/
theorem bits_neg (u : x.toModel.unpack = .finite s m e pos) :
    bits (-x) =
      packComponents Format.binary64 (-s) (unpackExponent (bits x)) (unpackMantissa (bits x)) := by
  have negated : bits (-x) = pack Format.binary64 x.toModel.unpack.neg := rfl
  rw [negated, u]
  exact pack_of_unpack u (-s)

/-- A number other than `0` is that of a mantissa with an exponent. -/
theorem exists_unpack (value : value? x = some q) (nonzero : q ≠ 0) :
    ∃ s m e pos, x.toModel.unpack = .finite s m e pos ∧ q = s.apply m * 2 ^ e := by
  unfold value? at value
  split at value
  · rename_i s m e pos u
    exact ⟨s, m, e, pos, u, (Option.some.inj value).symm⟩
  · exact absurd (Option.some.inj value).symm nonzero
  · cases value

/-- **The magnitude that is written is that of the number,** and so is the sign. -/
theorem exists_magnitude (value : value? x = some q) (nonzero : q ≠ 0) :
    ∃ (m : ℕ) (e : ℤ), 0 < m ∧ -1074 ≤ e ∧ Magnitude.ofFloat x = .finite m e ∧
      |q| = m * 2 ^ e ∧ isNegative x = decide (q < 0) := by
  obtain ⟨s, m, e, pos, u, rfl⟩ := exists_unpack value nonzero
  have mantissa : (0 : ℚ) < m := by exact_mod_cast pos
  have positive : (0 : ℚ) < m * 2 ^ e := mul_pos mantissa (zpow_pos (by norm_num) e)
  refine ⟨m, e, pos, le_of_unpack u, ofFloat_of_unpack u, ?_⟩
  rw [isNegative_of_unpack u]
  cases s with
  | negative =>
    have eq : ((Sign.negative.apply m : ℤ) : ℚ) * 2 ^ e = -(m * 2 ^ e) := by
      simp [Sign.apply]
    rw [eq, abs_neg, abs_of_pos positive, decide_eq_true (by linarith)]
    exact ⟨rfl, rfl⟩
  | positive =>
    have eq : ((Sign.positive.apply m : ℤ) : ℚ) * 2 ^ e = m * 2 ^ e := by
      simp [Sign.apply]
    rw [eq, abs_of_pos positive, decide_eq_false (by linarith)]
    exact ⟨rfl, rfl⟩

/-- Negation changes the sign and leaves the magnitude. -/
theorem ofFloat_neg (u : x.toModel.unpack = .finite s m e pos) :
    Magnitude.ofFloat (-x) = Magnitude.ofFloat x ∧ isNegative (-x) = !isNegative x := by
  have exponent : unpackExponent (bits (-x)) = unpackExponent (bits x) := by
    rw [bits_neg u]
    exact UnpackedFloat.unpackExponent_packComponents
  have mantissa : unpackMantissa (bits (-x)) = unpackMantissa (bits x) := by
    rw [bits_neg u]
    exact UnpackedFloat.unpackMantissa_packComponents
  have sign : unpackSign (bits (-x)) = (-s).toBitVec := by
    rw [bits_neg u]
    exact UnpackedFloat.unpackSign_packComponents ..
  constructor
  · rw [ofFloat_of_bits, ofFloat_of_bits, exponent, mantissa]
  · rw [isNegative_eq, sign, Sign.ofBitVec_toBitVec, isNegative_of_unpack u]
    cases s <;> rfl

/-- The text of a finite number is that of its magnitude, behind its sign. -/
theorem text_of_ofFloat (magnitude : Magnitude.ofFloat x = .finite m e) :
    text x = (if isNegative x then ['-'] else []) ++ (Magnitude.finite m e).text := by
  unfold text
  rw [magnitude]
  dsimp only
  split <;> simp only [List.cons_append, List.nil_append]

/-- **The text of a negated positive number has a minus sign in front.** -/
theorem text_neg (value : value? x = some q) (positive : 0 < q) : text (-x) = '-' :: text x := by
  obtain ⟨_, m, e, _, u, _⟩ := exists_unpack value positive.ne'
  obtain ⟨-, -, -, -, -, -, sign⟩ := exists_magnitude value positive.ne'
  obtain ⟨magnitude, negated⟩ := ofFloat_neg u
  rw [decide_eq_false (by linarith)] at sign
  rw [text_of_ofFloat (magnitude.trans (ofFloat_of_unpack u)),
    text_of_ofFloat (ofFloat_of_unpack u), negated, sign]
  simp only [Bool.not_false, Bool.false_eq_true, if_true, if_false, List.cons_append,
    List.nil_append]

end Doubles
end Decimal
end StackScript
