/-
# One changed byte changes the hash

Each step of the hash can be undone, if the byte is known that it took in:

| part of a step | undone by |
| --- | --- |
| exclusive or with the byte | exclusive or with the byte |
| multiplication by the prime | multiplication by its inverse modulo `2 ^ 32` |

So the hash before some bytes and the hash after them determine each other
(`bijective_foldl_absorb`). Two strings that differ in one byte have different hashes just
after it, and the bytes behind it keep them apart.
-/
import Mathlib.Logic.Function.Basic
import StackScript.Fnv

namespace StackScript
namespace Fnv

open Function

/-- The inverse of the prime modulo `2 ^ 32`. The prime is odd, so it has one. -/
def primeInverse : UInt32 := 899433627

/-- The prime has an inverse, since it is odd. -/
theorem prime_mul_primeInverse : prime * primeInverse = 1 := by
  decide

/-- The hash before the last byte. -/
def release (h : UInt32) (b : UInt8) : UInt32 :=
  (h * primeInverse) ^^^ b.toUInt32

/-- Releasing a byte that was absorbed gives the hash back. -/
theorem release_absorb (h : UInt32) (b : UInt8) : release (absorb h b) b = h := by
  rw [release, absorb, UInt32.mul_assoc, prime_mul_primeInverse, UInt32.mul_one, UInt32.xor_assoc,
    UInt32.xor_self, UInt32.xor_zero]

/-- Absorbing a byte that was released gives the hash back. -/
theorem absorb_release (h : UInt32) (b : UInt8) : absorb (release h b) b = h := by
  rw [absorb, release, UInt32.xor_assoc, UInt32.xor_self, UInt32.xor_zero, UInt32.mul_assoc,
    UInt32.mul_comm primeInverse, prime_mul_primeInverse, UInt32.mul_one]

/-- **A step of the hash loses nothing** of the hash before it. -/
theorem bijective_absorb (b : UInt8) : Bijective fun h => absorb h b :=
  bijective_iff_has_inverse.2
    ⟨fun h => release h b, fun h => release_absorb h b, fun h => absorb_release h b⟩

/-- Nor do several steps. -/
theorem bijective_foldl_absorb (s : List UInt8) : Bijective fun h => s.foldl absorb h := by
  induction s with
  | nil => exact bijective_id
  | cons b s ih => exact ih.comp (bijective_absorb b)

/-- A step of the hash loses nothing of the byte either. -/
theorem absorb_injective (h : UInt32) : Injective (absorb h) := by
  intro b c same
  have product := congrArg (· * primeInverse) same
  simp only [absorb, UInt32.mul_assoc, prime_mul_primeInverse, UInt32.mul_one] at product
  exact UInt8.toUInt32_inj.1 ((UInt32.xor_right_inj h).1 product)

/-- **One changed byte changes the hash,** whatever stands before and behind it: the hash of a
string follows from the hash of its beginning, and whatever the end is, the hashes before it
and after it stand to each other one to one. -/
theorem hash_ne_of_changed_byte :
    (∀ (p s : List UInt8) (b c : UInt8), b ≠ c → hash (p ++ [b] ++ s) ≠ hash (p ++ [c] ++ s)) ∧
      ∀ s : List UInt8, Bijective (fun h : UInt32 => s.foldl absorb h) ∧
        ∀ p, hash (p ++ s) = s.foldl absorb (hash p) := by
  refine ⟨fun p s b c changed same => ?_, fun s => ⟨bijective_foldl_absorb s, fun p => ?_⟩⟩
  · rw [hash_append, hash_append, hash_append, hash_append] at same
    have before := (bijective_foldl_absorb s).injective same
    exact changed (absorb_injective _ before)
  · exact hash_append p s

/-- The names `cone` and `cote`, in bytes. -/
theorem hash_ne_of_changed_byte_third :
    (110 : UInt8) ≠ 116 ∧ hash ([99, 111] ++ [110] ++ [101]) ≠ hash ([99, 111] ++ [116] ++ [101]) ∧
      Bijective fun h : UInt32 => [101].foldl absorb h := by
  have changed : (110 : UInt8) ≠ 116 := by decide
  obtain ⟨apart, onto⟩ := hash_ne_of_changed_byte
  exact ⟨changed, apart [99, 111] [101] 110 116 changed, (onto [101]).1⟩

end Fnv
end StackScript
