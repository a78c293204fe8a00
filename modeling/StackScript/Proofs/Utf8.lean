/-
# Only what was written is read

`Utf8.decode?` reads back every text that was written. It reads nothing else: bytes of which
every unit is a character are the bytes of these characters (`decode?_eq_some_iff`). So each
text has one form in bytes, and bytes are well formed if a text is written so.

A first byte opens a character (`Opens`), and the bytes in the ranges of what is begun
complete it (`Begun.Completes`). The ranges leave out just what is never written:

| first byte | left out | which would be |
| --- | --- | --- |
| `E0` | `80`–`9F` | a character that two bytes are enough for |
| `ED` | `A0`–`BF` | a surrogate |
| `F0` | `80`–`8F` | a character that three bytes are enough for |
| `F4` | `90`–`BF` | beyond the last character |
-/
import Mathlib.Tactic.SplitIfs
import StackScript.Utf8

namespace StackScript
namespace Utf8

/-- Some bytes complete a character begun, and this is its number. -/
inductive Begun.Completes : Begun → List UInt8 → Nat → Prop where
  | last {p : Begun} {b : UInt8} : p.low ≤ b.toNat → b.toNat ≤ p.high → p.further = 0 →
      Completes p [b] (p.value * 0x40 + (b.toNat - 0x80))
  | more {p : Begun} {b : UInt8} {bytes : List UInt8} {n v : Nat} :
      p.low ≤ b.toNat → b.toNat ≤ p.high → p.further = n + 1 →
      Completes ⟨p.value * 0x40 + (b.toNat - 0x80), n, 0x80, 0xBF⟩ bytes v →
      Completes p (b :: bytes) v

namespace Begun.Completes

variable {p : Begun} {bytes : List UInt8} {n v : Nat}

/-- One byte is enough. -/
theorem eq_singleton (completes : p.Completes bytes v) (enough : p.further = 0) :
    ∃ b : UInt8, bytes = [b] ∧ p.low ≤ b.toNat ∧ b.toNat ≤ p.high ∧
      v = p.value * 0x40 + (b.toNat - 0x80) := by
  cases completes with
  | last low high _ => exact ⟨_, rfl, low, high, rfl⟩
  | more _ _ further _ => rw [enough] at further; cases further

/-- More bytes are needed than one. -/
theorem exists_cons (completes : p.Completes bytes v) (needed : p.further = n + 1) :
    ∃ (b : UInt8) (tail : List UInt8), bytes = b :: tail ∧ p.low ≤ b.toNat ∧ b.toNat ≤ p.high ∧
      Completes ⟨p.value * 0x40 + (b.toNat - 0x80), n, 0x80, 0xBF⟩ tail v := by
  cases completes with
  | last _ _ further => rw [needed] at further; cases further
  | more low high further rest =>
    obtain rfl := Nat.succ.inj (needed.symm.trans further)
    exact ⟨_, _, rfl, low, high, rest⟩

end Begun.Completes

/-- A first byte, and what it begins. -/
inductive Opens (b : Nat) : Begun → Prop where
  | two : 0xC2 ≤ b → b ≤ 0xDF → Opens b ⟨b - 0xC0, 0, 0x80, 0xBF⟩
  | three {low high : Nat} : 0xE0 ≤ b → b ≤ 0xEF → 0x80 ≤ low → high ≤ 0xBF →
      (b = 0xE0 → 0xA0 ≤ low) → (b = 0xED → high ≤ 0x9F) → Opens b ⟨b - 0xE0, 1, low, high⟩
  | four {low high : Nat} : 0xF0 ≤ b → b ≤ 0xF4 → 0x80 ≤ low → high ≤ 0xBF →
      (b = 0xF0 → 0x90 ≤ low) → (b = 0xF4 → high ≤ 0x8F) → Opens b ⟨b - 0xF0, 2, low, high⟩

/-- What a first byte settles: it is a character, begins one, or is ill-formed. -/
inductive Settles (b : Nat) : Reading → Prop where
  | ascii : b ≤ 0x7F → Settles b ⟨[some (Char.ofNat b)], none⟩
  | begun {p : Begun} : Opens b p → Settles b ⟨[], some p⟩
  | illFormed : Settles b ⟨[none], none⟩

/-- A first byte settles what is begun. -/
theorem settles_first (b : Nat) : Settles b (.first b) := by
  unfold Reading.first
  split_ifs with ascii low two e0 ed three f0 f3 f4
  · exact .ascii ascii
  · exact .illFormed
  · exact .begun (.two (by omega) two)
  · subst e0
    exact .begun (.three (by decide) (by decide) (by decide) (by decide) (by decide) (by decide))
  · subst ed
    exact .begun (.three (by decide) (by decide) (by decide) (by decide) (by decide) (by decide))
  · exact .begun (.three (by omega) three (Nat.le_refl _) (Nat.le_refl _) (absurd · e0)
      (absurd · ed))
  · subst f0
    exact .begun (.four (by decide) (by decide) (by decide) (by decide) (by decide) (by decide))
  · exact .begun (.four (by omega) (by omega) (Nat.le_refl _) (Nat.le_refl _) (absurd · f0)
      (by omega))
  · subst f4
    exact .begun (.four (by decide) (by decide) (by decide) (by decide) (by decide) (by decide))
  · exact .illFormed

/-! ## Writing a character -/

section Write

variable {b : UInt8} {n v : Nat}

/-- A scalar value is that of its character. -/
theorem toNat_ofNat (valid : v < 0xD800 ∨ 0xDFFF < v ∧ v < 0x110000) :
    (Char.ofNat v).val.toNat = v := by
  unfold Char.ofNat
  rw [dif_pos valid]
  rfl

/-- A byte is made of its own value. -/
theorem ofNat_eq (same : n = b.toNat) : UInt8.ofNat n = b := by
  rw [same, UInt8.ofNat_toNat]

/-- **The bytes of a character that was completed are those it is written in.** -/
theorem Opens.encodeChar {p : Begun} {tail : List UInt8} (opens : Opens b.toNat p)
    (completes : p.Completes tail v) : String.utf8EncodeChar (Char.ofNat v) = b :: tail := by
  cases opens with
  | two least most =>
    obtain ⟨c, rfl, low, high, number⟩ := completes.eq_singleton rfl
    dsimp only at low high number
    unfold String.utf8EncodeChar
    rw [toNat_ofNat (by omega)]
    dsimp only
    rw [if_neg (by omega), if_pos (by omega), ofNat_eq (b := b) (by omega),
      ofNat_eq (b := c) (by omega)]
  | three least most bottom top short surrogate =>
    obtain ⟨c, _, rfl, low, high, rest⟩ := completes.exists_cons rfl
    obtain ⟨d, rfl, low', high', number⟩ := rest.eq_singleton rfl
    dsimp only at low high low' high' number
    unfold String.utf8EncodeChar
    rw [toNat_ofNat (by omega)]
    dsimp only
    rw [if_neg (by omega), if_neg (by omega), if_pos (by omega), ofNat_eq (b := b) (by omega),
      ofNat_eq (b := c) (by omega), ofNat_eq (b := d) (by omega)]
  | four least most bottom top short beyond =>
    obtain ⟨c, _, rfl, low, high, rest⟩ := completes.exists_cons rfl
    obtain ⟨d, _, rfl, low', high', rest⟩ := rest.exists_cons rfl
    obtain ⟨e, rfl, low'', high'', number⟩ := rest.eq_singleton rfl
    dsimp only at low high low' high' low'' high'' number
    unfold String.utf8EncodeChar
    rw [toNat_ofNat (by omega)]
    dsimp only
    rw [if_neg (by omega), if_neg (by omega), if_neg (by omega), ofNat_eq (b := b) (by omega),
      ofNat_eq (b := c) (by omega), ofNat_eq (b := d) (by omega), ofNat_eq (b := e) (by omega)]

/-- A byte that is a character is written as itself. -/
theorem encodeChar_of_ascii (ascii : b.toNat ≤ 0x7F) :
    String.utf8EncodeChar (Char.ofNat b.toNat) = [b] := by
  unfold String.utf8EncodeChar
  rw [toNat_ofNat (by omega)]
  dsimp only
  rw [if_pos ascii, ofNat_eq rfl]

end Write

/-! ## Reading bytes -/

/-- If no unit is ill-formed, what is begun is completed by the next bytes. -/
theorem Begun.exists_completes {p : Begun} {bytes : List UInt8}
    (wellFormed : ∀ u ∈ unitsFrom (some p) bytes, u.isSome) :
    ∃ tail rest v, bytes = tail ++ rest ∧ p.Completes tail v ∧
      unitsFrom (some p) bytes = some (Char.ofNat v) :: unitsFrom none rest := by
  induction bytes generalizing p with
  | nil => exact absurd (wellFormed none (List.mem_singleton_self _)) Bool.false_ne_true
  | cons b bytes ih =>
    rw [unitsFrom_cons, Reading.next] at wellFormed ⊢
    by_cases inside : p.low ≤ b.toNat ∧ b.toNat ≤ p.high
    · cases further : p.further with
      | zero =>
        rw [next_last inside further]
        exact ⟨[b], bytes, _, rfl, .last inside.1 inside.2 further, rfl⟩
      | succ n =>
        rw [next_further inside further] at wellFormed ⊢
        obtain ⟨tail, rest, v, rfl, completes, units⟩ := ih wellFormed
        exact ⟨b :: tail, rest, v, rfl, .more inside.1 inside.2 further completes, units⟩
    · rw [next, if_neg inside] at wellFormed
      exact absurd (wellFormed none (List.mem_cons_self ..)) Bool.false_ne_true

/-- **Bytes without ill-formed units are the bytes of their characters.** -/
theorem encode_of_wellFormed (bytes : List UInt8)
    (wellFormed : ∀ u ∈ units bytes, u.isSome) : encode (lossy bytes) = bytes := by
  cases bytes with
  | nil => rfl
  | cons b bytes =>
    rw [lossy]
    rw [units, unitsFrom_cons, Reading.next] at wellFormed ⊢
    have settles := settles_first b.toNat
    generalize Reading.first b.toNat = reading at settles wellFormed ⊢
    cases settles with
    | ascii ascii =>
      have rest := encode_of_wellFormed bytes fun u mem =>
        wellFormed u (List.mem_append_right _ mem)
      rw [List.singleton_append, List.map_cons, encode_cons, Option.getD_some,
        encodeChar_of_ascii ascii]
      exact congrArg (b :: ·) rest
    | begun opens =>
      rw [List.nil_append] at wellFormed ⊢
      obtain ⟨tail, rest, v, split, completes, read⟩ := Begun.exists_completes wellFormed
      have shorter : rest.length < (b :: bytes).length := by
        rw [split, List.length_cons, List.length_append]
        omega
      rw [read] at wellFormed ⊢
      have others := encode_of_wellFormed rest fun u mem =>
        wellFormed u (List.mem_cons_of_mem _ mem)
      rw [List.map_cons, encode_cons, Option.getD_some, opens.encodeChar completes, split]
      exact congrArg (b :: tail ++ ·) others
    | illFormed => exact absurd (wellFormed none (List.mem_cons_self ..)) Bool.false_ne_true
termination_by bytes.length

/-- **Reading is exact:** a text is read from the bytes that it is written in, and from no
others. -/
theorem decode?_eq_some_iff {bytes : List UInt8} {text : List Char} :
    decode? bytes = some text ↔ bytes = encode text := by
  constructor
  · intro read
    unfold decode? at read
    split at read
    · rename_i all
      rw [← Option.some.inj read, encode_of_wellFormed bytes (List.all_eq_true.1 all)]
    · cases read
  · rintro rfl
    exact decode?_encode text

/-- What cannot be read was written by no text. -/
theorem decode?_eq_none_iff {bytes : List UInt8} :
    decode? bytes = none ↔ ∀ text, bytes ≠ encode text := by
  rw [Option.eq_none_iff_forall_ne_some]
  simp only [ne_eq, decode?_eq_some_iff]

end Utf8
end StackScript
