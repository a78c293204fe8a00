/-
# Bytes and text

Text is a list of characters, a stored string a list of bytes. `encode` writes a
text in UTF-8. Reading goes one byte at a time:

| first byte | bytes to follow | range of the second byte |
| --- | ---: | --- |
| `00`–`7F` | 0 | |
| `C2`–`DF` | 1 | `80`–`BF` |
| `E0` | 2 | `A0`–`BF` |
| `E1`–`EC`, `EE`, `EF` | 2 | `80`–`BF` |
| `ED` | 2 | `80`–`9F` |
| `F0` | 3 | `90`–`BF` |
| `F1`–`F3` | 3 | `80`–`BF` |
| `F4` | 3 | `80`–`8F` |

A byte that cannot continue the character begun ends it as one ill-formed unit and
is then read as a first byte itself, so an ill-formed unit is the longest beginning
of a character that the bytes show. `lossy` puts U+FFFD for each such unit;
`decode?` refuses them. `decode?_encode`: what was written is read back.
-/

namespace StackScript
namespace Utf8

/-- The bytes of a text. -/
def encode (text : List Char) : List UInt8 :=
  text.flatMap String.utf8EncodeChar

@[simp] theorem encode_nil : encode [] = [] := rfl

/-- Characters are encoded one by one. -/
@[simp] theorem encode_cons (c : Char) (text : List Char) :
    encode (c :: text) = String.utf8EncodeChar c ++ encode text := rfl

/-- A text is encoded part by part. -/
@[simp] theorem encode_append (s t : List Char) : encode (s ++ t) = encode s ++ encode t := by
  simp [encode]

/-- A character begun: its value so far, how many bytes follow the next one, and the
range the next one must lie in. -/
structure Begun where
  value : Nat
  further : Nat
  low : Nat
  high : Nat
  deriving DecidableEq

/-- What one byte settles: the units it completes (`none` is an ill-formed one) and
the character it leaves begun. -/
structure Reading where
  units : List (Option Char)
  begun : Option Begun
  deriving DecidableEq

/-- A byte between characters. -/
def Reading.first (b : Nat) : Reading :=
  if b ≤ 0x7F then ⟨[some (Char.ofNat b)], none⟩
  else if b < 0xC2 then ⟨[none], none⟩
  else if b ≤ 0xDF then ⟨[], some ⟨b - 0xC0, 0, 0x80, 0xBF⟩⟩
  else if b = 0xE0 then ⟨[], some ⟨0, 1, 0xA0, 0xBF⟩⟩
  else if b = 0xED then ⟨[], some ⟨0xD, 1, 0x80, 0x9F⟩⟩
  else if b ≤ 0xEF then ⟨[], some ⟨b - 0xE0, 1, 0x80, 0xBF⟩⟩
  else if b = 0xF0 then ⟨[], some ⟨0, 2, 0x90, 0xBF⟩⟩
  else if b ≤ 0xF3 then ⟨[], some ⟨b - 0xF0, 2, 0x80, 0xBF⟩⟩
  else if b = 0xF4 then ⟨[], some ⟨4, 2, 0x80, 0x8F⟩⟩
  else ⟨[none], none⟩

/-- A byte after the beginning `p` of a character. -/
def Begun.next (p : Begun) (b : Nat) : Reading :=
  if p.low ≤ b ∧ b ≤ p.high then
    let value := p.value * 0x40 + (b - 0x80)
    match p.further with
    | 0 => ⟨[some (Char.ofNat value)], none⟩
    | n + 1 => ⟨[], some ⟨value, n, 0x80, 0xBF⟩⟩
  else
    let r := Reading.first b
    ⟨none :: r.units, r.begun⟩

/-- A byte after what is begun, if anything is. -/
def Reading.next : Option Begun → Nat → Reading
  | none, b => first b
  | some p, b => p.next b

/-- The units of some bytes, read after what is begun. -/
def unitsFrom : Option Begun → List UInt8 → List (Option Char)
  | none, [] => []
  | some _, [] => [none]
  | p, b :: bytes =>
    let r := Reading.next p b.toNat
    r.units ++ unitsFrom r.begun bytes

/-- The units of a byte string: its characters, and `none` for each ill-formed part. -/
def units (bytes : List UInt8) : List (Option Char) :=
  unitsFrom none bytes

/-- The text of a byte string, with U+FFFD for each ill-formed part. -/
def lossy (bytes : List UInt8) : List Char :=
  (units bytes).map (·.getD '\uFFFD')

/-- The text of a byte string that is well formed throughout. -/
def decode? (bytes : List UInt8) : Option (List Char) :=
  if (units bytes).all (·.isSome) then some (lossy bytes) else none

/-- The first byte gives its units, and the others are read from where it leads. -/
theorem unitsFrom_cons (p : Option Begun) (b : UInt8) (bytes : List UInt8) :
    unitsFrom p (b :: bytes) =
      (Reading.next p b.toNat).units ++ unitsFrom (Reading.next p b.toNat).begun bytes := by
  cases p <;> rfl

/-- A number below 256 is not changed by being made a byte. -/
theorem toNat_byte {n : Nat} (h : n < 256) : (UInt8.ofNat n).toNat = n := by
  rw [UInt8.toNat_ofNat']; omega

/-- A byte in range that ends its character. -/
theorem Begun.next_last {p : Begun} {b : Nat} (h : p.low ≤ b ∧ b ≤ p.high) (hp : p.further = 0) :
    p.next b = ⟨[some (Char.ofNat (p.value * 0x40 + (b - 0x80)))], none⟩ := by
  simp [Begun.next, h, hp]

/-- A byte in range that more must follow. -/
theorem Begun.next_further {p : Begun} {b n : Nat} (h : p.low ≤ b ∧ b ≤ p.high)
    (hp : p.further = n + 1) :
    p.next b = ⟨[], some ⟨p.value * 0x40 + (b - 0x80), n, 0x80, 0xBF⟩⟩ := by
  simp [Begun.next, h, hp]

/-- The first byte of three begins a character, and leaves room for the second. -/
theorem Reading.first_three {k b : Nat} (hk : k < 16) (hb : 0x80 ≤ b ∧ b ≤ 0xBF)
    (hlow : k = 0 → 0xA0 ≤ b) (hhigh : k = 13 → b ≤ 0x9F) :
    ∃ low high, Reading.first (k + 224) = ⟨[], some ⟨k, 1, low, high⟩⟩ ∧ low ≤ b ∧ b ≤ high := by
  rcases Nat.decEq k 0 with h0 | rfl
  · rcases Nat.decEq k 13 with h1 | rfl
    · exact ⟨0x80, 0xBF, by simp (disch := omega) [Reading.first, if_neg, if_pos], hb⟩
    · exact ⟨0x80, 0x9F, by decide, hb.1, hhigh rfl⟩
  · exact ⟨0xA0, 0xBF, by decide, hlow rfl, hb.2⟩

/-- The first byte of four begins a character, and leaves room for the second. -/
theorem Reading.first_four {k b : Nat} (hk : k ≤ 4) (hb : 0x80 ≤ b ∧ b ≤ 0xBF)
    (hlow : k = 0 → 0x90 ≤ b) (hhigh : k = 4 → b ≤ 0x8F) :
    ∃ low high, Reading.first (k + 240) = ⟨[], some ⟨k, 2, low, high⟩⟩ ∧ low ≤ b ∧ b ≤ high := by
  rcases Nat.decEq k 0 with h0 | rfl
  · rcases Nat.decEq k 4 with h1 | rfl
    · exact ⟨0x80, 0xBF, by simp (disch := omega) [Reading.first, if_neg, if_pos], hb⟩
    · exact ⟨0x80, 0x8F, by decide, hb.1, hhigh rfl⟩
  · exact ⟨0x90, 0xBF, by decide, hlow rfl, hb.2⟩

/-- A written character is read back, whatever follows it. -/
theorem unitsFrom_encodeChar (c : Char) (bytes : List UInt8) :
    unitsFrom none (String.utf8EncodeChar c ++ bytes) = some c :: unitsFrom none bytes := by
  have hc : Char.ofNat c.val.toNat = c := Char.ofNat_toNat c
  have valid : c.val.toNat < 0xD800 ∨ 0xDFFF < c.val.toNat ∧ c.val.toNat < 0x110000 := c.valid
  unfold String.utf8EncodeChar
  generalize c.val.toNat = v at hc valid
  dsimp only
  split
  · rename_i h
    simp only [List.cons_append, List.nil_append, unitsFrom_cons, Reading.next]
    rw [toNat_byte (by omega)]
    simp [Reading.first, h, hc]
  · split
    · simp only [List.cons_append, List.nil_append, unitsFrom_cons]
      rw [toNat_byte (by omega), toNat_byte (by omega)]
      have first : Reading.first (v / 64 % 32 + 192) = ⟨[], some ⟨v / 64, 0, 0x80, 0xBF⟩⟩ := by
        simp (disch := omega) [Reading.first, if_neg, if_pos]; omega
      simp only [Reading.next, first]
      rw [Begun.next_last (by dsimp only; omega) rfl]
      simp only [List.nil_append, List.singleton_append]
      rw [show v / 64 * 0x40 + (v % 64 + 128 - 0x80) = v by omega, hc]
    · split
      · simp only [List.cons_append, List.nil_append, unitsFrom_cons]
        rw [toNat_byte (by omega), toNat_byte (by omega), toNat_byte (by omega)]
        obtain ⟨low, high, first, hlow, hhigh⟩ := Reading.first_three
          (k := v / 4096 % 16) (b := v / 64 % 64 + 128) (by omega) (by omega) (by omega) (by omega)
        simp only [Reading.next, first]
        rw [Begun.next_further ⟨hlow, hhigh⟩ rfl]
        dsimp only
        rw [Begun.next_last (by dsimp only; omega) rfl]
        simp only [List.nil_append, List.singleton_append]
        rw [show (v / 4096 % 16 * 0x40 + (v / 64 % 64 + 128 - 0x80)) * 0x40 +
          (v % 64 + 128 - 0x80) = v by omega, hc]
      · simp only [List.cons_append, List.nil_append, unitsFrom_cons]
        rw [toNat_byte (by omega), toNat_byte (by omega), toNat_byte (by omega),
          toNat_byte (by omega)]
        obtain ⟨low, high, first, hlow, hhigh⟩ := Reading.first_four
          (k := v / 262144 % 8) (b := v / 4096 % 64 + 128) (by omega) (by omega) (by omega)
          (by omega)
        simp only [Reading.next, first]
        rw [Begun.next_further ⟨hlow, hhigh⟩ rfl]
        dsimp only
        rw [Begun.next_further (by dsimp only; omega) rfl]
        dsimp only
        rw [Begun.next_last (by dsimp only; omega) rfl]
        simp only [List.nil_append, List.singleton_append]
        rw [show ((v / 262144 % 8 * 0x40 + (v / 4096 % 64 + 128 - 0x80)) * 0x40 +
          (v / 64 % 64 + 128 - 0x80)) * 0x40 + (v % 64 + 128 - 0x80) = v by omega, hc]

/-- Every encoded character is read as itself, and nothing else is read. -/
@[simp] theorem units_encode (text : List Char) : units (encode text) = text.map some := by
  induction text with
  | nil => rfl
  | cons c text ih =>
    rw [encode_cons, units, unitsFrom_encodeChar]
    simpa [units] using ih

/-- Nothing is lost of a text that was encoded. -/
@[simp] theorem lossy_encode (text : List Char) : lossy (encode text) = text := by
  simp [lossy, Function.comp_def]

/-- What was written is read back. -/
@[simp] theorem decode?_encode (text : List Char) : decode? (encode text) = some text := by
  simp [decode?]

end Utf8
end StackScript
