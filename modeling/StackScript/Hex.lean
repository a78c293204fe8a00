/-
# Hexadecimal digits

Digits of base sixteen are written as capital letters from ten on, bytes with two digits.
-/

namespace StackScript
namespace Hex

/-- The digit with a value below sixteen. -/
def digit (n : Nat) : Char :=
  if n < 10 then Char.ofNat ('0'.toNat + n) else Char.ofNat ('A'.toNat + (n - 10))

/-- Different values have different digits. -/
theorem digit_inj : ∀ m < 16, ∀ n < 16, digit m = digit n → m = n := by decide

/-- A byte as two digits. -/
def byte (b : UInt8) : String :=
  String.ofList [digit (b.toNat / 16), digit (b.toNat % 16)]

end Hex
end StackScript
