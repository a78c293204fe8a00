/-
# The 32-bit FNV-1a hash

The hash of a byte string starts at an offset basis and takes in one byte after the
other: exclusive or with the byte, then multiplication by a prime, modulo `2 ^ 32`.
-/

namespace StackScript
namespace Fnv

/-- The hash of no bytes. -/
def basis : UInt32 := 2166136261

/-- The multiplier of every step. -/
def prime : UInt32 := 16777619

/-- The hash after one byte more. -/
def absorb (h : UInt32) (b : UInt8) : UInt32 :=
  (h ^^^ b.toUInt32) * prime

/-- The hash of a byte string. -/
def hash (bytes : List UInt8) : UInt32 :=
  bytes.foldl absorb basis

/-- More bytes are hashed by going on from the hash of those before them. -/
theorem hash_append (s t : List UInt8) : hash (s ++ t) = t.foldl absorb (hash s) := by
  simp [hash]

end Fnv
end StackScript
