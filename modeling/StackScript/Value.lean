/-
# Values

A value is `nil`, a boolean, a 32-bit integer, a double, or a reference to a stored
string by its handle. A handle is a number only: it may outlive the string that it
stood for.

Two values are the same when they have the same kind and the same content. Doubles
compare as numbers, so a NaN differs from itself and the two zeros are the same;
references compare by handle, which is by content as long as equal strings share one.
-/

namespace StackScript

/-- The number by which a stored string is known. -/
structure Handle where
  index : Nat
  deriving DecidableEq, Repr

/-- What a program computes with. -/
inductive Value where
  | nil
  | bool (b : Bool)
  | int (n : Int32)
  | double (x : Float)
  | object (h : Handle)
  deriving DecidableEq

namespace Value

/-- Only `nil` and `false` count as false. -/
def isFalsey : Value → Bool
  | nil => true
  | bool b => !b
  | _ => false

/-- Whether two values are the same, as `==` in a program sees it. -/
def same : Value → Value → Bool
  | nil, nil => true
  | bool a, bool b => a == b
  | int a, int b => a == b
  | double a, double b => a == b
  | object a, object b => a == b
  | _, _ => false

/-- The handle of a reference. -/
def handle? : Value → Option Handle
  | object h => some h
  | _ => none

end Value
end StackScript
