/-
# The operand stack

A stack holds at most `limit` values; the bound is part of the type. Pushing onto a
full stack and taking from an empty one are faults.

Room for all `limit` values is set aside when a stack is made. A stack is one for which there
was memory; the program asks for it where it sets up its machine.
-/
import StackScript.RuntimeFault
import StackScript.Value

namespace StackScript

/-- A bounded stack of values. -/
structure Stack where
  /-- The values, the top first. -/
  values : List Value
  /-- How many values the stack may hold. -/
  limit : Nat
  length_le : values.length ≤ limit

namespace Stack

/-- The empty stack, if there is memory for `limit` values. -/
def empty (limit : Nat) : Stack :=
  ⟨[], limit, Nat.zero_le _⟩

/-- The number of values. -/
def size (s : Stack) : Nat :=
  s.values.length

/-- The stack with a value on top. -/
def push (s : Stack) (v : Value) : Except RuntimeFault Stack :=
  if h : s.values.length < s.limit then .ok ⟨v :: s.values, s.limit, h⟩
  else .error (.stackOverflow s.limit)

/-- The top value and the stack below it. -/
def pop (s : Stack) : Except RuntimeFault (Value × Stack) :=
  match values : s.values with
  | [] => .error (.code .stackUnderflow)
  | v :: below =>
    .ok (v, ⟨below, s.limit, by
      have := s.length_le
      rw [values, List.length_cons] at this
      omega⟩)

/-- The value `distance` places below the top. -/
def peek (s : Stack) (distance : Nat) : Except RuntimeFault Value :=
  match s.values[distance]? with
  | some v => .ok v
  | none => .error (.code .stackUnderflow)

/-- The stack without its values. -/
def clear (s : Stack) : Stack :=
  empty s.limit

/-- The values, the bottom first. -/
def toList (s : Stack) : List Value :=
  s.values.reverse

/-- Taking back what was pushed. -/
theorem pop_push {s t : Stack} {v : Value} (h : s.push v = .ok t) : t.pop = .ok (v, s) := by
  unfold push at h
  split at h
  · cases h; rfl
  · cases h

end Stack
end StackScript
