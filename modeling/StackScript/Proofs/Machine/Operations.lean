/-
# What the operations of the machine do

One equation for each operation of the machine and each way it can go. An operation
that succeeds changes the values on the stack (`Machine.withValues`), and beside them at
most the globals or the strings:

| operation | needs | values afterwards |
| --- | --- | --- |
| push `v` | a free place | `v`, then those before |
| pop | a value on top | those below it |
| `mapTop f` | a value `b` on top | `f b`, then those below |
| `mapTop2 f` | two values on top, `b` and then `a` | `f a b`, then those below |
| add, two strings | the same | the joined string, then those below |
| read global | a binding, and a free place | its value, then those before |
| define global | a value on top | those below it |
| assign global | a value on top, and a binding | the same |
-/
import StackScript.Machine.Step

namespace StackScript
namespace Machine

/-- The machine with other values on its stack. -/
def withValues (m : Machine) (values : List Value) (h : values.length ≤ m.stack.limit) : Machine :=
  { m with stack := ⟨values, m.stack.limit, h⟩ }

section WithValues

variable (m : Machine) (values : List Value) (h : values.length ≤ m.stack.limit)

/-- The values are those that were put on the stack. -/
@[simp] theorem values_withValues : (m.withValues values h).stack.values = values := rfl

/-- Other values do not change the limit. -/
@[simp] theorem limit_withValues : (m.withValues values h).stack.limit = m.stack.limit := rfl

/-- Other values do not change the strings. -/
@[simp] theorem pool_withValues : (m.withValues values h).pool = m.pool := rfl

end WithValues

variable {m : Machine} {a b v : Value} {below : List Value} {fault : RuntimeFault}

/-! ## Stack -/

/-- Where there is room, a value is pushed. -/
theorem push_of_lt (v : Value) (free : m.stack.values.length < m.stack.limit) :
    m.push v = .ok (m.withValues (v :: m.stack.values) free) := by
  rw [push, Stack.push, dif_pos free]
  rfl

/-- A value is pushed on top of values that were put on the stack. -/
theorem push_withValues {values : List Value} {h : values.length ≤ m.stack.limit} (v : Value)
    (free : values.length < m.stack.limit) :
    (m.withValues values h).push v = .ok (m.withValues (v :: values) free) :=
  push_of_lt (m := m.withValues values h) v free

/-- Where there is no room, the stack overflows. -/
theorem push_of_le (v : Value) (full : m.stack.limit ≤ m.stack.values.length) :
    m.push v = .error (.stackOverflow m.stack.limit) := by
  rw [push, Stack.push, dif_neg (Nat.not_lt.2 full)]
  rfl

/-- Nothing can be taken off an empty stack. -/
theorem pop_of_nil (top : m.stack.values = []) : m.pop = .error (.code .stackUnderflow) := by
  rcases m with ⟨settings, ⟨values, limit, le⟩, globals, pool, output, errors, transcript⟩
  dsimp only at top
  subst top
  rfl

/-- The top value is taken off the others. -/
theorem pop_of_cons (top : m.stack.values = v :: below) :
    ∃ h, m.pop = .ok (v, m.withValues below h) := by
  rcases m with ⟨settings, ⟨values, limit, le⟩, globals, pool, output, errors, transcript⟩
  dsimp only at top
  subst top
  exact ⟨_, rfl⟩

section MapTop

variable {f : Value → Except RuntimeFault Value}

/-- On an empty stack there is no top value to work on. -/
theorem mapTop_of_nil (top : m.stack.values = []) :
    m.mapTop f = .error (.code .stackUnderflow) := by
  rw [mapTop, pop_of_nil top]
  rfl

/-- A fault of the operation is one of the machine. -/
theorem mapTop_of_error (top : m.stack.values = b :: below) (h : f b = .error fault) :
    m.mapTop f = .error fault := by
  obtain ⟨_, popped⟩ := pop_of_cons top
  simp only [mapTop, popped, bind, Except.bind, h]

/-- The result takes the place of the top value. -/
theorem mapTop_of_ok (top : m.stack.values = b :: below) (h : f b = .ok v) :
    ∃ h, m.mapTop f = .ok (m.withValues (v :: below) h) := by
  obtain ⟨_, popped⟩ := pop_of_cons top
  have room := m.stack.length_le
  rw [top, List.length_cons] at room
  refine ⟨room, ?_⟩
  simp only [mapTop, popped, bind, Except.bind, h]
  exact push_withValues v room

end MapTop

section MapTop2

variable {f : Value → Value → Except RuntimeFault Value}

/-- With fewer than two values there is nothing to work on. -/
theorem mapTop2_of_lt (few : m.stack.values.length < 2) :
    m.mapTop2 f = .error (.code .stackUnderflow) := by
  cases top : m.stack.values with
  | nil =>
    rw [mapTop2, pop_of_nil top]
    rfl
  | cons b below =>
    obtain ⟨h, popped⟩ := pop_of_cons top
    rw [top, List.length_cons] at few
    have top' : (m.withValues below h).stack.values = [] := List.eq_nil_of_length_eq_zero
      (by rw [values_withValues]; omega)
    simp only [mapTop2, popped, bind, Except.bind, pop_of_nil top']

/-- A fault of an operation on two values is one of the machine. -/
theorem mapTop2_of_error (top : m.stack.values = b :: a :: below) (h : f a b = .error fault) :
    m.mapTop2 f = .error fault := by
  obtain ⟨_, popped⟩ := pop_of_cons top
  obtain ⟨_, popped'⟩ := pop_of_cons (values_withValues m (a :: below) ‹_›)
  simp only [mapTop2, popped, popped', bind, Except.bind, h]

/-- The result takes the place of both values. -/
theorem mapTop2_of_ok (top : m.stack.values = b :: a :: below) (h : f a b = .ok v) :
    ∃ h, m.mapTop2 f = .ok (m.withValues (v :: below) h) := by
  obtain ⟨_, popped⟩ := pop_of_cons top
  obtain ⟨_, popped'⟩ := pop_of_cons (values_withValues m (a :: below) ‹_›)
  have room := m.stack.length_le
  rw [top, List.length_cons, List.length_cons] at room
  refine ⟨Nat.le_of_succ_le room, ?_⟩
  simp only [mapTop2, popped, popped', bind, Except.bind, h]
  exact push_withValues v (Nat.le_of_succ_le room)

end MapTop2

/-! ## Addition -/

/-- With fewer than two values there is nothing to add. -/
theorem add_of_lt (few : m.stack.values.length < 2) : m.add = .error (.code .stackUnderflow) := by
  match top : m.stack.values with
  | [] => simp [add, Stack.peek, top, bind, Except.bind]
  | [b] => simp [add, Stack.peek, top, bind, Except.bind]
  | _ :: _ :: _ =>
    rw [top, List.length_cons, List.length_cons] at few
    omega

/-- Two texts are joined, and the joint one is put into the pool. -/
theorem add_of_texts {s t : StoredString} (top : m.stack.values = b :: a :: below)
    (hs : m.string? a = some s) (ht : m.string? b = some t) :
    ∃ h, m.add = .ok ({ m with pool := (m.pool.intern (s.bytes ++ t.bytes)).2 }.withValues
      (.object (m.pool.intern (s.bytes ++ t.bytes)).1 :: below) h) := by
  obtain ⟨_, popped⟩ := pop_of_cons top
  obtain ⟨_, popped'⟩ := pop_of_cons (values_withValues m (a :: below) ‹_›)
  have room := m.stack.length_le
  rw [top, List.length_cons, List.length_cons] at room
  refine ⟨Nat.le_of_succ_le room, ?_⟩
  simp only [add, Stack.peek, top, List.getElem?_cons_zero, List.getElem?_cons_succ, bind,
    Except.bind, hs, ht, popped, popped']
  exact push_withValues (m := { m with pool := (m.pool.intern (s.bytes ++ t.bytes)).2 }) _
    (Nat.le_of_succ_le room)

/-- Unless both are texts, an addition is one of numbers. -/
theorem add_of_not_texts (top : m.stack.values = b :: a :: below)
    (h : m.string? a = none ∨ m.string? b = none) :
    m.add = m.mapTop2 (Value.arithmetic .add) := by
  simp only [add, Stack.peek, top, List.getElem?_cons_zero, List.getElem?_cons_succ, bind,
    Except.bind]
  rcases h with h | h
  · rw [h]
  · rw [h]
    cases m.string? a <;> rfl

/-! ## Globals -/

/-- Without a value there is nothing to define. -/
theorem defineGlobal_of_nil (name : Handle) (top : m.stack.values = []) :
    m.defineGlobal name = .error (.code .stackUnderflow) := by
  rw [defineGlobal, pop_of_nil top]
  rfl

/-- A definition takes the top value and binds the name to it. -/
theorem defineGlobal_of_cons (name : Handle) (top : m.stack.values = v :: below) :
    ∃ h, m.defineGlobal name =
      .ok ({ m with globals := m.globals.bind name v }.withValues below h) := by
  obtain ⟨room, popped⟩ := pop_of_cons top
  refine ⟨room, ?_⟩
  rw [defineGlobal, popped]
  rfl

/-- Without a value there is nothing to assign. -/
theorem setGlobal_of_nil (name : Handle) (top : m.stack.values = []) :
    m.setGlobal name = .error (.code .stackUnderflow) := by
  simp [setGlobal, Stack.peek, top, bind, Except.bind]

/-- An assignment binds a name that is bound already, and leaves the value. -/
theorem setGlobal_of_cons (name : Handle) (top : m.stack.values = v :: below) :
    m.setGlobal name = if m.globals.isBound name
      then .ok { m with globals := m.globals.bind name v }
      else .error (m.undefinedVariable name) := by
  simp [setGlobal, Stack.peek, top, bind, Except.bind, pure, Except.pure]

end Machine
end StackScript
