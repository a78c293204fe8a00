/-
# What an instruction does to the stack

Every instruction takes a fixed number of values off the stack and leaves a fixed number
in their place (`Instruction.takes`, `Instruction.leaves`); the values below stay as they
are. `outcome_step` says all that an instruction can do to the stack, its failures
included. A fault has one of four causes:

| cause | fault |
| --- | --- |
| the values that the program computes with, or the output | any that `isDynamic` |
| fewer values on the stack than are taken | stack underflow |
| more values afterwards than the stack may hold | stack overflow |
| an operand that names no constant, or a constant that is no name | in the code |
-/
import StackScript.Machine.Run
import StackScript.Proofs.Content
import StackScript.Proofs.Machine.Operations

namespace StackScript

namespace Instruction

/-- How many values an instruction takes off the stack. -/
def takes : Instruction → Nat
  | constant _ | pushNil | pushTrue | pushFalse | getGlobal _ | finish => 0
  | pop | defineGlobal _ | setGlobal _ | not | negate | print => 1
  | equal | greater | less | add | subtract | multiply | divide => 2

/-- How many values an instruction leaves in place of those it takes. -/
def leaves : Instruction → Nat
  | pop | defineGlobal _ | print | finish => 0
  | constant _ | pushNil | pushTrue | pushFalse | getGlobal _ | setGlobal _ | not | negate
  | equal | greater | less | add | subtract | multiply | divide => 1

/-- The operand names a constant, and a string where a name is asked for. -/
def Resolves (constants : List Value) (pool : StringPool) : Instruction → Prop
  | constant k => k.toNat < constants.length
  | getGlobal k | defineGlobal k | setGlobal k =>
    ∃ h, constants[k.toNat]? = some (.object h) ∧ pool.isLive h
  | _ => True

/-- An instruction that has its constant still has it when the strings have grown. -/
theorem Resolves.grow {constants : List Value} {before after : StringPool} {i : Instruction}
    (grows : before.Grows after) (resolves : i.Resolves constants before) :
    i.Resolves constants after := by
  have live (h : Handle) : before.isLive h → after.isLive h := by
    intro live
    obtain ⟨s, live⟩ := Option.isSome_iff_exists.1 live
    exact Option.isSome_iff_exists.2 ⟨s, grows.get? live⟩
  cases i with
  | getGlobal k | defineGlobal k | setGlobal k =>
    obtain ⟨h, named, before⟩ := resolves
    exact ⟨h, named, live h before⟩
  | _ => exact resolves

end Instruction

/-- Whether a fault comes from what a program computes or from its output. -/
def RuntimeFault.isDynamic : RuntimeFault → Bool
  | stackOverflow _ | code _ => false
  | _ => true

namespace Machine

/-- Some values are taken off the stack and some are left in their place; those below
stay, and so do the strings. -/
structure Moved (takes leaves : Nat) (m after : Machine) : Prop where
  enough : takes ≤ m.stack.values.length
  values : ∃ left, left.length = leaves ∧ after.stack.values = left ++ m.stack.values.drop takes
  limit : after.stack.limit = m.stack.limit
  grows : m.pool.Grows after.pool

/-- Some values on top are replaced. -/
theorem Moved.replace {m after : Machine} (taken left below : List Value)
    (top : m.stack.values = taken ++ below) (values : after.stack.values = left ++ below)
    (limit : after.stack.limit = m.stack.limit) (grows : m.pool.Grows after.pool) :
    Moved taken.length left.length m after := by
  refine ⟨?_, ⟨left, rfl, ?_⟩, limit, grows⟩
  · rw [top, List.length_append]
    exact Nat.le_add_right ..
  · rw [values, top, List.drop_left]

/-- What an operation that takes and leaves so many values can give. -/
inductive Acts (takes leaves : Nat) (m : Machine) : Except RuntimeFault Machine → Prop where
  | moved {after : Machine} : m.Moved takes leaves after → Acts takes leaves m (.ok after)
  | dynamic {fault : RuntimeFault} : fault.isDynamic → Acts takes leaves m (.error fault)
  | underflow : m.stack.values.length < takes → Acts takes leaves m (.error (.code .stackUnderflow))
  | overflow : m.stack.limit < m.stack.values.length - takes + leaves →
      Acts takes leaves m (.error (.stackOverflow m.stack.limit))

/-! ## Operations -/

/-- Pushing leaves one value. -/
theorem acts_push (m : Machine) (v : Value) : Acts 0 1 m (m.push v) := by
  by_cases free : m.stack.values.length < m.stack.limit
  · rw [push_of_lt v free]
    exact .moved (.replace [] [v] m.stack.values rfl rfl rfl (.refl _))
  · rw [push_of_le v (Nat.not_lt.1 free)]
    exact .overflow (by omega)

/-- Dropping takes one value. -/
theorem acts_pop (m : Machine) : Acts 1 0 m (do return (← m.pop).2) := by
  cases top : m.stack.values with
  | nil =>
    rw [pop_of_nil top]
    exact .underflow (by simp [top])
  | cons v below =>
    obtain ⟨_, popped⟩ := pop_of_cons top
    rw [popped]
    exact .moved (.replace [v] [] below top rfl rfl (.refl _))

/-- An operation on the top value takes one and leaves one, if its own faults are dynamic. -/
theorem acts_mapTop (m : Machine) {f : Value → Except RuntimeFault Value}
    (dynamic : ∀ b fault, f b = .error fault → fault.isDynamic) : Acts 1 1 m (m.mapTop f) := by
  cases top : m.stack.values with
  | nil =>
    rw [mapTop_of_nil top]
    exact .underflow (by simp [top])
  | cons b below =>
    cases computed : f b with
    | error fault =>
      rw [mapTop_of_error top computed]
      exact .dynamic (dynamic b fault computed)
    | ok v =>
      obtain ⟨_, mapped⟩ := mapTop_of_ok top computed
      rw [mapped]
      exact .moved (.replace [b] [v] below top rfl rfl (.refl _))

/-- An operation on the two top values takes two and leaves one, if its own faults are dynamic. -/
theorem acts_mapTop2 (m : Machine) {f : Value → Value → Except RuntimeFault Value}
    (dynamic : ∀ a b fault, f a b = .error fault → fault.isDynamic) :
    Acts 2 1 m (m.mapTop2 f) := by
  match top : m.stack.values with
  | [] | [_] =>
    rw [mapTop2_of_lt (by simp [top])]
    exact .underflow (by simp [top])
  | b :: a :: below =>
    cases computed : f a b with
    | error fault =>
      rw [mapTop2_of_error top computed]
      exact .dynamic (dynamic a b fault computed)
    | ok v =>
      obtain ⟨_, mapped⟩ := mapTop2_of_ok top computed
      rw [mapped]
      exact .moved (.replace [b, a] [v] below top rfl rfl (.refl _))

/-- What arithmetic complains of is a matter of the operands. -/
theorem isDynamic_arithmetic (op : ArithmeticOp) (a b : Value) (fault : RuntimeFault)
    (h : Value.arithmetic op a b = .error fault) : fault.isDynamic := by
  unfold Value.arithmetic at h
  split at h
  · cases op with
    | divide =>
      simp only [ArithmeticOp.onInts] at h
      split at h <;> cases h
      rfl
    | _ => cases h
  · cases h
  · cases h
    rfl

/-- What a comparison complains of is a matter of the operands. -/
theorem isDynamic_order (op : OrderOp) (a b : Value) (fault : RuntimeFault)
    (h : Value.order op a b = .error fault) : fault.isDynamic := by
  unfold Value.order at h
  split at h <;> cases h
  rfl

/-- What a negation complains of is a matter of the operand. -/
theorem isDynamic_negate (b : Value) (fault : RuntimeFault) (h : b.negate = .error fault) :
    fault.isDynamic := by
  unfold Value.negate at h
  split at h <;> cases h
  rfl

/-- An addition takes two values and leaves one. -/
theorem acts_add (m : Machine) : Acts 2 1 m m.add := by
  match top : m.stack.values with
  | [] | [_] =>
    rw [add_of_lt (by simp [top])]
    exact .underflow (by simp [top])
  | b :: a :: below =>
    cases hs : m.string? a with
    | none =>
      rw [add_of_not_texts top (.inl hs)]
      exact acts_mapTop2 m (isDynamic_arithmetic .add)
    | some s =>
      cases ht : m.string? b with
      | none =>
        rw [add_of_not_texts top (.inr ht)]
        exact acts_mapTop2 m (isDynamic_arithmetic .add)
      | some t =>
        obtain ⟨_, added⟩ := add_of_texts top hs ht
        rw [added]
        exact .moved (.replace [b, a] [.object (m.pool.intern (s.bytes ++ t.bytes)).1] below top rfl
          rfl (StringPool.grows_intern ..))

/-- Reading a global leaves one value. -/
theorem acts_getGlobal (m : Machine) (name : Handle) : Acts 0 1 m (m.getGlobal name) := by
  unfold getGlobal
  split
  · exact acts_push m _
  · exact .dynamic rfl

/-- Defining a global takes one value. -/
theorem acts_defineGlobal (m : Machine) (name : Handle) : Acts 1 0 m (m.defineGlobal name) := by
  cases top : m.stack.values with
  | nil =>
    rw [defineGlobal_of_nil name top]
    exact .underflow (by simp [top])
  | cons v below =>
    obtain ⟨_, defined⟩ := defineGlobal_of_cons name top
    rw [defined]
    exact .moved (.replace [v] [] below top rfl rfl (.refl _))

/-- Assigning to a global leaves the value where it is. -/
theorem acts_setGlobal (m : Machine) (name : Handle) : Acts 1 1 m (m.setGlobal name) := by
  cases top : m.stack.values with
  | nil =>
    rw [setGlobal_of_nil name top]
    exact .underflow (by simp [top])
  | cons v below =>
    rw [setGlobal_of_cons name top]
    split
    · exact .moved (.replace [v] [v] below top top rfl (.refl _))
    · exact .dynamic rfl

/-! ## Operands -/

/-- A constant that an instruction has is found. -/
theorem constant_of_resolves {constants : List Value} {pool : StringPool} {k : UInt8}
    (resolves : (Instruction.constant k).Resolves constants pool) :
    ∃ v, constant constants k = .ok v := by
  have : constants[k.toNat]? = some constants[k.toNat] := List.getElem?_eq_getElem resolves
  exact ⟨_, by rw [constant, this]⟩

/-- A name that an instruction has is found. -/
theorem nameConstant_of_resolves {constants : List Value} {m : Machine} {k : UInt8} {h : Handle}
    (named : constants[k.toNat]? = some (.object h)) (live : m.pool.isLive h) :
    m.nameConstant constants k = .ok h := by
  simp [nameConstant, constant, named, live, bind, Except.bind]

/-- Only the code is to blame for a missing constant. -/
theorem exists_code_of_constant {constants : List Value} {k : UInt8} {fault : RuntimeFault}
    (h : constant constants k = .error fault) : ∃ c, fault = .code c := by
  unfold constant at h
  split at h <;> cases h
  exact ⟨_, rfl⟩

/-- Only the code is to blame for a missing name. -/
theorem exists_code_of_nameConstant {constants : List Value} {m : Machine} {k : UInt8}
    {fault : RuntimeFault} (h : m.nameConstant constants k = .error fault) :
    ∃ c, fault = .code c := by
  unfold nameConstant at h
  cases read : constant constants k with
  | error e =>
    rw [read] at h
    obtain rfl : e = fault := by simpa [bind, Except.bind] using h
    exact exists_code_of_constant read
  | ok v =>
    rw [read] at h
    simp only [bind, Except.bind] at h
    split at h
    · split at h <;> cases h
      exact ⟨_, rfl⟩
    · cases h
      exact ⟨_, rfl⟩

/-! ## Instructions -/

/-- Why an instruction can fail. -/
inductive Cause (constants : List Value) (m : Machine) (i : Instruction) : RuntimeFault → Prop where
  | dynamic {fault : RuntimeFault} : fault.isDynamic → Cause constants m i fault
  | underflow : m.stack.values.length < i.takes → Cause constants m i (.code .stackUnderflow)
  | overflow : m.stack.limit < m.stack.values.length - i.takes + i.leaves →
      Cause constants m i (.stackOverflow m.stack.limit)
  | operand (fault : CodeFault) : ¬ i.Resolves constants m.pool → Cause constants m i (.code fault)

/-- What an instruction can do to the stack. -/
inductive Outcome (constants : List Value) (m : Machine) (i : Instruction) : Step → Prop where
  | next {after : Machine} : m.Moved i.takes i.leaves after → Outcome constants m i (.next after)
  | finished : i = .finish → Outcome constants m i (.finished m)
  | failed {fault : RuntimeFault} {after : Machine} (k : Nat) : k ≤ i.takes →
      after.stack.values = m.stack.values.drop k → Cause constants m i fault →
      Outcome constants m i (.failed fault after)

variable {constants : List Value} {m : Machine} {i : Instruction}

/-- An action with the effect of an instruction is one of its outcomes. -/
theorem Acts.outcome {result : Except RuntimeFault Machine}
    (acts : Acts i.takes i.leaves m result) : Outcome constants m i (.ofExcept m result) := by
  cases acts with
  | moved h => exact .next h
  | dynamic h => exact .failed 0 (Nat.zero_le _) rfl (.dynamic h)
  | underflow h => exact .failed 0 (Nat.zero_le _) rfl (.underflow h)
  | overflow h => exact .failed 0 (Nat.zero_le _) rfl (.overflow h)

/-- An instruction that first reads an operand of its own. -/
theorem outcome_of_operand {α : Type} {read : Except RuntimeFault α}
    {act : α → Except RuntimeFault Machine}
    (code : ∀ fault, read = .error fault → ∃ c, fault = .code c)
    (resolves : i.Resolves constants m.pool → ∃ x, read = .ok x)
    (acts : ∀ x, Acts i.takes i.leaves m (act x)) :
    Outcome constants m i (.ofExcept m (read >>= act)) := by
  cases h : read with
  | error fault =>
    obtain ⟨c, rfl⟩ := code fault h
    refine .failed 0 (Nat.zero_le _) rfl (.operand c fun resolved => ?_)
    obtain ⟨x, hx⟩ := resolves resolved
    rw [hx] at h
    cases h
  | ok x => exact (acts x).outcome

/-- An action with a name that the instruction has is one of its outcomes. -/
theorem outcome_of_name {k : UInt8} {act : Handle → Except RuntimeFault Machine}
    (resolves : i.Resolves constants m.pool →
      ∃ h, constants[k.toNat]? = some (.object h) ∧ m.pool.isLive h)
    (acts : ∀ name, Acts i.takes i.leaves m (act name)) :
    Outcome constants m i (.ofExcept m (m.nameConstant constants k >>= act)) := by
  refine outcome_of_operand (fun _ => exists_code_of_nameConstant) (fun resolved => ?_) acts
  obtain ⟨h, named, live⟩ := resolves resolved
  exact ⟨h, nameConstant_of_resolves named live⟩

/-- Printing leaves the stack. -/
theorem stack_print (m : Machine) (text : String) : (m.print text).2.stack = m.stack := by
  unfold print
  dsimp only
  split <;> rfl

/-- Printing leaves the strings. -/
theorem pool_print (m : Machine) (text : String) : (m.print text).2.pool = m.pool := by
  unfold print
  dsimp only
  split <;> rfl

/-- Printing a line leaves the stack. -/
@[simp] theorem stack_printLine (m : Machine) (text : String) :
    (m.printLine text).2.stack = m.stack := by
  unfold printLine
  dsimp only
  split
  · rw [stack_print, stack_print]
  · rw [stack_print]

/-- Printing a line leaves the strings. -/
@[simp] theorem pool_printLine (m : Machine) (text : String) :
    (m.printLine text).2.pool = m.pool := by
  unfold printLine
  dsimp only
  split
  · rw [pool_print, pool_print]
  · rw [pool_print]

/-- Printing takes one value, unless the output refuses the text. -/
theorem outcome_printTop (m : Machine) : Outcome constants m .print m.printTop := by
  unfold printTop
  cases top : m.stack.values with
  | nil =>
    rw [pop_of_nil top]
    exact .failed 0 (Nat.zero_le _) rfl (.underflow (by simp [top, Instruction.takes]))
  | cons v below =>
    obtain ⟨h, popped⟩ := pop_of_cons top
    rw [popped]
    dsimp only
    have stack := stack_printLine (m.withValues below h) (v.text (m.withValues below h).pool)
    have pool := pool_printLine (m.withValues below h) (v.text (m.withValues below h).pool)
    split <;> rename_i after eq <;> rw [eq] at stack pool <;> dsimp only at stack pool
    · refine .next (.replace [v] [] below top ?_ ?_ ?_)
      · rw [stack, values_withValues, List.nil_append]
      · rw [stack, limit_withValues]
      · rw [pool]
        exact .refl _
    · refine .failed 1 (Nat.le_refl _) ?_ (.dynamic rfl)
      rw [stack, top, values_withValues, List.drop_one, List.tail_cons]

/-- **All that an instruction can do to the stack.** -/
theorem outcome_step (constants : List Value) (m : Machine) (i : Instruction) :
    Outcome constants m i (m.step constants i) := by
  cases i with
  | constant k =>
    exact outcome_of_operand (fun _ => exists_code_of_constant) constant_of_resolves
      fun v => acts_push m v
  | pushNil => exact Acts.outcome (i := .pushNil) (acts_push m .nil)
  | pushTrue => exact Acts.outcome (i := .pushTrue) (acts_push m (.bool true))
  | pushFalse => exact Acts.outcome (i := .pushFalse) (acts_push m (.bool false))
  | pop => exact Acts.outcome (i := .pop) (acts_pop m)
  | getGlobal k => exact outcome_of_name id fun name => acts_getGlobal m name
  | defineGlobal k => exact outcome_of_name id fun name => acts_defineGlobal m name
  | setGlobal k => exact outcome_of_name id fun name => acts_setGlobal m name
  | equal => exact Acts.outcome (i := .equal) (acts_mapTop2 m (by simp))
  | greater => exact Acts.outcome (i := .greater) (acts_mapTop2 m (isDynamic_order .greater))
  | less => exact Acts.outcome (i := .less) (acts_mapTop2 m (isDynamic_order .less))
  | add => exact Acts.outcome (i := .add) (acts_add m)
  | subtract =>
    exact Acts.outcome (i := .subtract) (acts_mapTop2 m (isDynamic_arithmetic .subtract))
  | multiply =>
    exact Acts.outcome (i := .multiply) (acts_mapTop2 m (isDynamic_arithmetic .multiply))
  | divide => exact Acts.outcome (i := .divide) (acts_mapTop2 m (isDynamic_arithmetic .divide))
  | not => exact Acts.outcome (i := .not) (acts_mapTop m (by simp))
  | negate => exact Acts.outcome (i := .negate) (acts_mapTop m isDynamic_negate)
  | print => exact outcome_printTop m
  | finish =>
    rw [step]
    split
    · exact .finished rfl
    · exact .failed 0 (Nat.zero_le _) rfl (.dynamic rfl)

end Machine
end StackScript
