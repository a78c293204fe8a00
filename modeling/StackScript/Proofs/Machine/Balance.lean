/-
# Runs of balanced code

Code is balanced (`Balanced top h code h'`) if it can be executed with `h` working values
on the stack without ever taking one too many, has `h'` working values at its end, and
never has more than `top` of them after an instruction. That is a property of the code
alone: only `Instruction.takes` and `Instruction.leaves` are added up.

The working values stand on whatever was on the stack before (`Machine.Above`), and a run
of balanced code never touches that. `stands_runSlots` says how such a run can stand or
end, `above_of_mem_passed` what holds of every machine in between (`Machine.passed`).
-/
import Mathlib.Data.List.Forall2
import StackScript.Proofs.Machine.Effect

namespace StackScript

/-! ## Slots that hold code -/

/-- A slot holds an instruction with its line. -/
structure Slot.Holds (slot : Slot) (i : TracedInstruction) : Prop where
  content : slot.content = .instruction i.instruction
  lastLine : slot.lastLine = i.line

/-- Code that is written in bytes is held by their slots. -/
theorem Slot.forall₂_holds_slotsFrom (code : List TracedInstruction) (offset : Nat)
    (before : Option Nat) :
    List.Forall₂ Holds (slotsFrom offset before (code.flatMap (·.bytes))) code := by
  induction code generalizing offset before with
  | nil => exact .nil
  | cons i code ih =>
    rw [List.flatMap_cons, TracedInstruction.bytes, slotsFrom_encode]
    exact .cons ⟨rfl, rfl⟩ (ih ..)

/-- The slots of a program's chunk hold the instructions of its code. -/
theorem Program.forall₂_holds_slots (p : Program) (constants : List Value) :
    List.Forall₂ Slot.Holds (p.chunk constants).slots p.code :=
  Slot.forall₂_holds_slotsFrom p.code 0 none

namespace Machine

/-- A trace adds to the transcript and changes nothing else. -/
theorem exists_trace_eq (m : Machine) (chunk : Chunk) (slot : Slot) :
    ∃ transcript, m.trace chunk slot = { m with transcript } := by
  by_cases traced : m.settings.traceExecution = true
  · simp only [trace, traceStack, log, note, traced, ↓reduceIte]
    exact ⟨_, rfl⟩
  · simp only [trace, traceStack, traced, Bool.false_eq_true, ↓reduceIte]
    exact ⟨m.transcript, rfl⟩

/-- A trace leaves the stack. -/
@[simp] theorem stack_trace (m : Machine) (chunk : Chunk) (slot : Slot) :
    (m.trace chunk slot).stack = m.stack := by
  obtain ⟨_, eq⟩ := m.exists_trace_eq chunk slot
  rw [eq]

/-- A trace leaves the strings. -/
@[simp] theorem pool_trace (m : Machine) (chunk : Chunk) (slot : Slot) :
    (m.trace chunk slot).pool = m.pool := by
  obtain ⟨_, eq⟩ := m.exists_trace_eq chunk slot
  rw [eq]

/-- A trace leaves the globals. -/
@[simp] theorem globals_trace (m : Machine) (chunk : Chunk) (slot : Slot) :
    (m.trace chunk slot).globals = m.globals := by
  obtain ⟨_, eq⟩ := m.exists_trace_eq chunk slot
  rw [eq]

/-- How a run stands after a step. -/
def Step.progress (line : Nat) : Step → Progress
  | .next after => .running after
  | .finished after => .ended .finished after
  | .failed fault after => .ended (.failed fault line) after

/-- A slot with an instruction is run by a step with it. -/
theorem runSlot_of_instruction {slot : Slot} {i : Instruction}
    (content : slot.content = .instruction i) (chunk : Chunk) (m : Machine) :
    runSlot chunk slot m =
      ((m.trace chunk slot).step chunk.constants i).progress slot.lastLine := by
  unfold runSlot
  rw [content]
  dsimp only
  cases (m.trace chunk slot).step chunk.constants i <;> rfl

/-- A slot that holds an instruction of the code is run by a step with it, on its line. -/
theorem runSlot_of_holds {slot : Slot} {i : TracedInstruction} (holds : slot.Holds i)
    (chunk : Chunk) (m : Machine) :
    runSlot chunk slot m =
      ((m.trace chunk slot).step chunk.constants i.instruction).progress i.line := by
  rw [runSlot_of_instruction holds.content, holds.lastLine]

/-- The machines that a run of some slots passes through: one before each slot, and the
one at the end. -/
def passed (chunk : Chunk) : List Slot → Machine → List Machine
  | [], m => [m]
  | slot :: others, m =>
    m :: match runSlot chunk slot m with
      | .running after => passed chunk others after
      | .ended _ after => [after]

/-! ## Balance -/

/-- Code that can be executed with `h` working values, leaves `h'` of them, and has no
more than `top` after any instruction. Only code that has none left may end the run. -/
inductive Balanced (top : Nat) : Nat → List TracedInstruction → Nat → Prop where
  | nil (h : Nat) : Balanced top h [] h
  | cons {h h' : Nat} {i : TracedInstruction} {code : List TracedInstruction}
      (enough : i.instruction.takes ≤ h)
      (room : h - i.instruction.takes + i.instruction.leaves ≤ top)
      (settled : i.instruction = .finish → h = 0)
      (rest : Balanced top (h - i.instruction.takes + i.instruction.leaves) code h') :
      Balanced top h (i :: code) h'

namespace Balanced

variable {top a b c : Nat} {code more : List TracedInstruction}

/-- Code that is balanced up to some height can be followed by code that is from there. -/
theorem append (first : Balanced top a code b) (second : Balanced top b more c) :
    Balanced top a (code ++ more) c := by
  induction first with
  | nil => exact second
  | cons enough room settled _ ih => exact .cons enough room settled (ih second)

/-- A single instruction that does not end the run. -/
theorem single {i : TracedInstruction} (enough : i.instruction.takes ≤ a)
    (room : a - i.instruction.takes + i.instruction.leaves ≤ top)
    (continues : i.instruction ≠ .finish) :
    Balanced top a [i] (a - i.instruction.takes + i.instruction.leaves) :=
  .cons enough room (absurd · continues) (.nil _)

/-- An operation on one or more values that gives one. -/
theorem one {i : TracedInstruction} {k : Nat} (takes : i.instruction.takes = k + 1)
    (leaves : i.instruction.leaves = 1) (le : a + 1 ≤ top) (rest : Balanced top (a + 1) code b) :
    Balanced top (a + (k + 1)) (i :: code) b := by
  refine .cons ?_ ?_ ?_ ?_
  · rw [takes]
    exact Nat.le_add_left ..
  · rw [takes, leaves, Nat.add_sub_cancel]
    exact le
  · intro last
    rw [last] at leaves
    cases leaves
  · rw [takes, leaves, Nat.add_sub_cancel]
    exact rest

end Balanced

/-- The values of a stack are `height` working values on top of `base`. -/
def Above (base : List Value) (height : Nat) (m : Machine) : Prop :=
  ∃ working, working.length = height ∧ m.stack.values = working ++ base

section Above

variable {base : List Value} {height : Nat} {m after : Machine}

/-- The height above the base and the base make the height of the stack. -/
theorem Above.length (above : m.Above base height) :
    m.stack.values.length = height + base.length := by
  obtain ⟨working, rfl, values⟩ := above
  rw [values, List.length_append]

/-- Taking no more than working values leaves the values below alone. -/
theorem Above.drop {k : Nat} (above : m.Above base height) (le : k ≤ height) :
    ∃ working, working.length = height - k ∧ m.stack.values.drop k = working ++ base := by
  obtain ⟨working, rfl, values⟩ := above
  refine ⟨working.drop k, List.length_drop, ?_⟩
  rw [values, List.drop_append_of_le_length le]

/-- A step takes from above the base, if there is enough. -/
theorem Moved.above {takes leaves : Nat} (moved : m.Moved takes leaves after)
    (above : m.Above base height) (le : takes ≤ height) :
    after.Above base (height - takes + leaves) := by
  obtain ⟨left, rfl, values⟩ := moved.values
  obtain ⟨working, length, dropped⟩ := above.drop le
  refine ⟨left ++ working, ?_, ?_⟩
  · rw [List.length_append, length, Nat.add_comm]
  · rw [values, dropped, List.append_assoc]

end Above

/-! ## Runs -/

/-- Why a run of balanced code can fail when the pool, the limit of the stack and the
greatest number of values on it are these. -/
inductive RunCause (constants : List Value) (pool : StringPool) (code : List TracedInstruction)
    (limit size : Nat) : RuntimeFault → Prop where
  | dynamic {fault : RuntimeFault} : fault.isDynamic → RunCause constants pool code limit size fault
  | overflow : limit < size → RunCause constants pool code limit size (.stackOverflow limit)
  | operand (fault : CodeFault) {i : TracedInstruction} : i ∈ code →
      ¬ i.instruction.Resolves constants pool →
      RunCause constants pool code limit size (.code fault)

/-- How a run of balanced code can stand. -/
inductive Stands (constants : List Value) (base : List Value) (top height : Nat)
    (code : List TracedInstruction) (m : Machine) : Progress → Prop where
  | running {after : Machine} : after.Above base height → after.stack.limit = m.stack.limit →
      m.pool.Grows after.pool → Stands constants base top height code m (.running after)
  | finished {after : Machine} : after.stack.values = base →
      after.stack.limit = m.stack.limit →
      Stands constants base top height code m (.ended .finished after)
  | failed {fault : RuntimeFault} (line : Nat) (after : Machine) :
      RunCause constants m.pool code m.stack.limit (top + base.length) fault →
      Stands constants base top height code m (.ended (.failed fault line) after)

variable {chunk : Chunk} {base : List Value} {top h h' : Nat} {i : TracedInstruction}
  {slot : Slot} {slots : List Slot} {code : List TracedInstruction} {m after : Machine}

/-- What can go wrong later can go wrong now, since strings only grow. -/
theorem RunCause.cons {constants : List Value} {pool later : StringPool} {limit size : Nat}
    {fault : RuntimeFault} (cause : RunCause constants later code limit size fault)
    (grows : pool.Grows later) : RunCause constants pool (i :: code) limit size fault := by
  cases cause with
  | dynamic dynamic => exact .dynamic dynamic
  | overflow lt => exact .overflow lt
  | operand fault mem dead =>
    exact .operand fault (List.mem_cons_of_mem i mem) fun resolves => dead (resolves.grow grows)

/-- What is said of the rest of a run, said of the whole run. -/
theorem Stands.trans {constants : List Value} {progress : Progress}
    (first : Stands constants base top h (i :: code) m (.running after))
    (rest : Stands constants base top h' code after progress) :
    Stands constants base top h' (i :: code) m progress := by
  cases first with
  | running _ limit grows =>
    cases rest with
    | running above limit' grows' => exact .running above (limit'.trans limit) (grows.trans grows')
    | finished values limit' => exact .finished values (limit'.trans limit)
    | failed line last cause => exact .failed line last ((limit ▸ cause).cons grows)

/-- One instruction of balanced code. -/
theorem stands_runSlot (holds : slot.Holds i) (above : m.Above base h)
    (enough : i.instruction.takes ≤ h)
    (room : h - i.instruction.takes + i.instruction.leaves ≤ top)
    (settled : i.instruction = .finish → h = 0) :
    Stands chunk.constants base top (h - i.instruction.takes + i.instruction.leaves) (i :: code) m
      (runSlot chunk slot m) := by
  have start : (m.trace chunk slot).Above base h := by rwa [Above, stack_trace]
  have length := start.length
  have outcome := outcome_step chunk.constants (m.trace chunk slot) i.instruction
  rw [runSlot_of_holds holds]
  generalize (m.trace chunk slot).step chunk.constants i.instruction = result at outcome ⊢
  cases outcome with
  | @next after moved =>
    have limit := moved.limit
    have grows := moved.grows
    rw [stack_trace] at limit
    rw [pool_trace] at grows
    exact .running (moved.above start enough) limit grows
  | finished last =>
    obtain ⟨working, empty, values⟩ := start
    rw [settled last] at empty
    rw [List.length_eq_zero_iff.1 empty] at values
    refine .finished values ?_
    rw [stack_trace]
  | @failed fault after k _ _ cause =>
    refine .failed _ after ?_
    cases cause with
    | dynamic dynamic => exact .dynamic dynamic
    | underflow few => omega
    | overflow full =>
      rw [stack_trace] at full length ⊢
      exact .overflow (by omega)
    | operand fault dead =>
      rw [pool_trace] at dead
      exact .operand fault (List.mem_cons_self ..) dead

/-- **How a run of balanced code can stand:** with the working values that its balance
says, at its end with none, or with a fault that is not its own. -/
theorem stands_runSlots (holds : List.Forall₂ Slot.Holds slots code)
    (balanced : Balanced top h code h') (above : m.Above base h) :
    Stands chunk.constants base top h' code m (runSlots chunk slots m) := by
  induction balanced generalizing slots m with
  | nil h =>
    cases holds
    exact .running above rfl (.refl _)
  | @cons h h' i code enough room settled _ ih =>
    cases holds with
    | @cons slot _ slots _ first others =>
      have stands : Stands chunk.constants base top _ (i :: code) m (runSlot chunk slot m) :=
        stands_runSlot first above enough room settled
      rw [runSlots]
      generalize runSlot chunk slot m = progress at stands
      cases stands with
      | @running after above limit grows =>
        exact (Stands.running above limit grows).trans (ih others above)
      | finished values limit => exact .finished values limit
      | failed line last cause => exact .failed line last cause

/-- The end of a step that balanced code takes. -/
theorem above_of_ended {ending : Ending} (holds : slot.Holds i) (above : m.Above base h)
    (enough : i.instruction.takes ≤ h) (eq : runSlot chunk slot m = .ended ending after) :
    ∃ k ≤ h, after.Above base k := by
  have start : (m.trace chunk slot).Above base h := by rwa [Above, stack_trace]
  have outcome := outcome_step chunk.constants (m.trace chunk slot) i.instruction
  rw [runSlot_of_holds holds] at eq
  generalize (m.trace chunk slot).step chunk.constants i.instruction = result at outcome eq
  cases outcome with
  | next _ => cases eq
  | finished _ =>
    cases eq
    exact ⟨h, Nat.le_refl h, start⟩
  | failed k le values _ =>
    cases eq
    obtain ⟨working, length, dropped⟩ := start.drop (Nat.le_trans le enough)
    exact ⟨h - k, Nat.sub_le .., working, length, values.trans dropped⟩

/-- **Every machine that a run of balanced code passes through** has its working values,
`top` at most, on top of the values from before the run. -/
theorem above_of_mem_passed (holds : List.Forall₂ Slot.Holds slots code)
    (balanced : Balanced top h code h') (above : m.Above base h) (le : h ≤ top)
    (mem : after ∈ passed chunk slots m) : ∃ k ≤ top, after.Above base k := by
  induction balanced generalizing slots m with
  | nil h =>
    cases holds
    obtain rfl := List.mem_singleton.1 mem
    exact ⟨h, le, above⟩
  | @cons h h' i code enough room settled _ ih =>
    cases holds with
    | @cons slot _ slots _ first others =>
      have stands : Stands chunk.constants base top _ (i :: code) m (runSlot chunk slot m) :=
        stands_runSlot first above enough room settled
      rw [passed] at mem
      rcases List.mem_cons.1 mem with rfl | mem
      · exact ⟨h, le, above⟩
      · cases eq : runSlot chunk slot m with
        | running next =>
          rw [eq] at stands mem
          cases stands with
          | running above _ _ => exact ih others above room mem
        | ended ending last =>
          rw [eq] at mem
          obtain rfl := List.mem_singleton.1 mem
          obtain ⟨k, hk, above⟩ := above_of_ended first above enough eq
          exact ⟨k, Nat.le_trans hk le, above⟩

/-- Code that ends with `finish` has no good end but that. -/
theorem runSlots_ne_running {line : Nat}
    (holds : List.Forall₂ Slot.Holds slots (code ++ [⟨.finish, line⟩])) :
    runSlots chunk slots m ≠ .running after := by
  induction code generalizing slots m with
  | nil =>
    obtain ⟨slot, others, first, -, rfl⟩ := List.forall₂_cons_right_iff.1 holds
    rw [runSlots, runSlot_of_holds first, step]
    cases (m.trace chunk slot).output.flush with
    | none => exact Progress.noConfusion
    | some why => exact Progress.noConfusion
  | cons i code ih =>
    obtain ⟨slot, others, -, rest, rfl⟩ := List.forall₂_cons_right_iff.1 holds
    rw [runSlots]
    cases runSlot chunk slot m with
    | running next => exact ih rest
    | ended ending last => exact Progress.noConfusion

/-- **How a run of a balanced chunk can end.** -/
theorem exists_stands_run {line : Nat} {last : Nat}
    (holds : List.Forall₂ Slot.Holds chunk.slots (code ++ [⟨.finish, line⟩]))
    (balanced : Balanced top 0 (code ++ [⟨.finish, line⟩]) last) :
    ∃ ending after, m.run chunk = (ending, after) ∧
      Stands chunk.constants m.stack.values top last (code ++ [⟨.finish, line⟩]) m
        (.ended ending after) := by
  have stands : Stands chunk.constants m.stack.values top last _ m (runSlots chunk chunk.slots m) :=
    stands_runSlots holds balanced ⟨[], rfl, rfl⟩
  cases eq : runSlots chunk chunk.slots m with
  | running after => exact absurd eq (runSlots_ne_running holds)
  | ended ending after =>
    rw [eq] at stands
    exact ⟨ending, after, by rw [run, eq], stands⟩

/-- The machine as it starts to run a chunk. -/
def begun (m : Machine) (chunk : Chunk) : Machine :=
  m.log .debug .machine s!"running chunk: {chunk.size} bytes"

/-- A run that finishes is answered with success, and logged. -/
theorem interpretChunk_of_finished (h : (m.begun chunk).run chunk = (.finished, after)) :
    m.interpretChunk chunk =
      (.ok, after.log .debug .machine s!"run finished, {after.globals.size} globals defined") := by
  rw [interpretChunk, ← begun, h]

/-- A run that fails is answered with its fault, and aborted. -/
theorem interpretChunk_of_failed {fault : RuntimeFault} {line : Nat}
    (h : (m.begun chunk).run chunk = (.failed fault line, after)) :
    m.interpretChunk chunk = (.runtimeError, after.abort fault line) := by
  rw [interpretChunk, ← begun, h]

end Machine
end StackScript
