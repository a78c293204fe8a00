/-
# Runs in lockstep

A program sees some parts of a machine, and not the others:

| seen | not seen |
| --- | --- |
| stack, globals, strings, output, printed text | settings, error stream, reported text, log |

Two machines that agree on what is seen (`Machine.Quiet`) go on agreeing on it, instruction by
instruction (`Quiet.step`). What is not seen is written and never read, so nothing of it comes
back to what is seen: not whether instructions are logged, nor whether the error stream refuses
a line.

The same holds of two chunks of the same bytes and constants, whose lines differ
(`Chunk.Resembles`). A line is read only when a fault is reported, and then the run has ended
(`Quiet.interpretChunk`).
-/
import StackScript.Proofs.Machine.Coupled
import StackScript.Proofs.Parser.Resemblance
import StackScript.Proofs.Session

namespace StackScript
namespace Machine

variable {m m' : Machine}

namespace Quiet

/-- Which of two machines is observed does not matter. -/
theorem symm (quiet : m.Quiet m') : m'.Quiet m :=
  ⟨quiet.stack.symm, quiet.globals.symm, quiet.pool.symm, quiet.output.symm, quiet.printed.symm⟩

/-- What is not seen has changed on either side. -/
theorem sides {after after' : Machine} (quiet : m.Quiet m') (left : m.Quiet after)
    (right : m'.Quiet after') : after.Quiet after' :=
  (left.symm.trans quiet).trans right

/-- The same stack may be put into both machines. -/
theorem withStack (quiet : m.Quiet m') (stack : Stack) : { m with stack }.Quiet { m' with stack } :=
  ⟨rfl, quiet.globals, quiet.pool, quiet.output, quiet.printed⟩

/-- The same strings may be put into both machines. -/
theorem withPool (quiet : m.Quiet m') (pool : StringPool) :
    { m with pool }.Quiet { m' with pool } :=
  ⟨quiet.stack, quiet.globals, rfl, quiet.output, quiet.printed⟩

/-- Machines that differ in what is observed are coupled. -/
theorem coupled : Coupled Quiet where
  stack := stack
  globals := globals
  pool := pool
  withStack stack quiet := quiet.withStack stack
  withGlobals _ quiet := ⟨quiet.stack, rfl, quiet.pool, quiet.output, quiet.printed⟩
  withPool pool quiet := quiet.withPool pool

/-- A line is printed by both machines or refused by both. -/
theorem printLine (quiet : m.Quiet m') (text : String) :
    (m'.printLine text).1 = (m.printLine text).1 ∧
      (m.printLine text).2.Quiet (m'.printLine text).2 := by
  obtain ⟨prints, refusal⟩ := m.prints_printLine text
  obtain ⟨prints', refusal'⟩ := m'.prints_printLine text
  rw [quiet.output] at refusal'
  obtain ⟨stack, globals, pool⟩ := coupled.shares_printLine quiet text
  refine ⟨refusal'.trans refusal.symm, stack, globals, pool, ?_, ?_⟩
  · rw [prints'.output, prints.output, quiet.output]
  · rw [prints'.printed, prints.printed, quiet.printed, quiet.output]

end Quiet

/-! ## Instructions -/

/-- Two steps end in the same way, with machines that agree on what is seen. -/
inductive Step.Quiet : Step → Step → Prop where
  | next {m m' : Machine} : m.Quiet m' → Step.Quiet (.next m) (.next m')
  | finished {m m' : Machine} : m.Quiet m' → Step.Quiet (.finished m) (.finished m')
  | failed {m m' : Machine} (fault : RuntimeFault) : m.Quiet m' →
      Step.Quiet (.failed fault m) (.failed fault m')

namespace Quiet

/-- Results that match are steps that match. -/
theorem ofExcept {result result' : Except RuntimeFault Machine} (quiet : m.Quiet m')
    (both : Matches Quiet result result') :
    Step.Quiet (.ofExcept m result) (.ofExcept m' result') := by
  cases both with
  | ok both => exact .next both
  | error fault => exact .failed fault quiet

/-- Both machines print the top value, or neither does. -/
theorem printTop (quiet : m.Quiet m') : Step.Quiet m.printTop m'.printTop := by
  rcases coupled.printTop_cases quiet with ⟨fault, eq, eq'⟩ | ⟨text, a, a', quiet, eq, eq'⟩
  · rw [eq, eq']
    exact .failed fault quiet
  · obtain ⟨same, after⟩ := quiet.printLine text
    rw [eq, eq']
    generalize a.printLine text = line, a'.printLine text = line' at same after
    obtain ⟨_, last⟩ := line
    obtain ⟨refusal, last'⟩ := line'
    obtain rfl := same
    cases refusal with
    | none => exact .next after
    | some why => exact .failed _ after

/-- **An instruction does not notice what it does not see.** -/
theorem step (quiet : m.Quiet m') (constants : List Value) (i : Instruction) :
    Step.Quiet (m.step constants i) (m'.step constants i) := by
  by_cases prints : i = .print
  · subst prints
    exact quiet.printTop
  by_cases finishes : i = .finish
  · subst finishes
    rw [Machine.step, Machine.step, quiet.output]
    split
    · exact .finished quiet
    · exact .failed _ quiet
  obtain ⟨act, acts, both⟩ := coupled.exists_act constants prints finishes
  rw [acts, acts]
  exact quiet.ofExcept (both m m' quiet)

end Quiet
end Machine

/-! ## Chunks that differ in lines -/

section Lines

variable {L : Nat → Nat → Prop}

/-- The same byte, on lines that are related. -/
structure CodeByte.Resembles (L : Nat → Nat → Prop) (b b' : CodeByte) : Prop where
  byte : b'.byte = b.byte
  line : L b.line b'.line

/-- The same bytes and constants, on lines that are related. -/
structure Chunk.Resembles (L : Nat → Nat → Prop) (chunk chunk' : Chunk) : Prop where
  code : List.Forall₂ (CodeByte.Resembles L) chunk.code chunk'.code
  constants : chunk'.constants = chunk.constants

/-- The same reading at the same place, on lines that are related. -/
structure Slot.Resembles (L : Nat → Nat → Prop) (slot slot' : Slot) : Prop where
  offset : slot'.offset = slot.offset
  content : slot'.content = slot.content
  lastLine : L slot.lastLine slot'.lastLine

/-- The same end, on lines that are related. -/
inductive Machine.Ending.Resembles (L : Nat → Nat → Prop) : Ending → Ending → Prop where
  | finished : Resembles L .finished .finished
  | failed (fault : RuntimeFault) {line line' : Nat} : L line line' →
      Resembles L (.failed fault line) (.failed fault line')

/-- The same progress, on lines that are related, with machines that agree on what is seen. -/
inductive Machine.Progress.Resembles (L : Nat → Nat → Prop) : Progress → Progress → Prop where
  | running {m m' : Machine} : m.Quiet m' → Resembles L (.running m) (.running m')
  | ended {ending ending' : Ending} {m m' : Machine} : ending.Resembles L ending' → m.Quiet m' →
      Resembles L (.ended ending m) (.ended ending' m')

/-- A chunk resembles itself. -/
theorem Chunk.Resembles.refl (L : Nat → Nat → Prop) (same : ∀ line, L line line) (chunk : Chunk) :
    chunk.Resembles L chunk :=
  ⟨List.forall₂_same.2 fun b _ => ⟨rfl, same b.line⟩, rfl⟩

/-- Chunks that resemble each other are of one size. -/
theorem Chunk.Resembles.size {chunk chunk' : Chunk} (alike : chunk.Resembles L chunk') :
    chunk'.size = chunk.size :=
  alike.code.length_eq.symm

/-- Reading the same bytes gives the same slots. -/
theorem Slot.resembles_slotsFrom {code code' : List CodeByte}
    (alike : List.Forall₂ (CodeByte.Resembles L) code code') (offset : Nat)
    (before before' : Option Nat) :
    List.Forall₂ (Slot.Resembles L) (slotsFrom offset before code)
      (slotsFrom offset before' code') := by
  fun_induction slotsFrom offset before code generalizing before' code' with
  | case1 =>
    cases alike
    exact .nil
  | case2 offset before b rest unknown ih =>
    obtain _ | ⟨first, others⟩ := alike
    rw [slotsFrom, first.byte, unknown]
    exact .cons ⟨rfl, rfl, first.line⟩ (ih others _)
  | case3 offset before b rest op known i form ih =>
    obtain _ | ⟨first, others⟩ := alike
    rw [slotsFrom, first.byte, known]
    dsimp only
    rw [form]
    exact .cons ⟨rfl, rfl, first.line⟩ (ih others _)
  | case4 offset before b op known complete form =>
    obtain _ | ⟨first, others⟩ := alike
    cases others
    rw [slotsFrom, first.byte, known]
    dsimp only
    rw [form]
    exact .cons ⟨rfl, rfl, first.line⟩ .nil
  | case5 offset before b op known complete form k rest ih =>
    obtain _ | ⟨first, _ | ⟨second, others⟩⟩ := alike
    rw [slotsFrom, first.byte, known]
    dsimp only
    rw [form]
    exact .cons ⟨rfl, congrArg (Content.instruction <| complete ·) second.byte, second.line⟩
      (ih others _)

namespace Machine

variable {m m' : Machine} {chunk chunk' : Chunk}

/-- Slots that resemble each other make the same progress. -/
theorem Quiet.runSlot {slot slot' : Slot} (quiet : m.Quiet m') (alike : chunk.Resembles L chunk')
    (same : slot.Resembles L slot') :
    Progress.Resembles L (runSlot chunk slot m) (runSlot chunk' slot' m') := by
  have traced := quiet.sides (m.quiet_trace chunk slot) (m'.quiet_trace chunk' slot')
  unfold Machine.runSlot
  dsimp only
  rw [same.content, same.offset]
  split
  · exact .ended (.failed _ same.lastLine) traced
  · exact .ended (.failed _ same.lastLine) traced
  · rename_i i _
    have stepped := traced.step chunk.constants i
    rw [alike.constants]
    generalize (m.trace chunk slot).step _ i = result, (m'.trace chunk' slot').step _ i = result'
      at stepped
    cases stepped with
    | next after => exact .running after
    | finished after => exact .ended .finished after
    | failed fault after => exact .ended (.failed fault same.lastLine) after

/-- Slots that resemble each other, one by one, make the same progress in turn. -/
theorem Quiet.runSlots {slots slots' : List Slot} (alike : chunk.Resembles L chunk')
    (same : List.Forall₂ (Slot.Resembles L) slots slots') (quiet : m.Quiet m') :
    Progress.Resembles L (runSlots chunk slots m) (runSlots chunk' slots' m') := by
  induction same generalizing m m' with
  | nil => exact .running quiet
  | cons first _ ih =>
    have ran := quiet.runSlot alike first
    rw [Machine.runSlots, Machine.runSlots]
    generalize Machine.runSlot chunk _ m = progress, Machine.runSlot chunk' _ m' = progress' at ran
    cases ran with
    | running after => exact ih after
    | ended ending after => exact .ended ending after

/-- The lines of a byte are related, and so is the line of a byte that is not there. -/
theorem lineAt_resembles (alike : chunk.Resembles L chunk') (nowhere : L 0 0) (offset : Nat) :
    L (chunk.lineAt offset) (chunk'.lineAt offset) := by
  unfold Chunk.lineAt
  have code := alike.code
  generalize chunk.code = code, chunk'.code = code' at code
  induction code generalizing offset with
  | nil => exact nowhere
  | cons first _ ih =>
    cases offset with
    | zero => exact first.line
    | succ offset => exact ih offset

/-- Chunks that resemble each other have runs that do. -/
theorem Quiet.run (quiet : m.Quiet m') (alike : chunk.Resembles L chunk') (nowhere : L 0 0) :
    (m.run chunk).1.Resembles L (m'.run chunk').1 ∧ (m.run chunk).2.Quiet (m'.run chunk').2 := by
  have ran := quiet.runSlots alike (Slot.resembles_slotsFrom alike.code 0 none none)
  unfold Machine.run Chunk.slots
  generalize Machine.runSlots chunk _ m = progress, Machine.runSlots chunk' _ m' = progress' at ran
  cases ran with
  | running after =>
    dsimp only
    rw [alike.size]
    exact ⟨.failed _ (lineAt_resembles alike nowhere _),
      after.sides (quiet_traceStack _) (quiet_traceStack _)⟩
  | ended ending after => exact ⟨ending, after⟩

/-- Two faulty runs end alike on any lines. -/
theorem Quiet.abort (quiet : m.Quiet m') (fault : RuntimeFault) (line line' : Nat) :
    (m.abort fault line).Quiet (m'.abort fault line') := by
  obtain ⟨reported, left, eq⟩ := m.abort_eq fault line
  obtain ⟨reported', right, eq'⟩ := m'.abort_eq fault line'
  have both := quiet.sides left right
  rw [eq, eq', both.stack]
  exact both.withStack _

/-- Both machines are concluded alike. -/
theorem Quiet.concluded {ending ending' : Ending} (quiet : m.Quiet m')
    (same : ending.Resembles L ending') : (m.concluded ending).Quiet (m'.concluded ending') := by
  cases same with
  | finished => exact quiet.sides (quiet_log ..) (quiet_log ..)
  | failed fault _ => exact quiet.abort fault _ _

/-- Endings that resemble each other have the same result. -/
theorem Ending.Resembles.result {ending ending' : Ending} (same : ending.Resembles L ending') :
    ending'.result = ending.result := by
  cases same <;> rfl

/-- Both machines begin alike. -/
theorem Quiet.begun (quiet : m.Quiet m') (chunk chunk' : Chunk) :
    (m.begun chunk).Quiet (m'.begun chunk') :=
  quiet.sides (quiet_log ..) (quiet_log ..)

/-- **Chunks that differ in lines run alike** on machines that differ in what is not seen. -/
theorem Quiet.interpretChunk (quiet : m.Quiet m') (alike : chunk.Resembles L chunk')
    (nowhere : L 0 0) :
    (m'.interpretChunk chunk').1 = (m.interpretChunk chunk).1 ∧
      (m.interpretChunk chunk).2.Quiet (m'.interpretChunk chunk').2 := by
  obtain ⟨ending, after⟩ := (quiet.begun chunk chunk').run alike nowhere
  rw [interpretChunk_eq, interpretChunk_eq]
  exact ⟨ending.result, after.concluded ending⟩

end Machine

/-! ## Sources that differ in lines -/

/-- The same chunk or the same diagnostics, on lines that are related, and the same strings. -/
inductive Compiled (L : Nat → Nat → Prop) : Except (List Diagnostic) Chunk × StringPool →
    Except (List Diagnostic) Chunk × StringPool → Prop where
  | ok {chunk chunk' : Chunk} {pool : StringPool} : chunk.Resembles L chunk' →
      Compiled L (.ok chunk, pool) (.ok chunk', pool)
  | error {diagnostics diagnostics' : List Diagnostic} {pool : StringPool} :
      List.Forall₂ (Diagnostic.Resembles L) diagnostics diagnostics' →
      Compiled L (.error diagnostics, pool) (.error diagnostics', pool)

/-- What was compiled resembles itself. -/
theorem Compiled.refl (same : ∀ line, L line line)
    (result : Except (List Diagnostic) Chunk × StringPool) : Compiled L result result := by
  obtain ⟨_ | chunk, pool⟩ := result
  · exact .error (List.forall₂_same.2 fun d _ => ⟨same d.line, rfl, rfl⟩)
  · exact .ok (.refl L same chunk)

namespace Machine

variable {m m' : Machine} {source source' : String}

/-- **Sources that differ in lines run alike** on machines that differ in what is not seen. -/
theorem Quiet.interpret (quiet : m.Quiet m') (nowhere : L 0 0)
    (alike : Compiled L (StackScript.compile source m.pool)
      (StackScript.compile source' m'.pool)) :
    (m'.interpret source').1 = (m.interpret source).1 ∧
      (m.interpret source).2.Quiet (m'.interpret source').2 := by
  rw [Machine.interpret, Machine.interpret, Machine.compile, Machine.compile]
  generalize StackScript.compile source m.pool = result,
    StackScript.compile source' m'.pool = result' at alike
  cases alike with
  | ok same => exact (quiet.withPool _).interpretChunk same nowhere
  | error _ =>
    exact ⟨rfl, (quiet.withPool _).sides ((quiet_log ..).trans (quiet_reject ..))
      ((quiet_log ..).trans (quiet_reject ..))⟩

end Machine

end Lines
end StackScript
