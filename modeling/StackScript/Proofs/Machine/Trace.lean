/-
# What a traced run logs

Before each instruction a traced run logs two messages: the stack, behind ten blanks, and the
instruction as a listing shows it, which starts with the digits of its position. So the
messages about instructions can be told from all others (`Machine.instructions`):

| message | level | starts with |
| --- | --- | --- |
| instruction | trace | a digit |
| stack | trace | a blank |
| beginning and end of a run, faults | debug, warn | |

Instructions themselves log nothing. So a run adds the texts of the slots that it has come to,
in their order (`instructions_runSlots`).
-/
import StackScript.Proofs.Machine.Report
import StackScript.Proofs.Renaming.Session

namespace StackScript

/-! ## Messages about instructions -/

/-- The instruction that a record is about. -/
def Log.Record.instruction? (r : Log.Record) : Option String :=
  if r.level = .trace ∧ r.message.toList.head? ≠ some ' ' then some r.message else none

/-- The instruction that an event is about. -/
def Event.instruction? : Event → Option String
  | logged r => r.instruction?
  | printed _ | reported _ => none

/-- A record that is no trace shows no instruction. -/
theorem Log.Record.instruction?_of_ne {level : Log.Level} (other : level ≠ .trace)
    (part : Log.Part) (message : String) : instruction? ⟨level, part, message⟩ = none :=
  if_neg fun h => other h.1

/-- A number is written in digits. -/
theorem Columns.isDigit_of_mem_toString {n : Nat} {c : Char} (mem : c ∈ (toString n).toList) :
    c.isDigit = true := by
  rw [Nat.toString_eq_repr, Nat.toList_repr] at mem
  exact Nat.isDigit_of_mem_toDigits (by decide) (by decide) mem

/-- A number that is filled up with zeros has only digits. -/
theorem Columns.isDigit_of_mem_padLeft {width n : Nat} {c : Char}
    (mem : c ∈ (padLeft width '0' (toString n)).toList) : c.isDigit = true := by
  rw [padLeft, String.toList_append, String.toList_ofList, List.mem_append] at mem
  rcases mem with zero | digit
  · rw [List.eq_of_mem_replicate zero]
    rfl
  · exact isDigit_of_mem_toString digit

/-- The line of a slot starts with a digit. -/
theorem Slot.head?_text (pool : StringPool) (constants : List Value) (slot : Slot) :
    (slot.text pool constants).toList.head? ≠ some ' ' := by
  have nonempty : (Columns.padLeft 4 '0' (toString slot.offset)).toList ≠ [] := by
    rw [Columns.padLeft, String.toList_append, Nat.toString_eq_repr, Nat.toList_repr]
    exact List.append_ne_nil_of_right_ne_nil _ Nat.toDigits_ne_nil
  obtain ⟨c, rest, eq⟩ := List.exists_cons_of_ne_nil nonempty
  have digit : c.isDigit = true := Columns.isDigit_of_mem_padLeft (eq ▸ List.mem_cons_self ..)
  rw [text, String.toList_append, String.toList_append, String.toList_append,
    String.toList_append, eq]
  rintro ⟨⟩
  cases digit

/-- The line of a slot is about an instruction. -/
theorem Event.instruction?_text (pool : StringPool) (constants : List Value) (slot : Slot) :
    (logged ⟨.trace, .machine, slot.text pool constants⟩).instruction? =
      some (slot.text pool constants) := by
  rw [instruction?, Log.Record.instruction?, if_pos ⟨rfl, slot.head?_text pool constants⟩]

namespace Machine

/-- The instructions that the log of a session is about, in their order. -/
def instructions (m : Machine) : List String :=
  m.transcript.toList.filterMap Event.instruction?

/-- An event shows its instruction behind the others, if it shows one. -/
theorem instructions_note (m : Machine) (event : Event) :
    (m.note event).instructions = m.instructions ++ event.instruction?.toList := by
  rw [instructions, note, Array.toList_push, List.filterMap_append, instructions]
  cases h : event.instruction? <;> simp [h]

/-! ## Changes that log no instruction -/

/-- No setting has changed, and no instruction was logged. -/
structure Untold (m after : Machine) : Prop where
  settings : after.settings = m.settings
  instructions : after.instructions = m.instructions

namespace Untold

variable {m after : Machine}

/-- A machine tells nothing beyond itself. -/
theorem refl (m : Machine) : m.Untold m :=
  ⟨rfl, rfl⟩

/-- What tells nothing in two parts tells nothing. -/
theorem trans {a b c : Machine} (h₁ : a.Untold b) (h₂ : b.Untold c) : a.Untold c :=
  ⟨h₂.settings.trans h₁.settings, h₂.instructions.trans h₁.instructions⟩

end Untold

/-- An event that shows no instruction tells nothing. -/
theorem untold_note {event : Event} (m : Machine) (other : event.instruction? = none) :
    m.Untold (m.note event) := by
  refine ⟨rfl, ?_⟩
  rw [instructions_note, other, Option.toList_none, List.append_nil]

/-- A record that is no trace tells nothing. -/
theorem untold_log (m : Machine) (level : Log.Level) (part : Log.Part) (message : String)
    (other : level ≠ .trace) : m.Untold (m.log level part message) :=
  m.untold_note (Log.Record.instruction?_of_ne other part message)

/-- Printing tells nothing of instructions. -/
theorem untold_print (m : Machine) (text : String) : m.Untold (m.print text).2 := by
  have written : m.Untold { m with output := (m.output.write text).2 } := ⟨rfl, rfl⟩
  unfold print
  dsimp only
  split
  · exact written.trans (untold_note _ rfl)
  · exact written

/-- No operation of a machine tells of instructions. -/
theorem framed_untold : Framed Untold where
  refl := .refl
  trans := .trans
  stack _ _ := ⟨rfl, rfl⟩
  globals _ _ := ⟨rfl, rfl⟩
  join _ _ _ _ _ _ _ := ⟨rfl, rfl⟩
  print := untold_print

/-- A trace of the stack tells nothing of instructions. -/
theorem untold_traceStack (m : Machine) : m.Untold m.traceStack := by
  unfold traceStack
  split
  · refine m.untold_note (if_neg fun h => h.2 ?_)
    rw [String.toList_append]
    rfl
  · exact .refl m

/-- A report tells nothing of instructions. -/
theorem untold_report (m : Machine) (text : String) : m.Untold (m.report text).2 := by
  have written : m.Untold { m with errors := (m.errors.write text).2 } := ⟨rfl, rfl⟩
  unfold report
  dsimp only
  split
  · exact written.trans (untold_note _ rfl)
  · exact written

/-- A reported line tells nothing of instructions. -/
theorem untold_reportLine (m : Machine) (text : String) : m.Untold (m.reportLine text) := by
  have once := m.untold_report text
  have twice := once.trans (untold_report _ "\n")
  unfold reportLine
  dsimp only
  split <;> split
  · exact twice
  · exact once
  · exact twice.trans (untold_log _ .warn _ _ nofun)
  · exact once.trans (untold_log _ .warn _ _ nofun)

/-- The end of a run tells nothing of instructions. -/
theorem untold_concluded (m : Machine) (ending : Ending) : m.Untold (m.concluded ending) := by
  cases ending with
  | finished => exact m.untold_log .debug _ _ nofun
  | failed fault line =>
    have logged := m.untold_log .debug .machine
      s!"runtime error at line {line}: {fault.message}" nofun
    have reported := logged.trans (untold_reportLine _ (faultText fault line))
    exact ⟨reported.settings, reported.instructions⟩

/-! ## Runs -/

section Runs

variable {chunk : Chunk} {pool : StringPool} {slot : Slot} {m : Machine}

/-- The slots that a run comes to. -/
def fetched (chunk : Chunk) : List Slot → Machine → List Slot
  | [], _ => []
  | slot :: others, m =>
    slot :: match runSlot chunk slot m with
      | .running after => fetched chunk others after
      | .ended _ _ => []

/-- A run comes to slots in turn, and leaves none out. -/
theorem fetched_prefix (chunk : Chunk) (slots : List Slot) (m : Machine) :
    fetched chunk slots m <+: slots := by
  induction slots generalizing m with
  | nil => exact List.prefix_rfl
  | cons slot others ih =>
    rw [fetched, List.prefix_cons_inj]
    split
    · exact ih _
    · exact List.nil_prefix

/-- If a run goes on behind some slots, it has come to all of them. -/
theorem fetched_of_running {slots : List Slot} {after : Machine}
    (running : runSlots chunk slots m = .running after) : fetched chunk slots m = slots := by
  induction slots generalizing m with
  | nil => rfl
  | cons slot others ih =>
    cases eq : runSlot chunk slot m with
    | running next =>
      rw [runSlots, eq] at running
      rw [fetched, eq]
      exact congrArg (slot :: ·) (ih running)
    | ended ending next =>
      rw [runSlots, eq] at running
      cases running

/-- What an instruction shows does not change when strings are added. -/
theorem text_of_grows (live : ∀ v ∈ chunk.constants, ∃ d, v.content? pool = some d)
    (grows : pool.Grows m.pool) (slot : Slot) :
    slot.text m.pool chunk.constants = slot.text pool chunk.constants := by
  refine Slot.text_eq_of_alike (List.forall₂_same.2 fun v mem => ?_) slot
  obtain ⟨d, content⟩ := live v mem
  exact ⟨d, content, Value.content?_of_grows grows content⟩

/-- The message about an instruction comes before it is executed. -/
theorem instructions_runSlot (traced : m.settings.traceExecution = true) (chunk : Chunk)
    (slot : Slot) : (runSlot chunk slot m).machine.instructions =
      m.instructions ++ [slot.text m.pool chunk.constants] := by
  have stack := m.untold_traceStack
  have pool : m.traceStack.pool = m.pool := by
    unfold traceStack
    split <;> rfl
  have told : (m.trace chunk slot).instructions =
      m.instructions ++ [slot.text m.pool chunk.constants] := by
    rw [trace, if_pos (stack.settings ▸ traced), pool, log, instructions_note,
      Event.instruction?_text, stack.instructions, Option.toList_some]
  unfold runSlot
  dsimp only
  split
  · exact told
  · exact told
  · rename_i i _
    have stepped := (framed_untold.step chunk.constants (m.trace chunk slot) i).instructions
    split <;> rename_i eq <;> rw [eq] at stepped <;> exact stepped.trans told

/-- **A run logs the slots that it comes to,** as they are shown before it. -/
theorem instructions_runSlots (traced : m.settings.traceExecution = true)
    (live : ∀ v ∈ chunk.constants, ∃ d, v.content? pool = some d) (grows : pool.Grows m.pool)
    (slots : List Slot) : (runSlots chunk slots m).machine.instructions =
      m.instructions ++ (fetched chunk slots m).map (·.text pool chunk.constants) := by
  induction slots generalizing m with
  | nil => exact (List.append_nil _).symm
  | cons slot others ih =>
    have first := instructions_runSlot traced chunk slot
    have proceeds := proceeds_runSlot chunk slot m
    rw [text_of_grows live grows] at first
    cases eq : runSlot chunk slot m with
    | running after =>
      rw [eq] at first proceeds
      have told : after.instructions = m.instructions ++ [slot.text pool chunk.constants] := first
      have rest := ih (m := after) (proceeds.settings ▸ traced)
        (grows.trans proceeds.gathers.grows)
      rw [told, List.append_assoc] at rest
      rw [runSlots, fetched, eq]
      exact rest
    | ended ending after =>
      rw [eq] at first
      rw [runSlots, fetched, eq]
      exact first

/-- **A chunk logs the slots that its run comes to,** and no other instruction. -/
theorem instructions_interpretChunk (traced : m.settings.traceExecution = true)
    (live : ∀ v ∈ chunk.constants, ∃ d, v.content? m.pool = some d) :
    (m.interpretChunk chunk).2.instructions = m.instructions ++
      (fetched chunk chunk.slots (m.begun chunk)).map (·.text m.pool chunk.constants) := by
  have begun : m.Untold (m.begun chunk) := m.untold_log .debug _ _ nofun
  have slots := instructions_runSlots (m := m.begun chunk) (begun.settings ▸ traced) live
    (.refl m.pool) chunk.slots
  have run : ((m.begun chunk).run chunk).2.instructions =
      (runSlots chunk chunk.slots (m.begun chunk)).machine.instructions := by
    unfold Machine.run
    split <;> rename_i eq <;> rw [eq]
    · rfl
    · exact (untold_traceStack _).instructions
  rw [interpretChunk_eq, (untold_concluded _ _).instructions, run, slots, begun.instructions]

end Runs

end Machine
end StackScript
