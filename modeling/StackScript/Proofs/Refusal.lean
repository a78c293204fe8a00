/-
# Output is never lost silently

A chunk runs on two machines that differ in their outputs. The second output accepts every
text; the first may refuse some. Slot by slot the two runs are abreast (`Abreast`), until one
of these happens:

| | first run | second run |
| --- | --- | --- |
| fault, or end of the code | ends | ends |
| `finish` | ends, well if its output is flushed | ends |
| text refused | ends with an output fault, behind the texts before it | goes on, and prints it |

In the last case the second run may print more, and meet other faults, but the first has been
offered nothing behind the refused text (`Prints.append`). So its output is a prefix of that
of the second run, and a run that ends well has lost nothing (`output_never_lost`).
-/
import StackScript.Proofs.Bindings
import StackScript.Proofs.Machine.Coupled
import StackScript.Proofs.Machine.Processor

namespace StackScript

/-! ## Lines of prints -/

/-- An instruction without operand is on one line. -/
theorem Slot.lastLine_of_operand? {offset : Nat} {before : Option Nat} {code : List CodeByte}
    {slot : Slot} {i : Instruction} (mem : slot ∈ slotsFrom offset before code)
    (content : slot.content = .instruction i) (whole : i.operand? = none) :
    slot.lastLine = slot.line := by
  fun_induction slotsFrom offset before code with
  | case1 => cases mem
  | case2 offset before b rest unknown ih =>
    rcases List.mem_cons.1 mem with rfl | mem
    · rfl
    · exact ih mem
  | case3 offset before b rest op known i form ih =>
    rcases List.mem_cons.1 mem with rfl | mem
    · rfl
    · exact ih mem
  | case4 offset before b op known complete form =>
    obtain rfl := List.mem_singleton.1 mem
    rfl
  | case5 offset before b op known complete form k rest ih =>
    rcases List.mem_cons.1 mem with rfl | mem
    · obtain rfl := Content.instruction.inj content
      obtain ⟨-, operand, -⟩ := Opcode.of_awaits form k.byte
      rw [operand] at whole
      cases whole
    · exact ih mem

namespace Machine

/-! ## Machines abreast -/

/-- Two machines have come equally far from where they started: they hold the same, and have
printed the same texts, all of which the first output has accepted. -/
structure Abreast (start start' : Machine) (texts : List String) (m m' : Machine) : Prop where
  stack : m'.stack = m.stack
  globals : m'.globals = m.globals
  pool : m'.pool = m.pool
  left : start.Prints texts m
  right : start'.Prints texts m'
  taken : start.output.Takes texts

namespace Abreast

variable {start start' m m' : Machine} {texts : List String}

/-- Machines that keep abreast are coupled. -/
theorem coupled : Coupled (Abreast start start' texts) where
  stack := stack
  globals := globals
  pool := pool
  withStack _ abreast :=
    ⟨rfl, abreast.globals, abreast.pool, abreast.left.congr rfl rfl, abreast.right.congr rfl rfl,
      abreast.taken⟩
  withGlobals _ abreast :=
    ⟨abreast.stack, rfl, abreast.pool, abreast.left.congr rfl rfl, abreast.right.congr rfl rfl,
      abreast.taken⟩
  withPool _ abreast :=
    ⟨abreast.stack, abreast.globals, rfl, abreast.left.congr rfl rfl, abreast.right.congr rfl rfl,
      abreast.taken⟩

/-- Nothing that a program could see has changed on either side. -/
theorem quiet {a a' : Machine} (abreast : Abreast start start' texts m m') (left : m.Quiet a)
    (right : m'.Quiet a') : Abreast start start' texts a a' where
  stack := by rw [right.stack, left.stack, abreast.stack]
  globals := by rw [right.globals, left.globals, abreast.globals]
  pool := by rw [right.pool, left.pool, abreast.pool]
  left := abreast.left.quiet left
  right := abreast.right.quiet right
  taken := abreast.taken

end Abreast

/-! ## Slots -/

/-- How a slot ends on two machines that were abreast, if the second output accepts every text. -/
inductive Progress.Curbed (start start' : Machine) (slot : Slot) : Progress → Progress → Prop where
  | running {texts : List String} {m m' : Machine} : Abreast start start' texts m m' →
      Curbed start start' slot (.running m) (.running m')
  | ended {texts : List String} {m m' : Machine} {ending ending' : Ending} :
      Abreast start start' texts m m' → (ending = .finished → m.output.flush = none) →
      Curbed start start' slot (.ended ending m) (.ended ending' m')
  | refused {texts : List String} {why : String} {m m' : Machine} :
      slot.content = .instruction .print → start.Prints texts m → start'.Prints texts m' →
      start.output.refusalAll? texts = some why →
      Curbed start start' slot (.ended (.failed (.output why) slot.lastLine) m) (.running m')

/-- A faulty end asks nothing of the output. -/
theorem Progress.Curbed.failed {start start' m m' : Machine} {texts : List String} {slot : Slot}
    (abreast : Abreast start start' texts m m') (fault : RuntimeFault) (line : Nat)
    (ending' : Ending) :
    Curbed start start' slot (.ended (.failed fault line) m) (.ended ending' m') :=
  .ended abreast nofun

namespace Abreast

variable {start start' m m' : Machine} {texts : List String} {slot : Slot}

/-- A print goes on on both sides, or is refused on the first. -/
theorem curbed_print (abreast : Abreast start start' texts m m')
    (accepting : start'.output.AcceptsAll) (content : slot.content = .instruction .print) :
    Progress.Curbed start start' slot (m.printTop.progress slot.lastLine)
      (m'.printTop.progress slot.lastLine) := by
  rcases coupled.printTop_cases abreast with ⟨fault, eq, eq'⟩ | ⟨text, a, a', abreast, eq, eq'⟩
  · rw [eq, eq']
    exact .failed abreast ..
  obtain ⟨prints, refusal⟩ := a.prints_printLine text
  obtain ⟨prints', refusal'⟩ := a'.prints_printLine text
  have left := abreast.left.trans abreast.taken prints
  have right := abreast.right.trans (accepting.takes texts) prints'
  have all : (a'.printLine text).1 = none :=
    refusal'.trans (Sink.takes_iff.1 ((abreast.right.acceptsAll accepting).takes _))
  have both : start.output.refusalAll? (texts ++ [text, "\n"]) = (a.printLine text).1 := by
    rw [Sink.refusalAll?_append, Sink.takes_iff.1 abreast.taken, Option.none_or, refusal,
      abreast.left.output]
  obtain ⟨stack, globals, pool⟩ := coupled.shares_printLine abreast text
  -- what is left to tell apart is whether the first output accepts the line
  rw [eq, eq']
  generalize a.printLine text = line, a'.printLine text = line' at *
  obtain ⟨answer, last⟩ := line
  obtain ⟨_, last'⟩ := line'
  obtain rfl := all
  cases answer with
  | none => exact .running ⟨stack, globals, pool, left, right, Sink.takes_iff.2 both⟩
  | some why => exact .refused content left right both

/-- **A slot keeps machines abreast,** or ends the first run. -/
theorem curbed_runSlot (abreast : Abreast start start' texts m m')
    (accepting : start'.output.AcceptsAll) (chunk : Chunk) (slot : Slot) :
    Progress.Curbed start start' slot (runSlot chunk slot m) (runSlot chunk slot m') := by
  have traced := abreast.quiet (m.quiet_trace chunk slot) (m'.quiet_trace chunk slot)
  cases content : slot.content with
  | unknown byte | truncated op =>
    rw [runSlot, runSlot, content]
    exact .failed traced ..
  | instruction i =>
    rw [runSlot_of_instruction content, runSlot_of_instruction content]
    by_cases prints : i = .print
    · subst prints
      exact traced.curbed_print accepting content
    by_cases finishes : i = .finish
    · subst finishes
      rw [step, step]
      split <;> rename_i flushed <;> split
      · exact .ended traced fun _ => flushed
      · exact .ended traced fun _ => flushed
      · exact .failed traced ..
      · exact .failed traced ..
    obtain ⟨act, acts, both⟩ := coupled.exists_act chunk.constants prints finishes
    have acted := both _ _ traced
    rw [acts, acts]
    generalize act (m.trace chunk slot) = result, act (m'.trace chunk slot) = result' at acted
    cases acted with
    | ok after => exact .running after
    | error fault => exact .failed traced ..

/-- If the first run goes on behind some slots, so does the second. -/
theorem runSlots {after : Machine} (abreast : Abreast start start' texts m m')
    (accepting : start'.output.AcceptsAll) {chunk : Chunk} {slots : List Slot}
    (ran : Machine.runSlots chunk slots m = .running after) :
    ∃ texts after', Machine.runSlots chunk slots m' = .running after' ∧
      Abreast start start' texts after after' := by
  induction slots generalizing texts m m' with
  | nil =>
    obtain rfl := Progress.running.inj ran
    exact ⟨texts, m', rfl, abreast⟩
  | cons slot others ih =>
    have first := abreast.curbed_runSlot accepting chunk slot
    rw [Machine.runSlots] at ran ⊢
    generalize runSlot chunk slot m = progress, runSlot chunk slot m' = progress' at first ran
    cases first with
    | running next => exact ih next ran
    | ended | refused => cases ran

end Abreast

/-! ## Runs -/

/-- Some texts are printed, and all of them accepted, if the output accepts every text. -/
def PrintsFreely (m after : Machine) : Prop :=
  m.output.AcceptsAll → ∃ texts, m.Prints texts after

/-- What prints nothing prints freely. -/
theorem Quiet.printsFreely {m after : Machine} (quiet : m.Quiet after) : m.PrintsFreely after :=
  fun _ => ⟨[], (Prints.refl m).quiet quiet⟩

/-- Every primitive operation prints freely. -/
theorem framed_printsFreely : Framed PrintsFreely where
  refl m := (Quiet.refl m).printsFreely
  trans first second accepting := by
    obtain ⟨texts, prints⟩ := first accepting
    obtain ⟨others, more⟩ := second (prints.acceptsAll accepting)
    exact ⟨texts ++ others, prints.trans (accepting.takes texts) more⟩
  stack m _ _ := ⟨[], (Prints.refl m).congr rfl rfl⟩
  globals m _ _ := ⟨[], (Prints.refl m).congr rfl rfl⟩
  join m _ _ _ _ _ _ _ := ⟨[], (Prints.refl m).congr rfl rfl⟩
  print m text _ := ⟨[text], m.prints_print text⟩

/-- Slots that are run print freely. -/
theorem printsFreely_runSlots (chunk : Chunk) (slots : List Slot) (m : Machine) :
    m.PrintsFreely (runSlots chunk slots m).machine :=
  framed_printsFreely.runSlots (fun m chunk slot => (m.quiet_trace chunk slot).printsFreely)
    chunk slots m

section Runs

variable {m last : Machine} {chunk : Chunk} {slots : List Slot} {slot : Slot} {ending : Ending}
  {why : String}

/-- A run that ends does so in a slot, which is reached by the slots before it. -/
theorem exists_slot_of_ended (ended : runSlots chunk slots m = .ended ending last) :
    ∃ before slot after prior, slots = before ++ slot :: after ∧
      runSlots chunk before m = .running prior ∧
      runSlot chunk slot prior = .ended ending last := by
  induction slots generalizing m with
  | nil => cases ended
  | cons slot others ih =>
    rw [runSlots] at ended
    cases eq : runSlot chunk slot m with
    | running next =>
      rw [eq] at ended
      obtain ⟨before, final, after, prior, rfl, ran, stops⟩ := ih ended
      refine ⟨slot :: before, final, after, prior, rfl, ?_, stops⟩
      rw [runSlots, eq]
      exact ran
    | ended ending' last' =>
      rw [eq] at ended
      exact ⟨[], slot, others, m, rfl, rfl, eq.trans ended⟩

/-- The run of a chunk ends at the print in a slot, as the output refuses a text and says why.
What the instructions before it have left is `prior`. -/
structure StopsAtPrint (m : Machine) (chunk : Chunk) (why : String) (slot : Slot)
    (prior : Machine) : Prop where
  reached : ∃ before after, chunk.slots = before ++ slot :: after ∧
    runSlots chunk before m = .running prior
  content : slot.content = .instruction .print
  refused : ∃ last, runSlot chunk slot prior = .ended (.failed (.output why) slot.line) last

/-- A run that stops at a print has this end, and the globals that it had before. -/
theorem StopsAtPrint.run {prior : Machine} (stops : m.StopsAtPrint chunk why slot prior) :
    (m.run chunk).1 = .failed (.output why) slot.line ∧
      (m.run chunk).2.globals = prior.globals := by
  obtain ⟨before, after, cut, ran⟩ := stops.reached
  obtain ⟨last, ended⟩ := stops.refused
  have updates := updates_runSlot chunk slot prior
  rw [ended] at updates
  rw [Machine.run, cut, runSlots_append, ran]
  dsimp only
  rw [runSlots, ended]
  cases updates with
  | ended _ same => exact ⟨rfl, same⟩

/-- **A run loses nothing,** or stops at the print that the output refuses. -/
theorem Abreast.exists_prints_run {start start' m' : Machine} {texts : List String}
    (abreast : Abreast start start' texts m m') (accepting : start'.output.AcceptsAll)
    (chunk : Chunk) :
    ∃ texts, start.Prints texts (m.run chunk).2 ∧ start'.Prints texts (m'.run chunk).2 ∧
      (start.output.Takes texts →
        (m.run chunk).1 = .finished → (m.run chunk).2.output.flush = none) ∧
      (∀ why, start.output.refusalAll? texts = some why →
        ∃ slot prior, m.StopsAtPrint chunk why slot prior) := by
  have quiet := m'.quiet_run chunk
  cases ran : Machine.runSlots chunk chunk.slots m with
  | running after =>
    obtain ⟨texts, after', ran', abreast⟩ := abreast.runSlots accepting ran
    rw [ran'] at quiet
    rw [run, ran]
    exact ⟨texts, abreast.left.quiet (quiet_traceStack _), abreast.right.quiet quiet,
      fun _ finished => Ending.noConfusion finished,
      fun _ refused => absurd abreast.taken (Sink.not_takes refused)⟩
  | ended ending last =>
    obtain ⟨before, slot, after, prior, cut, reached, ended⟩ := exists_slot_of_ended ran
    obtain ⟨texts, prior', reached', abreast⟩ := abreast.runSlots accepting reached
    have curbed := abreast.curbed_runSlot accepting chunk slot
    rw [cut, runSlots_append, reached'] at quiet
    dsimp only at quiet
    rw [Machine.runSlots] at quiet
    rw [ended] at curbed
    rw [run, ran]
    generalize runSlot chunk slot prior' = progress' at curbed quiet
    cases curbed with
    | ended abreast flushed =>
      exact ⟨_, abreast.left, abreast.right.quiet quiet, fun _ => flushed,
        fun _ refused => absurd abreast.taken (Sink.not_takes refused)⟩
    | @refused texts why _ next content left right refuses =>
      have line : slot.lastLine = slot.line :=
        Slot.lastLine_of_operand? (cut ▸ List.mem_append_right _ List.mem_cons_self) content rfl
      rw [line] at ended
      -- the second run goes on and prints more, which the first is not offered
      obtain ⟨others, more⟩ := printsFreely_runSlots chunk after next (right.acceptsAll accepting)
      have refused := Sink.not_takes refuses
      refine ⟨texts ++ others, left.append refused others,
        (right.trans (accepting.takes texts) more).quiet quiet,
        fun taken => absurd (Sink.takes_append.1 taken).1 refused, fun _ first => ?_⟩
      rw [Sink.refusalAll?_append, refuses] at first
      obtain rfl := Option.some.inj first
      exact ⟨slot, prior, ⟨before, after, cut, reached⟩, content, _, ended⟩

/-- Only the run of a chunk prints. -/
theorem prints_interpretChunk {start : Machine} {texts : List String}
    (prints : start.Prints texts ((m.begun chunk).run chunk).2) :
    start.Prints texts (m.interpretChunk chunk).2 := by
  rw [interpretChunk_eq]
  cases ((m.begun chunk).run chunk).1 with
  | finished => exact prints.quiet (quiet_log ..)
  | failed fault line =>
    obtain ⟨reported, quiet, eq⟩ := abort_eq ((m.begun chunk).run chunk).2 fault line
    dsimp only [concluded]
    rw [eq]
    exact (prints.quiet quiet).congr rfl rfl

/-- **What a refused print leaves:** the globals as they were before it, an empty stack, and a
report of the output fault on its line. -/
theorem StopsAtPrint.interpretChunk {prior : Machine}
    (stops : (m.begun chunk).StopsAtPrint chunk why slot prior) :
    (m.interpretChunk chunk).1 = .runtimeError ∧ (m.interpretChunk chunk).2.stack.values = [] ∧
      (m.interpretChunk chunk).2.globals = prior.globals ∧
      m.Reports [faultText (.output why) slot.line] (m.interpretChunk chunk).2 := by
  obtain ⟨ends, globals⟩ := stops.run
  have reports := m.reports_interpretChunk chunk
  rw [ends] at reports
  refine ⟨?_, ?_, ?_, reports⟩
  · rw [interpretChunk_eq, ends]
    rfl
  · rw [interpretChunk_eq, ends]
    rfl
  · rw [interpretChunk_eq, globals_concluded, globals]

/-- A chunk ends well if its run has finished, with the output that it has then. -/
theorem finished_of_interpretChunk (ok : (m.interpretChunk chunk).1 = .ok) :
    ((m.begun chunk).run chunk).1 = .finished ∧
      (m.interpretChunk chunk).2.output = ((m.begun chunk).run chunk).2.output := by
  rw [interpretChunk_eq] at ok ⊢
  cases ran : ((m.begun chunk).run chunk).1 with
  | finished => exact ⟨rfl, rfl⟩
  | failed fault line =>
    rw [ran] at ok
    cases ok

end Runs

/-- **Output is never lost silently.** With an output that accepts every text, a chunk writes
some texts. With the output that it has, it writes the same texts up to the first refused one,
and stops there: at a print, with the globals that the instructions before it have left, and
with a fault on its line that tells the reason which the output gave for that text. If it ends
well, all was accepted and flushed. -/
theorem output_never_lost (m : Machine) (chunk : Chunk) {free : Sink}
    (accepting : free.AcceptsAll) :
    let curbed := m.interpretChunk chunk
    let whole := { m with output := free }.interpretChunk chunk
    ∃ texts, m.Prints texts curbed.2 ∧ { m with output := free }.Prints texts whole.2 ∧
      whole.2.printed = m.printed ++ textBytes texts ∧ curbed.2.printed <+: whole.2.printed ∧
      (¬ m.output.Takes texts →
        curbed.1 = .runtimeError ∧ curbed.2.stack.values = [] ∧
        ∃ why,
          (∃ text behind offered, texts = (m.output.writeAll texts).1 ++ text :: behind ∧
            text ≠ "" ∧ m.output.refusal? offered text = some why ∧
            curbed.2.output.offered = text :: offered) ∧
          ∃ slot prior, (m.begun chunk).StopsAtPrint chunk why slot prior ∧
            curbed.2.globals = prior.globals ∧
            m.Reports [faultText (.output why) slot.line] curbed.2) ∧
      (curbed.1 = .ok → m.output.Takes texts ∧ curbed.2.printed = whole.2.printed ∧
        curbed.2.output.flush = none) := by
  intro curbed whole
  let start' := { m with output := free }
  have begun : Abreast m start' [] (m.begun chunk) (start'.begun chunk) :=
    ⟨rfl, rfl, rfl, (Prints.refl m).quiet (quiet_log ..), (Prints.refl start').quiet (quiet_log ..),
      m.output.takes_nil⟩
  obtain ⟨texts, left, right, flushed, stops⟩ := begun.exists_prints_run accepting chunk
  have prints : m.Prints texts curbed.2 := prints_interpretChunk left
  have prints' : start'.Prints texts whole.2 := prints_interpretChunk right
  have all : whole.2.printed = m.printed ++ textBytes texts :=
    prints'.printed_of_takes (accepting.takes texts)
  refine ⟨texts, prints, prints', all, all ▸ prints.isPrefix, fun refused => ?_, fun ok => ?_⟩
  · obtain ⟨why, refused⟩ := Sink.exists_refusalAll? refused
    obtain ⟨slot, prior, stops⟩ := stops why refused
    obtain ⟨result, stack, globals, reports⟩ := stops.interpretChunk
    have last := Sink.exists_refused refused
    rw [← prints.output] at last
    exact ⟨result, stack, why, last, slot, prior, stops, globals, reports⟩
  · obtain ⟨finished, output⟩ := finished_of_interpretChunk ok
    have taken : m.output.Takes texts := by
      by_contra refused
      obtain ⟨why, refused⟩ := Sink.exists_refusalAll? refused
      obtain ⟨slot, prior, stops⟩ := stops why refused
      rw [stops.run.1] at finished
      cases finished
    refine ⟨taken, ?_, output ▸ flushed taken finished⟩
    rw [prints.printed_of_takes taken, all]

/-- The output accepts one line, and then says that the disk is full. The second print is
refused, before the fault on line 3. -/
theorem output_never_lost_second :
    let m := create default (.limited 1 "disk full") .unlimited
    let code : List TracedInstruction :=
      [⟨.pushNil, 1⟩, ⟨.print, 1⟩, ⟨.pushTrue, 2⟩, ⟨.print, 2⟩, ⟨.pushNil, 3⟩, ⟨.negate, 3⟩]
    let chunk : Chunk := ⟨code.flatMap (·.bytes), []⟩
    (m.interpretChunk chunk).1 = .runtimeError ∧
      (m.interpretChunk chunk).2.printed = textBytes ["nil", "\n"] ∧
      m.Reports ["Failed to write program output: disk full\n[line 2] in script"]
        (m.interpretChunk chunk).2 := by
  intro m code chunk
  have accepting : Sink.unlimited.AcceptsAll := fun _ _ => rfl
  obtain ⟨texts, prints, -, whole, -, stops, -⟩ := output_never_lost m chunk accepting
  have printed : (m.interpretChunk chunk).2.printed = textBytes ["nil", "\n"] := by decide
  have refused : ¬ m.output.Takes texts := by
    intro taken
    rw [← prints.printed_of_takes taken, printed] at whole
    exact absurd whole (by decide)
  obtain ⟨result, -, why, -, slot, prior, stopped, -, reports⟩ := stops refused
  have ends : ((m.begun chunk).run chunk).1 = .failed (.output "disk full") 2 := by decide
  rw [stopped.run.1] at ends
  obtain ⟨fault, line⟩ := Ending.failed.inj ends
  rw [fault, line] at reports
  exact ⟨result, printed, reports⟩

end Machine
end StackScript
