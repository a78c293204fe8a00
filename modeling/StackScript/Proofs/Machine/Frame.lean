/-
# What a run leaves alone

No instruction reports anything or changes the settings of a machine, and the strings it
adds join two strings that are in the pool (`StringPool.Gathers`). That holds of every
instruction, in any state of the machine and for any constants, so it holds of every run
(`Machine.Proceeds`).

What an instruction is made of is the same for any such relation. `Framed` says which changes
of a machine a relation has to keep so that all instructions, and with them all runs, keep it.
-/
import StackScript.Proofs.Machine.World

namespace StackScript

/-! ## Strings that join others -/

namespace StringPool

variable {before after pool : StringPool} {h : Handle} {s : StoredString} {bytes : List UInt8}

/-- The strings that were added join strings that were there. -/
inductive Gathers (before : StringPool) : StringPool → Prop where
  | refl : Gathers before before
  | join {after : StringPool} {h k : Handle} {s t : StoredString} : Gathers before after →
      after.get? h = some s → after.get? k = some t →
      Gathers before (after.intern (s.bytes ++ t.bytes)).2

/-- Gathering in two parts is gathering. -/
theorem Gathers.trans {a b c : StringPool} (first : a.Gathers b) (second : b.Gathers c) :
    a.Gathers c := by
  induction second with
  | refl => exact first
  | join _ hs ht ih => exact .join ih hs ht

/-- A pool that gathers strings extends the one before. -/
theorem Gathers.grows (gathers : before.Gathers after) : before.Grows after := by
  induction gathers with
  | refl => exact .refl before
  | join _ _ _ ih => exact ih.trans (grows_intern ..)

/-- Interning adds the string asked for and no other. -/
theorem get?_intern_cases (live : (pool.intern bytes).2.get? h = some s) :
    pool.get? h = some s ∨ s.bytes = bytes := by
  unfold intern at live
  split at live
  · exact .inl live
  · rw [get?_append] at live
    split at live
    · obtain rfl := Option.some.inj live
      exact .inr rfl
    · exact .inl live

/-- What holds of all strings and of the joined string of any two goes on to hold. -/
theorem Gathers.forall_get? {P : List UInt8 → Prop} (gathers : before.Gathers after)
    (append : ∀ s t, P s → P t → P (s ++ t))
    (all : ∀ h s, before.get? h = some s → P s.bytes) :
    ∀ h s, after.get? h = some s → P s.bytes := by
  induction gathers with
  | refl => exact all
  | join _ hs ht ih =>
    intro k u live
    rcases get?_intern_cases live with old | new
    · exact ih k u old
    · rw [new]
      exact append _ _ (ih _ _ hs) (ih _ _ ht)

end StringPool

/-! ## Reported text -/

/-- The bytes that an event reports. -/
def Event.reportedBytes : Event → List UInt8
  | reported text => Utf8.encode text.toList
  | printed _ | logged _ => []

namespace Machine

/-- The bytes that were reported in a session. -/
def reported (m : Machine) : List UInt8 :=
  m.transcript.toList.flatMap Event.reportedBytes

/-- An event is reported behind the others, if at all. -/
theorem reported_note (m : Machine) (event : Event) :
    (m.note event).reported = m.reported ++ event.reportedBytes := by
  simp [reported, note]

/-! ## Instructions -/

/-- No setting has changed, nothing was reported, and strings were joined at most. -/
structure Proceeds (m after : Machine) : Prop where
  settings : after.settings = m.settings
  errors : after.errors = m.errors
  reported : after.reported = m.reported
  gathers : m.pool.Gathers after.pool

namespace Proceeds

/-- A machine is reached from itself. -/
theorem refl (m : Machine) : m.Proceeds m :=
  ⟨rfl, rfl, rfl, .refl⟩

/-- What is reached from a machine that is reached is reached. -/
theorem trans {a b c : Machine} (h₁ : a.Proceeds b) (h₂ : b.Proceeds c) : a.Proceeds c :=
  ⟨h₂.settings.trans h₁.settings, h₂.errors.trans h₁.errors, h₂.reported.trans h₁.reported,
    h₁.gathers.trans h₂.gathers⟩

end Proceeds

/-- Whatever an operation results in has a property. -/
def Yields {α : Type} (P : α → Prop) (x : Except RuntimeFault α) : Prop :=
  ∀ a, x = .ok a → P a

section Yields

variable {α β : Type} {P : α → Prop} {Q : β → Prop} {x : Except RuntimeFault α}

/-- What holds of everything holds of a result. -/
theorem Yields.of_forall (h : ∀ a, P a) : Yields P x :=
  fun a _ => h a

/-- What holds of a value holds of it as a result. -/
theorem Yields.pure {a : α} (h : P a) : Yields P (.ok a) := by
  rintro _ ⟨⟩
  exact h

/-- There is nothing to show of a fault. -/
theorem Yields.error (fault : RuntimeFault) : Yields P (.error fault) :=
  nofun

/-- What is to show of a sequence is to show of its parts. -/
theorem Yields.bind {f : α → Except RuntimeFault β} (first : Yields P x)
    (second : ∀ a, P a → Yields Q (f a)) : Yields Q (x >>= f) := by
  cases x with
  | ok a => exact second a (first a rfl)
  | error fault => exact .error fault

/-- The first of two operations does not matter. -/
theorem Yields.then {f : α → Except RuntimeFault β} (second : ∀ a, Yields Q (f a)) :
    Yields Q (x >>= f) :=
  .bind (P := fun _ => True) (.of_forall fun _ => trivial) fun a _ => second a

end Yields

/-- The machine after a step, however that has ended. -/
def Step.machine : Step → Machine
  | next m | finished m | failed _ m => m

/-- A relation between a machine and a later one, kept by everything that an instruction does:
it changes the stack and the globals, joins strings, and prints. -/
structure Framed (R : Machine → Machine → Prop) : Prop where
  refl (m : Machine) : R m m
  trans {a b c : Machine} : R a b → R b c → R a c
  stack (m : Machine) (stack : Stack) : R m { m with stack }
  globals (m : Machine) (globals : Globals) : R m { m with globals }
  join (m : Machine) {h k : Handle} {s t : StoredString} : m.pool.get? h = some s →
    m.pool.get? k = some t → R m (m.intern (s.bytes ++ t.bytes)).2
  print (m : Machine) (text : String) : R m (m.print text).2

/-- A string behind a value is the one under its handle. -/
theorem get?_of_string? {m : Machine} {v : Value} {s : StoredString} (h : m.string? v = some s) :
    ∃ k, v = .object k ∧ m.pool.get? k = some s := by
  cases v with
  | object k => exact ⟨k, rfl, h⟩
  | _ => cases h

namespace Framed

variable {R : Machine → Machine → Prop} (framed : Framed R)

include framed

/-- Pushing a value keeps the relation. -/
theorem push (m : Machine) (v : Value) : Yields (R m) (m.push v) :=
  .then fun stack => .pure (framed.stack m stack)

/-- Taking a value leaves the strings as they are. -/
theorem pop (m : Machine) :
    Yields (fun popped => R m popped.2 ∧ popped.2.pool = m.pool) m.pop :=
  .then fun popped => .pure ⟨framed.stack m popped.2, rfl⟩

/-- An operation on the top value keeps it. -/
theorem mapTop (m : Machine) (f : Value → Except RuntimeFault Value) :
    Yields (R m) (m.mapTop f) :=
  .bind (framed.pop m) fun popped first => .then fun v a pushed =>
    framed.trans first.1 (framed.push popped.2 v a pushed)

/-- An operation on the two top values keeps it. -/
theorem mapTop2 (m : Machine) (f : Value → Value → Except RuntimeFault Value) :
    Yields (R m) (m.mapTop2 f) :=
  .bind (framed.pop m) fun popped first => .bind (framed.pop popped.2) fun popped' second =>
    .then fun v a pushed =>
      framed.trans (framed.trans first.1 second.1) (framed.push popped'.2 v a pushed)

/-- An addition keeps it, with the string that it may add. -/
theorem add (m : Machine) : Yields (R m) m.add := by
  refine .then fun b => .then fun a => ?_
  split
  · rename_i s t hs ht
    obtain ⟨h, -, hs⟩ := get?_of_string? hs
    obtain ⟨k, -, ht⟩ := get?_of_string? ht
    refine .bind (framed.pop m) fun popped first => ?_
    refine .bind (framed.pop popped.2) fun last second => ?_
    have pool : last.2.pool = m.pool := second.2.trans first.2
    have joined : R last.2 (last.2.intern (s.bytes ++ t.bytes)).2 :=
      framed.join last.2 (pool ▸ hs) (pool ▸ ht)
    exact fun after pushed =>
      framed.trans (framed.trans (framed.trans first.1 second.1) joined)
        (framed.push _ _ after pushed)
  · exact framed.mapTop2 m _

/-- Reading a global keeps it. -/
theorem getGlobal (m : Machine) (name : Handle) : Yields (R m) (m.getGlobal name) := by
  unfold Machine.getGlobal
  split
  · exact framed.push m _
  · exact .error _

/-- Defining a global keeps it. -/
theorem defineGlobal (m : Machine) (name : Handle) : Yields (R m) (m.defineGlobal name) :=
  .bind (framed.pop m) fun popped first =>
    .pure (framed.trans first.1 (framed.globals popped.2 _))

/-- Assigning to a global keeps it. -/
theorem setGlobal (m : Machine) (name : Handle) : Yields (R m) (m.setGlobal name) := by
  refine .then fun v => ?_
  split
  · exact .pure (framed.globals m _)
  · exact .error _

/-- Printing a line keeps it, accepted or not. -/
theorem printLine (m : Machine) (text : String) : R m (m.printLine text).2 := by
  unfold Machine.printLine
  dsimp only
  split
  · exact framed.trans (framed.print m text) (framed.print _ _)
  · exact framed.print m text

/-- Printing the top value keeps it. -/
theorem printTop (m : Machine) : R m m.printTop.machine := by
  unfold Machine.printTop
  split
  · exact framed.refl m
  · rename_i v after popped
    have first := (framed.pop m _ popped).1
    have second := framed.printLine after (v.text after.pool)
    split <;> rename_i printed <;> rw [printed] at second <;> exact framed.trans first second

/-- A step keeps what its result keeps, and a fault keeps it anyway. -/
theorem ofExcept {m : Machine} {result : Except RuntimeFault Machine} (h : Yields (R m) result) :
    R m (Step.ofExcept m result).machine := by
  cases result with
  | ok after => exact h after rfl
  | error fault => exact framed.refl m

/-- **Every instruction keeps it,** in any state of the machine and for any constants. -/
theorem step (constants : List Value) (m : Machine) (i : Instruction) :
    R m (m.step constants i).machine := by
  cases i with
  | constant k => exact framed.ofExcept (.then fun v => framed.push m v)
  | pushNil | pushTrue | pushFalse => exact framed.ofExcept (framed.push m _)
  | pop => exact framed.ofExcept (.bind (framed.pop m) fun _ popped => .pure popped.1)
  | getGlobal k => exact framed.ofExcept (.then fun name => framed.getGlobal m name)
  | defineGlobal k => exact framed.ofExcept (.then fun name => framed.defineGlobal m name)
  | setGlobal k => exact framed.ofExcept (.then fun name => framed.setGlobal m name)
  | equal | greater | less | subtract | multiply | divide =>
    exact framed.ofExcept (framed.mapTop2 m _)
  | add => exact framed.ofExcept (framed.add m)
  | not | negate => exact framed.ofExcept (framed.mapTop m _)
  | print => exact framed.printTop m
  | finish =>
    rw [Machine.step]
    split <;> exact framed.refl m

end Framed

variable {m : Machine}

/-- An event that is not reported leads on. -/
theorem proceeds_note {event : Event} (m : Machine) (silent : event.reportedBytes = []) :
    m.Proceeds (m.note event) := by
  refine ⟨rfl, rfl, ?_, .refl⟩
  rw [reported_note, silent, List.append_nil]

/-- Printing leads on. -/
theorem proceeds_print (m : Machine) (text : String) : m.Proceeds (m.print text).2 := by
  have written : m.Proceeds { m with output := (m.output.write text).2 } :=
    ⟨rfl, rfl, rfl, .refl⟩
  unfold print
  dsimp only
  split
  · exact written.trans (proceeds_note _ rfl)
  · exact written

/-- Every primitive operation of a machine leads on. -/
theorem framed_proceeds : Framed Proceeds where
  refl := .refl
  trans := .trans
  stack _ _ := ⟨rfl, rfl, rfl, .refl⟩
  globals _ _ := ⟨rfl, rfl, rfl, .refl⟩
  join _ _ _ _ _ hs ht := ⟨rfl, rfl, rfl, .join .refl hs ht⟩
  print := proceeds_print

/-! ## Runs -/

/-- Tracing the stack leads on. -/
theorem proceeds_traceStack (m : Machine) : m.Proceeds m.traceStack := by
  unfold traceStack
  split
  · exact m.proceeds_note rfl
  · exact .refl m

/-- A trace of an instruction leads on. -/
theorem proceeds_trace (m : Machine) (chunk : Chunk) (slot : Slot) :
    m.Proceeds (m.trace chunk slot) := by
  unfold trace
  dsimp only
  split
  · exact m.proceeds_traceStack.trans (proceeds_note _ rfl)
  · exact m.proceeds_traceStack

/-- The machine that a run has come to, whether it goes on or has ended. -/
def Progress.machine : Progress → Machine
  | running m | ended _ m => m

/-- The end of the code is not seen. -/
theorem quiet_run (m : Machine) (chunk : Chunk) :
    (runSlots chunk chunk.slots m).machine.Quiet (m.run chunk).2 := by
  unfold run
  split <;> rename_i eq <;> rw [eq]
  · exact .refl _
  · exact quiet_traceStack _

section Runs

variable {R : Machine → Machine → Prop} (framed : Framed R)
  (trace : ∀ (m : Machine) (chunk : Chunk) (slot : Slot), R m (m.trace chunk slot))

include framed trace

/-- Running a slot keeps the relation, if a trace and the operations do. -/
theorem Framed.runSlot (chunk : Chunk) (slot : Slot) (m : Machine) :
    R m (Machine.runSlot chunk slot m).machine := by
  have traced := trace m chunk slot
  unfold Machine.runSlot
  dsimp only
  split
  · exact traced
  · exact traced
  · rename_i i _
    have stepped := framed.step chunk.constants (m.trace chunk slot) i
    split <;> rename_i eq <;> rw [eq] at stepped <;> exact framed.trans traced stepped

/-- **Every run keeps it,** if logging an instruction does. -/
theorem Framed.runSlots (chunk : Chunk) (slots : List Slot) (m : Machine) :
    R m (Machine.runSlots chunk slots m).machine := by
  induction slots generalizing m with
  | nil => exact framed.refl m
  | cons slot slots ih =>
    have first := framed.runSlot trace chunk slot m
    rw [Machine.runSlots]
    split <;> rename_i eq <;> rw [eq] at first
    · exact framed.trans first (ih _)
    · exact first

end Runs

/-- Running a slot leads on. -/
theorem proceeds_runSlot (chunk : Chunk) (slot : Slot) (m : Machine) :
    m.Proceeds (runSlot chunk slot m).machine :=
  framed_proceeds.runSlot proceeds_trace chunk slot m

/-- **No run reports anything,** or adds other strings than joined ones. -/
theorem proceeds_runSlots (chunk : Chunk) (slots : List Slot) (m : Machine) :
    m.Proceeds (runSlots chunk slots m).machine :=
  framed_proceeds.runSlots proceeds_trace chunk slots m

/-- A run leads on. -/
theorem proceeds_run (m : Machine) (chunk : Chunk) : m.Proceeds (m.run chunk).2 := by
  have slots := proceeds_runSlots chunk chunk.slots m
  unfold run
  split <;> rename_i eq <;> rw [eq] at slots
  · exact slots
  · exact slots.trans (proceeds_traceStack _)

end Machine
end StackScript
