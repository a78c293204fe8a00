/-
# What changes global variables

Two instructions write global variables, if they complete:

| instruction | write | needs |
| --- | --- | --- |
| define global | `define name v` | a value `v` on top |
| assign global | `assign name v` | a value `v` on top, and that the name is bound |

Nothing else does. The globals after a run are those before it with the writes of its completed
instructions applied in turn, however the run has ended (`globals_interpretChunk`): an instruction
that fails writes nothing. So a name is bound that was bound before or was defined, no assignment
binds one, and nothing unbinds one (`Becomes.isBound_iff`); its value is that of the last write
(`find?_foldl_apply`).

A table that can only tell afterwards whether a name was new does no harm either: what an
assignment has bound by mistake it erases (`same_trySetGlobal`).
-/
import StackScript.Proofs.Machine.Printing

namespace StackScript

/-- A change of a global variable. -/
inductive Write where
  | define (name : Handle) (v : Value)
  | assign (name : Handle) (v : Value)
  deriving DecidableEq

namespace Write

/-- The name that is written. -/
def name : Write → Handle
  | define name _ | assign name _ => name

/-- The value that the name is bound to. -/
def value : Write → Value
  | define _ v | assign _ v => v

end Write

namespace Globals

/-- The bindings after a write. -/
def apply (globals : Globals) (w : Write) : Globals :=
  globals.bind w.name w.value

/-- Some writes in turn make one table of another; each assignment finds its name bound. -/
inductive Becomes : Globals → List Write → Globals → Prop where
  | nil (globals : Globals) : Becomes globals [] globals
  | define {globals last : Globals} {name : Handle} {v : Value} {others : List Write} :
      Becomes (globals.bind name v) others last →
      Becomes globals (.define name v :: others) last
  | assign {globals last : Globals} {name : Handle} {v : Value} {others : List Write} :
      globals.isBound name → Becomes (globals.bind name v) others last →
      Becomes globals (.assign name v :: others) last

/-- Besides the names that were bound only the new one is. -/
theorem isBound_bind (globals : Globals) (name other : Handle) (v : Value) :
    (globals.bind name v).isBound other ↔ name = other ∨ globals.isBound other := by
  rw [isBound_eq_isSome, isBound_eq_isSome, find?_bind]
  split <;> simp [*]

namespace Becomes

variable {a b c : Globals} {writes others : List Write}

/-- Writes that follow one another lead through the globals in between. -/
theorem append (first : a.Becomes writes b) (second : b.Becomes others c) :
    a.Becomes (writes ++ others) c := by
  induction first with
  | nil => exact second
  | define _ ih => exact .define (ih second)
  | assign bound _ ih => exact .assign bound (ih second)

/-- Globals become what their writes make of them, taken from the left. -/
theorem eq_foldl (becomes : a.Becomes writes b) : b = writes.foldl apply a := by
  induction becomes with
  | nil => rfl
  | define _ ih | assign _ _ ih => exact ih

/-- **Names are bound by definitions only,** and stay bound. -/
theorem isBound_iff (becomes : a.Becomes writes b) (name : Handle) :
    b.isBound name ↔ a.isBound name ∨ ∃ v, .define name v ∈ writes := by
  induction becomes with
  | nil => simp
  | @define globals last defined v others _ ih =>
    rw [ih, isBound_bind]
    constructor
    · rintro ((rfl | bound) | ⟨u, mem⟩)
      · exact .inr ⟨v, List.mem_cons_self ..⟩
      · exact .inl bound
      · exact .inr ⟨u, List.mem_cons_of_mem _ mem⟩
    · rintro (bound | ⟨u, mem⟩)
      · exact .inl (.inr bound)
      · rcases List.mem_cons.1 mem with same | mem
        · exact .inl (.inl (Write.define.inj same).1.symm)
        · exact .inr ⟨u, mem⟩
  | @assign globals last assigned v others bound _ ih =>
    rw [ih, isBound_bind]
    constructor
    · rintro ((rfl | bound') | ⟨u, mem⟩)
      · exact .inl bound
      · exact .inl bound'
      · exact .inr ⟨u, List.mem_cons_of_mem _ mem⟩
    · rintro (bound' | ⟨u, mem⟩)
      · exact .inl (.inr bound')
      · rcases List.mem_cons.1 mem with same | mem
        · cases same
        · exact .inr ⟨u, mem⟩

end Becomes

/-- **The last write of a name decides.** -/
theorem find?_foldl_apply (globals : Globals) (writes : List Write) (name : Handle) :
    (writes.foldl apply globals).find? name =
      ((writes.findRev? (·.name = name)).map (·.value)).or (globals.find? name) := by
  induction writes generalizing globals with
  | nil => rfl
  | cons w others ih =>
    rw [List.foldl_cons, ih, List.findRev?]
    cases others.findRev? (·.name = name) with
    | some later => rfl
    | none =>
      rw [apply, find?_bind]
      by_cases same : w.name = name
      · simp [same]
      · simp [same]

/-- Binds a name, and says whether it was not bound before. -/
def set (globals : Globals) (name : Handle) (v : Value) : Bool × Globals :=
  (!globals.isBound name, globals.bind name v)

/-- Two tables have the same bindings. -/
structure Same (a b : Globals) : Prop where
  find? : ∀ name, b.find? name = a.find? name
  toList : b.toList = a.toList

/-- Binding a new name and erasing it again leaves the bindings as they were. -/
theorem same_erase_bind {globals : Globals} {name : Handle} (new : ¬ globals.isBound name)
    (v : Value) : globals.Same ((globals.bind name v).erase name) := by
  have unbound : globals.find? name = none := by
    rwa [isBound_eq_isSome, Option.not_isSome_iff_eq_none] at new
  have found (other : Handle) :
      ((globals.bind name v).erase name).find? other = globals.find? other := by
    rw [find?_erase, find?_bind]
    split
    · rename_i same
      rw [← same, unbound]
    · rfl
  have bindings : ((globals.bind name v).erase name).bindings.Equiv globals.bindings :=
    .of_forall_constGet?_eq fun index => found ⟨index⟩
  refine ⟨found, ?_⟩
  rw [toList, toList, bindings.toList_eq]

end Globals

/-! ## Instructions -/

/-- The name that an operand names. -/
def nameOf? (constants : List Value) (k : UInt8) : Option Handle :=
  match constants[k.toNat]? with
  | some (.object name) => some name
  | _ => none

/-- The write of an instruction, if it completes. -/
def Instruction.write? (constants : List Value) (m : Machine) : Instruction → Option Write
  | defineGlobal k => do return .define (← nameOf? constants k) (← m.stack.values.head?)
  | setGlobal k => do return .assign (← nameOf? constants k) (← m.stack.values.head?)
  | _ => none

namespace Machine

/-- An operation leaves the globals as they are. -/
abbrev Spares (m : Machine) (result : Except RuntimeFault Machine) : Prop :=
  Yields (fun after => after.globals = m.globals) result

/-- Pushing a value writes no global. -/
theorem spares_push (m : Machine) (v : Value) : m.Spares (m.push v) :=
  .then fun _ => .pure rfl

/-- Taking a value off the stack writes no global. -/
theorem spares_pop (m : Machine) : Yields (fun popped => popped.2.globals = m.globals) m.pop :=
  .then fun _ => .pure rfl

/-- An operation on the top value writes no global. -/
theorem spares_mapTop (m : Machine) (f : Value → Except RuntimeFault Value) :
    m.Spares (m.mapTop f) :=
  .bind m.spares_pop fun popped first => .then fun v after pushed =>
    (popped.2.spares_push v after pushed).trans first

/-- An operation on the two top values writes no global. -/
theorem spares_mapTop2 (m : Machine) (f : Value → Value → Except RuntimeFault Value) :
    m.Spares (m.mapTop2 f) :=
  .bind m.spares_pop fun popped first => .bind popped.2.spares_pop fun popped' second =>
    .then fun v after pushed => ((popped'.2.spares_push v after pushed).trans second).trans first

/-- An addition writes no global, also if it joins two texts. -/
theorem spares_add (m : Machine) : m.Spares m.add := by
  refine .then fun b => .then fun a => ?_
  split
  · refine .bind m.spares_pop fun popped first => ?_
    refine .bind popped.2.spares_pop fun last second => ?_
    exact fun after pushed => (spares_push _ _ after pushed).trans (second.trans first)
  · exact m.spares_mapTop2 _

/-- Reading a global writes none. -/
theorem spares_getGlobal (m : Machine) (name : Handle) : m.Spares (m.getGlobal name) := by
  unfold getGlobal
  split
  · exact m.spares_push _
  · exact .error _

/-- What a step does to the globals: a write if it completes, and else nothing. -/
inductive Updates (m : Machine) (write : Option Write) : Step → Prop where
  | next {after : Machine} : m.globals.Becomes write.toList after.globals →
      Updates m write (.next after)
  | finished {after : Machine} : after.globals = m.globals → Updates m write (.finished after)
  | failed (fault : RuntimeFault) {after : Machine} : after.globals = m.globals →
      Updates m write (.failed fault after)

variable {m : Machine}

/-- A step that writes no global is an update without a write. -/
theorem Spares.updates {result : Except RuntimeFault Machine} (spares : m.Spares result) :
    Updates m none (.ofExcept m result) := by
  cases result with
  | ok after =>
    refine .next ?_
    rw [spares after rfl]
    exact .nil _
  | error fault => exact .failed fault rfl

/-- Printing writes no global. -/
theorem updates_printTop (m : Machine) : Updates m none m.printTop := by
  unfold printTop
  split
  · exact .failed _ rfl
  · rename_i v after popped
    have first : after.globals = m.globals := m.spares_pop _ popped
    have second := after.globals_printLine (v.text after.pool)
    split <;> rename_i last printed <;> rw [printed] at second
    · refine .next ?_
      rw [second.trans first]
      exact .nil _
    · exact .failed _ (second.trans first)

/-- The name that an instruction refers to is the constant with that number. -/
theorem nameOf?_of_nameConstant {constants : List Value} {k : UInt8} {name : Handle}
    (named : m.nameConstant constants k = .ok name) : nameOf? constants k = some name := by
  unfold nameConstant constant at named
  unfold nameOf?
  cases found : constants[k.toNat]? with
  | none => simp [found, bind, Except.bind] at named
  | some v => 
    cases v with
    | object h => 
      simp only [found, bind, Except.bind] at named
      split at named
      · exact congrArg some (Except.ok.inj named)
      · cases named
    | _ => simp [found, bind, Except.bind] at named

/-- An operation on a name, which is a write if it completes. -/
theorem updates_named {constants : List Value} {k : UInt8}
    {act : Handle → Except RuntimeFault Machine} {write : Handle → Value → Write}
    (updates : ∀ name, Updates m (m.stack.values.head?.map (write name)) (.ofExcept m (act name))) :
    Updates m (do return write (← nameOf? constants k) (← m.stack.values.head?))
      (.ofExcept m (m.nameConstant constants k >>= act)) := by
  cases named : m.nameConstant constants k with
  | error fault => exact .failed fault rfl
  | ok name =>
    have updated := updates name
    rw [nameOf?_of_nameConstant named]
    cases top : m.stack.values.head? with
    | none => rwa [top] at updated
    | some v => rwa [top] at updated

/-- A definition writes the top value, if there is one. -/
theorem updates_defineGlobal (m : Machine) (name : Handle) :
    Updates m (m.stack.values.head?.map (.define name)) (.ofExcept m (m.defineGlobal name)) := by
  cases top : m.stack.values with
  | nil =>
    rw [defineGlobal_of_nil name top]
    exact .failed _ rfl
  | cons v below =>
    obtain ⟨_, defined⟩ := defineGlobal_of_cons name top
    rw [defined]
    exact .next (.define (.nil _))

/-- An assignment writes the top value, if there is one and the name is bound. -/
theorem updates_setGlobal (m : Machine) (name : Handle) :
    Updates m (m.stack.values.head?.map (.assign name)) (.ofExcept m (m.setGlobal name)) := by
  cases top : m.stack.values with
  | nil =>
    rw [setGlobal_of_nil name top]
    exact .failed _ rfl
  | cons v below =>
    rw [setGlobal_of_cons name top]
    split
    · rename_i bound
      exact .next (.assign bound (.nil _))
    · exact .failed _ rfl

/-- **An instruction writes one global variable or none,** and none if it fails. -/
theorem updates_step (constants : List Value) (m : Machine) (i : Instruction) :
    Updates m (i.write? constants m) (m.step constants i) := by
  cases i with
  | constant k => exact Spares.updates (.then fun v => m.spares_push v)
  | pushNil | pushTrue | pushFalse => exact Spares.updates (m.spares_push _)
  | pop => exact Spares.updates (.bind m.spares_pop fun _ popped => .pure popped)
  | getGlobal k => exact Spares.updates (.then fun name => m.spares_getGlobal name)
  | defineGlobal k => exact updates_named m.updates_defineGlobal
  | setGlobal k => exact updates_named m.updates_setGlobal
  | equal | greater | less | subtract | multiply | divide =>
    exact Spares.updates (m.spares_mapTop2 _)
  | add => exact Spares.updates m.spares_add
  | not | negate => exact Spares.updates (m.spares_mapTop _)
  | print => exact m.updates_printTop
  | finish =>
    rw [step]
    split
    · exact .finished rfl
    · exact .failed _ rfl

/-! ## Assigning first and asking later -/

/-- Rebinds a global variable to the top value, on a table that only tells afterwards whether
the name was new. A new one is erased again. -/
def trySetGlobal (m : Machine) (name : Handle) : Step :=
  match m.stack.peek 0 with
  | .error fault => .failed fault m
  | .ok v =>
    let (new, globals) := m.globals.set name v
    if new then .failed (m.undefinedVariable name) { m with globals := globals.erase name }
    else .next { m with globals }

/-- Two steps end in the same way; failed ones may leave different tables of the same bindings. -/
inductive Step.Same : Step → Step → Prop where
  | next (m : Machine) : Same (.next m) (.next m)
  | failed {m : Machine} {globals : Globals} (fault : RuntimeFault) : m.globals.Same globals →
      Same (.failed fault m) (.failed fault { m with globals })

/-- **What was bound by mistake is erased without a trace.** -/
theorem same_trySetGlobal (m : Machine) (name : Handle) :
    (Step.ofExcept m (m.setGlobal name)).Same (m.trySetGlobal name) := by
  unfold trySetGlobal Stack.peek Globals.set
  cases top : m.stack.values with
  | nil =>
    rw [setGlobal_of_nil name top]
    have same : m.globals.Same m.globals := ⟨fun _ => rfl, rfl⟩
    exact .failed _ same
  | cons v below =>
    rw [setGlobal_of_cons name top]
    dsimp only [List.getElem?_cons_zero]
    by_cases bound : m.globals.isBound name = true
    · rw [bound]
      exact .next _
    · rw [if_neg bound, eq_false_of_ne_true bound]
      exact .failed _ (Globals.same_erase_bind bound v)

/-! ## Runs -/

/-- What a slot does to the globals: the write of its instruction if the run goes on, and else
nothing. -/
inductive SlotUpdates (chunk : Chunk) (slot : Slot) (m : Machine) : Progress → Prop where
  | running {i : Instruction} {after : Machine} : slot.content = .instruction i →
      m.globals.Becomes (i.write? chunk.constants m).toList after.globals →
      SlotUpdates chunk slot m (.running after)
  | ended (ending : Ending) {after : Machine} : after.globals = m.globals →
      SlotUpdates chunk slot m (.ended ending after)

/-- A trace does not change what an instruction is to write. -/
theorem write?_trace (constants : List Value) (m : Machine) (chunk : Chunk) (slot : Slot)
    (i : Instruction) : i.write? constants (m.trace chunk slot) = i.write? constants m := by
  cases i <;> simp only [Instruction.write?, stack_trace]

/-- Running a slot writes what its instruction says, and nothing if it fails. -/
theorem updates_runSlot (chunk : Chunk) (slot : Slot) (m : Machine) :
    SlotUpdates chunk slot m (runSlot chunk slot m) := by
  unfold runSlot
  dsimp only
  split
  · exact .ended _ (globals_trace ..)
  · exact .ended _ (globals_trace ..)
  · rename_i i content
    have updates := updates_step chunk.constants (m.trace chunk slot) i
    rw [write?_trace] at updates
    generalize (m.trace chunk slot).step chunk.constants i = result at updates
    cases updates with
    | next becomes => exact .running content (m.globals_trace chunk slot ▸ becomes)
    | finished same => exact .ended _ (same.trans (globals_trace ..))
    | failed fault same => exact .ended _ (same.trans (globals_trace ..))

/-- The instructions that a run of some slots completes, each with the machine that it finds. -/
def completed (chunk : Chunk) : List Slot → Machine → List (Machine × Instruction)
  | [], _ => []
  | slot :: others, m =>
    match slot.content, runSlot chunk slot m with
    | .instruction i, .running after => (m, i) :: completed chunk others after
    | _, _ => []

section Completed

variable {chunk : Chunk} {slot : Slot} {m after : Machine} {i : Instruction}

/-- An instruction that was run without a fault is the first one to be completed. -/
theorem completed_of_running (others : List Slot) (content : slot.content = .instruction i)
    (eq : runSlot chunk slot m = .running after) :
    completed chunk (slot :: others) m = (m, i) :: completed chunk others after := by
  rw [completed, content, eq]

/-- Where the run ends, nothing is completed any more. -/
theorem completed_of_ended {ending : Ending} (others : List Slot)
    (eq : runSlot chunk slot m = .ended ending after) :
    completed chunk (slot :: others) m = [] := by
  rw [completed, eq]
  cases slot.content <;> rfl

end Completed

/-- The writes of the instructions that the run of some slots completes. -/
def slotWrites (chunk : Chunk) (slots : List Slot) (m : Machine) : List Write :=
  (completed chunk slots m).flatMap fun (before, i) => (i.write? chunk.constants before).toList

/-- **A run applies the writes of the instructions that it completes,** and does nothing else to
the globals. -/
theorem becomes_runSlots (chunk : Chunk) (slots : List Slot) (m : Machine) :
    m.globals.Becomes (slotWrites chunk slots m) (runSlots chunk slots m).machine.globals := by
  induction slots generalizing m with
  | nil => exact .nil _
  | cons slot others ih =>
    have updates := updates_runSlot chunk slot m
    rw [runSlots, slotWrites]
    cases eq : runSlot chunk slot m with
    | running next =>
      rw [eq] at updates
      obtain ⟨content, becomes⟩ := updates
      rw [completed_of_running others content eq, List.flatMap_cons]
      exact becomes.append (ih next)
    | ended ending last =>
      rw [eq] at updates
      cases updates with
      | ended _ same =>
        rw [completed_of_ended others eq]
        show m.globals.Becomes [] last.globals
        rw [same]
        exact .nil _

/-- The writes of the instructions that the run of a chunk completes. -/
def writes (m : Machine) (chunk : Chunk) : List Write :=
  slotWrites chunk chunk.slots (m.begun chunk)

/-- The end of a run leaves the globals as they are. -/
theorem globals_concluded (m : Machine) (ending : Ending) :
    (m.concluded ending).globals = m.globals := by
  cases ending with
  | finished => rfl
  | failed fault line =>
    obtain ⟨reported, quiet, eq⟩ := m.abort_eq fault line
    rw [concluded, eq]
    exact quiet.globals

/-- A run leaves the globals that its writes make of those before it. -/
theorem becomes_interpretChunk (m : Machine) (chunk : Chunk) :
    m.globals.Becomes (m.writes chunk) (m.interpretChunk chunk).2.globals := by
  have slots : m.globals.Becomes (m.writes chunk)
      (runSlots chunk chunk.slots (m.begun chunk)).machine.globals :=
    becomes_runSlots chunk chunk.slots (m.begun chunk)
  rw [interpretChunk_eq, globals_concluded, (quiet_run _ chunk).globals]
  exact slots

/-- **Globals change by completed definitions and assignments only.** -/
theorem globals_interpretChunk (m : Machine) (chunk : Chunk) :
    (m.interpretChunk chunk).2.globals = (m.writes chunk).foldl Globals.apply m.globals ∧
      (∀ name, (m.interpretChunk chunk).2.globals.isBound name ↔
        m.globals.isBound name ∨ ∃ v, .define name v ∈ m.writes chunk) ∧
      (∀ name, (m.interpretChunk chunk).2.globals.find? name =
        (((m.writes chunk).findRev? (·.name = name)).map (·.value)).or (m.globals.find? name)) ∧
      (∀ i fault after, m.step chunk.constants i = .failed fault after →
        after.globals = m.globals) ∧
      ∀ name, (Step.ofExcept m (m.setGlobal name)).Same (m.trySetGlobal name) := by
  have becomes := m.becomes_interpretChunk chunk
  refine ⟨becomes.eq_foldl, becomes.isBound_iff, fun name => ?_, fun i fault after failed => ?_,
    m.same_trySetGlobal⟩
  · rw [becomes.eq_foldl]
    exact Globals.find?_foldl_apply ..
  · have updates := updates_step chunk.constants m i
    rw [failed] at updates
    cases updates with
    | failed _ same => exact same

/-- Assigning to a name that is not bound, with a value on the stack. -/
theorem globals_interpretChunk_unbound :
    let named := ((create default .unlimited .unlimited).intern [120]).2
    let m := { named with stack := ⟨[.nil], 256, by decide⟩ }
    let chunk : Chunk := ⟨[], [.object ⟨0⟩]⟩
    ∃ fault after, m.step chunk.constants (.setGlobal 0) = .failed fault after ∧
      after.globals = m.globals := by
  intro named m chunk
  have failed : m.step chunk.constants (.setGlobal 0) = .failed (.undefinedVariable "x") m := by
    rfl
  obtain ⟨-, -, -, spared, -⟩ := globals_interpretChunk m chunk
  exact ⟨_, _, failed, spared _ _ _ failed⟩

end Machine
end StackScript
