/-
# The world that a machine holds

A machine holds a world: each global variable is found by the handle of its name and
stands for what the content of its value is, and the printed bytes are those in the
transcript. That world is all that an evaluation can see (`Machine.world`).

A machine is rooted if every handle that its globals hold is live. Then the world does not
change when the pool grows (`Rooted.world_grow`): a string that comes later is no name that
is bound already. A machine is sound if it is rooted and its output accepts everything. The
other changes of a machine are changes of its world:

| machine | world |
| --- | --- |
| values on the stack, logged and reported texts | unchanged |
| binds the handle of a name | binds the name |
| prints a text | prints its bytes |
-/
import StackScript.Proofs.Evaluator
import StackScript.Proofs.Machine.Balance

namespace StackScript

/-- A sink that accepts every text and never fails to flush. -/
def Sink.Reliable (s : Sink) : Prop :=
  (∀ offered text, s.accepts offered text = true) ∧ ∀ offered, s.stall? offered = none

/-- A reliable sink accepts a text, and stays reliable. -/
theorem Sink.Reliable.write {s : Sink} (reliable : s.Reliable) (text : String) :
    (s.write text).1 = none ∧ (s.write text).2.Reliable := by
  unfold Sink.write
  split
  · exact ⟨rfl, reliable⟩
  · exact ⟨Option.isNone_iff_eq_none.1 (reliable.1 ..), reliable⟩

/-- The bytes that an event prints. -/
def Event.bytes : Event → List UInt8
  | printed text => Utf8.encode text.toList
  | reported _ | logged _ => []

namespace Machine

/-- The bytes that were printed in a session. -/
def printed (m : Machine) : List UInt8 :=
  m.transcript.toList.flatMap Event.bytes

/-- The world that a machine holds. -/
def world (m : Machine) : World where
  globals name := (m.pool.find? name).bind fun h => (m.globals.find? h).bind (·.content? m.pool)
  output := m.printed

/-- Nothing that the globals hold is dangling. -/
structure Rooted (m : Machine) : Prop where
  names : ∀ h v, m.globals.find? h = some v → ∃ s, m.pool.get? h = some s
  values : ∀ h v, m.globals.find? h = some v → ∃ d, v.content? m.pool = some d

/-- Nothing that the globals hold is dangling, and the output is reliable. -/
structure Sound (m : Machine) : Prop where
  names : ∀ h v, m.globals.find? h = some v → ∃ s, m.pool.get? h = some s
  values : ∀ h v, m.globals.find? h = some v → ∃ d, v.content? m.pool = some d
  output : m.output.Reliable

variable {m after : Machine} {h : Handle} {s : StoredString} {v : Value} {d : Datum}

/-- What is sound is rooted. -/
theorem Sound.rooted (sound : m.Sound) : m.Rooted :=
  ⟨sound.names, sound.values⟩

/-- A new machine is rooted. -/
theorem rooted_create (settings : Settings) (output errors : Sink) :
    (create settings output errors).Rooted := by
  constructor <;> intro h v bound <;> rw [create, Globals.find?_empty] at bound <;> cases bound

/-- A new machine is sound, if its output is reliable. -/
theorem sound_create (settings : Settings) {output errors : Sink} (reliable : output.Reliable) :
    (create settings output errors).Sound :=
  ⟨(rooted_create settings output errors).names, (rooted_create settings output errors).values,
    reliable⟩

/-- In the world of a new machine nothing is bound, and nothing was printed. -/
theorem world_create (settings : Settings) (output errors : Sink) :
    (create settings output errors).world = ⟨fun _ => none, []⟩ := by
  have globals (name : List UInt8) :
      (create settings output errors).world.globals name = none := by
    rw [world, create]
    dsimp only
    cases StringPool.empty.find? name with
    | none => rfl
    | some h => rw [Option.bind_some, Globals.find?_empty, Option.bind_none]
  exact World.mk.injEq .. ▸ ⟨funext globals, rfl⟩

/-- What is rooted depends on globals and strings only. -/
theorem Rooted.congr (rooted : m.Rooted) (globals : after.globals = m.globals)
    (pool : after.pool = m.pool) : after.Rooted where
  names h v bound := by
    rw [globals] at bound
    rw [pool]
    exact rooted.names h v bound
  values h v bound := by
    rw [globals] at bound
    rw [pool]
    exact rooted.values h v bound

/-- Soundness depends on globals, strings and output only. -/
theorem Sound.congr (sound : m.Sound) (globals : after.globals = m.globals)
    (pool : after.pool = m.pool) (output : after.output = m.output) : after.Sound :=
  have rooted := sound.rooted.congr globals pool
  ⟨rooted.names, rooted.values, output ▸ sound.output⟩

/-! ## Names -/

/-- What a name is bound to, in a pool where it has a handle. -/
theorem globals_world (live : m.pool.get? h = some s) :
    m.world.globals s.bytes = (m.globals.find? h).bind (·.content? m.pool) := by
  have found : m.pool.find? s.bytes = some h := StringPool.find?_eq_some_iff.2 ⟨s, live, rfl⟩
  rw [world]
  dsimp only
  rw [found, Option.bind_some]

/-- In a rooted machine, a name is bound to what its value stands for. -/
theorem Rooted.global? (rooted : m.Rooted) (name : List Char) :
    (m.global? name).map (·.content? m.pool) = (m.world.globals (Utf8.encode name)).map some := by
  rw [Machine.global?, world]
  dsimp only
  cases m.pool.find? (Utf8.encode name) with
  | none => rfl
  | some h =>
    rw [Option.bind_some, Option.bind_some]
    cases bound : m.globals.find? h with
    | none => rfl
    | some v =>
      obtain ⟨d, content⟩ := rooted.values h v bound
      simp [content]

/-- A global variable is what its name is bound to in the world. -/
theorem Sound.global? (sound : m.Sound) (name : List Char) :
    (m.global? name).map (·.content? m.pool) = (m.world.globals (Utf8.encode name)).map some :=
  sound.rooted.global? name

/-! ## Growing strings -/

variable {pool : StringPool}

/-- A machine stays rooted when strings are added. -/
theorem Rooted.grow (rooted : m.Rooted) (grows : m.pool.Grows pool) : { m with pool }.Rooted where
  names h v bound := by
    obtain ⟨s, live⟩ := rooted.names h v bound
    exact ⟨s, grows.get? live⟩
  values h v bound := by
    obtain ⟨d, content⟩ := rooted.values h v bound
    exact ⟨d, Value.content?_of_grows grows content⟩

/-- A machine stays sound when strings are added. -/
theorem Sound.grow (sound : m.Sound) (grows : m.pool.Grows pool) : { m with pool }.Sound :=
  have rooted := sound.rooted.grow grows
  ⟨rooted.names, rooted.values, sound.output⟩

/-- **Strings that come later bind nothing.** -/
theorem Rooted.world_grow (rooted : m.Rooted) (grows : m.pool.Grows pool) :
    { m with pool }.world = m.world := by
  have agree (h : Handle) : (m.globals.find? h).bind (·.content? pool) =
      (m.globals.find? h).bind (·.content? m.pool) := by
    cases bound : m.globals.find? h with
    | none => rfl
    | some v =>
      obtain ⟨d, content⟩ := rooted.values h v bound
      simp [content, Value.content?_of_grows grows content]
  have globals (name : List UInt8) :
      { m with pool }.world.globals name = m.world.globals name := by
    rw [world, world]
    dsimp only
    cases old : m.pool.find? name with
    | some h => rw [grows.find? old, Option.bind_some, Option.bind_some, agree]
    | none =>
      cases new : pool.find? name with
      | none => rfl
      | some h =>
        -- a bound handle is live in the old pool, and would have been found there
        rw [Option.bind_some, Option.bind_none]
        cases bound : m.globals.find? h with
        | none => rfl
        | some v =>
          obtain ⟨s, live⟩ := rooted.names h v bound
          obtain ⟨t, live', rfl⟩ := StringPool.find?_eq_some_iff.1 new
          obtain rfl : s = t := Option.some.inj ((grows.get? live).symm.trans live')
          exact absurd rfl (StringPool.find?_eq_none_iff.1 old h s live)
  rw [world, world, World.mk.injEq]
  exact ⟨funext globals, rfl⟩

/-- Added strings do not change the world. -/
theorem Sound.world_grow (sound : m.Sound) (grows : m.pool.Grows pool) :
    { m with pool }.world = m.world :=
  sound.rooted.world_grow grows

/-! ## Binding a name -/

/-- A machine stays rooted when a name is bound to a value with content. -/
theorem Rooted.bind (rooted : m.Rooted) (live : m.pool.get? h = some s)
    (content : v.content? m.pool = some d) :
    { m with globals := m.globals.bind h v }.Rooted where
  names k u bound := by
    rw [Globals.find?_bind] at bound
    split at bound
    · rename_i eq
      exact eq ▸ ⟨s, live⟩
    · exact rooted.names k u bound
  values k u bound := by
    rw [Globals.find?_bind] at bound
    split at bound
    · obtain rfl := Option.some.inj bound
      exact ⟨d, content⟩
    · exact rooted.values k u bound

/-- A machine stays sound when a name is bound to a value with content. -/
theorem Sound.bind (sound : m.Sound) (live : m.pool.get? h = some s)
    (content : v.content? m.pool = some d) :
    { m with globals := m.globals.bind h v }.Sound :=
  have rooted := sound.rooted.bind live content
  ⟨rooted.names, rooted.values, sound.output⟩

/-- Binding a name binds its bytes in the world. -/
theorem world_bind (live : m.pool.get? h = some s) (content : v.content? m.pool = some d) :
    { m with globals := m.globals.bind h v }.world = m.world.bind s.bytes d := by
  have globals (name : List UInt8) :
      { m with globals := m.globals.bind h v }.world.globals name =
        (m.world.bind s.bytes d).globals name := by
    rw [world, World.bind, world]
    dsimp only
    split
    · rename_i eq
      rw [eq, StringPool.find?_eq_some_iff.2 ⟨s, live, rfl⟩, Option.bind_some, Globals.find?_bind,
        if_pos rfl]
      exact content
    · rename_i ne
      cases found : m.pool.find? name with
      | none => rfl
      | some k =>
        have other : h ≠ k := by
          rintro rfl
          obtain ⟨t, live', eq⟩ := StringPool.find?_eq_some_iff.1 found
          obtain rfl : s = t := Option.some.inj (live.symm.trans live')
          exact ne eq.symm
        rw [Option.bind_some, Option.bind_some, Globals.find?_bind, if_neg other]
  rw [world, World.bind, World.mk.injEq]
  exact ⟨funext globals, rfl⟩

/-! ## Logging and reporting -/

/-- Nothing has happened that a program could see. -/
structure Quiet (m after : Machine) : Prop where
  stack : after.stack = m.stack
  globals : after.globals = m.globals
  pool : after.pool = m.pool
  output : after.output = m.output
  printed : after.printed = m.printed

namespace Quiet

/-- What does nothing is quiet. -/
theorem refl (m : Machine) : m.Quiet m :=
  ⟨rfl, rfl, rfl, rfl, rfl⟩

/-- What is quiet in two parts is quiet. -/
theorem trans {a b c : Machine} (h₁ : a.Quiet b) (h₂ : b.Quiet c) : a.Quiet c :=
  ⟨h₂.stack.trans h₁.stack, h₂.globals.trans h₁.globals, h₂.pool.trans h₁.pool,
    h₂.output.trans h₁.output, h₂.printed.trans h₁.printed⟩

/-- A quiet step does not change the world. -/
theorem world (quiet : m.Quiet after) : after.world = m.world := by
  rw [Machine.world, Machine.world, quiet.globals, quiet.pool, quiet.printed]

/-- A quiet step leaves a sound machine sound. -/
theorem sound (quiet : m.Quiet after) (sound : m.Sound) : after.Sound :=
  sound.congr quiet.globals quiet.pool quiet.output

end Quiet

/-- An event is printed behind the others, if at all. -/
theorem printed_note (m : Machine) (event : Event) :
    (m.note event).printed = m.printed ++ event.bytes := by
  simp [printed, note]

/-- Logging is quiet. -/
theorem quiet_log (m : Machine) (level : Log.Level) (part : Log.Part) (message : String) :
    m.Quiet (m.log level part message) := by
  refine ⟨rfl, rfl, rfl, rfl, ?_⟩
  rw [log, printed_note, Event.bytes, List.append_nil]

/-- A trace of the stack is quiet. -/
theorem quiet_traceStack (m : Machine) : m.Quiet m.traceStack := by
  unfold traceStack
  split
  · exact quiet_log ..
  · exact .refl m

/-- A trace of an instruction is quiet. -/
theorem quiet_trace (m : Machine) (chunk : Chunk) (slot : Slot) : m.Quiet (m.trace chunk slot) := by
  unfold trace
  dsimp only
  split
  · exact m.quiet_traceStack.trans (quiet_log ..)
  · exact m.quiet_traceStack

/-- A report is quiet. -/
theorem quiet_report (m : Machine) (text : String) : m.Quiet (m.report text).2 := by
  unfold report
  dsimp only
  split
  · refine ⟨rfl, rfl, rfl, rfl, ?_⟩
    rw [printed_note, Event.bytes, List.append_nil]
    rfl
  · exact ⟨rfl, rfl, rfl, rfl, rfl⟩

/-- A reported line is quiet. -/
theorem quiet_reportLine (m : Machine) (text : String) : m.Quiet (m.reportLine text) := by
  have first := m.quiet_report text
  have second := first.trans ((m.report text).2.quiet_report "\n")
  unfold reportLine
  dsimp only
  split <;> split
  · exact second
  · exact first
  · exact second.trans (quiet_log ..)
  · exact first.trans (quiet_log ..)

/-- A fault empties the stack; a program sees nothing else of it. -/
theorem abort_eq (m : Machine) (fault : RuntimeFault) (line : Nat) :
    ∃ reported, m.Quiet reported ∧
      m.abort fault line = { reported with stack := reported.stack.clear } :=
  ⟨_, (m.quiet_log ..).trans (quiet_reportLine ..), rfl⟩

/-! ## Printing -/

/-- A reliable output takes a text, which is then printed. -/
theorem print_of_reliable (reliable : m.output.Reliable) (text : String) :
    m.print text = (none, { m with output := (m.output.write text).2 }.note (.printed text)) := by
  unfold print
  dsimp only
  rw [(reliable.write text).1, if_pos Option.isNone_none]

/-- Printing a line succeeds, and prints its bytes. -/
theorem exists_printLine_eq (sound : m.Sound) (text : String) :
    ∃ after, m.printLine text = (none, after) ∧ after.stack = m.stack ∧ after.pool = m.pool ∧
      after.Sound ∧ after.world = m.world.print (Utf8.encode (text.toList ++ ['\n'])) := by
  have first := (sound.output.write text).2
  have second := (first.write "\n").2
  rw [printLine, print_of_reliable sound.output]
  dsimp only
  rw [if_pos Option.isNone_none, print_of_reliable first]
  refine ⟨_, rfl, rfl, rfl, ⟨sound.names, sound.values, second⟩, ?_⟩
  rw [world, world, World.print, World.mk.injEq]
  refine ⟨rfl, ?_⟩
  rw [printed_note]
  show (Machine.printed (note _ _)) ++ _ = _
  rw [printed_note, Utf8.encode_append, List.append_assoc]
  rfl

end Machine
end StackScript
