/-
# Sessions do what their sources mean

A session runs sources one after the other (`Reached`). Between two of them a machine is
idle: it is sound, and its stack is empty. A source that is refused changes nothing that a
program could see, and a source that is accepted does what its tree means:

| evaluation of the tree | answer |
| --- | --- |
| ends well | `ok` |
| ends with a fault | `runtimeError`, after the fault was reported |

Either way the machine holds the world in which the evaluation has ended.
-/
import StackScript.Proofs.Neutrality
import StackScript.Proofs.Simulation

namespace StackScript

/-- The machines that a session can reach. -/
inductive Reached (settings : Settings) (output errors : Sink) : Machine → Prop where
  | create : Reached settings output errors (.create settings output errors)
  | interpret {m : Machine} (source : String) : Reached settings output errors m →
      Reached settings output errors (m.interpret source).2

namespace Machine

/-- A machine between two runs. -/
structure Idle (limit : Nat) (m : Machine) : Prop where
  sound : m.Sound
  empty : m.stack.values = []
  limit : m.stack.limit = limit

/-- What a user of a machine sees of a world: what was printed, and every global variable. -/
structure Exhibits (m : Machine) (w : World) : Prop where
  output : m.printed = w.output
  globals : ∀ name, (m.global? name).map (·.content? m.pool) =
    (w.globals (Utf8.encode name)).map some

/-- A sound machine exhibits its world. -/
theorem Sound.exhibits {m : Machine} (sound : m.Sound) : m.Exhibits m.world :=
  ⟨rfl, sound.global?⟩

variable {limit : Nat} {m after : Machine} {source : String} {chunk : Chunk} {pool : StringPool}

/-- A machine at rest stays so if nothing happens. -/
theorem Quiet.idle (quiet : m.Quiet after) (idle : m.Idle limit) : after.Idle limit :=
  ⟨quiet.sound idle.sound, by rw [quiet.stack, idle.empty], by rw [quiet.stack, idle.limit]⟩

/-- A machine at rest stays so when strings are added. -/
theorem Idle.grow (idle : m.Idle limit) (grows : m.pool.Grows pool) : { m with pool }.Idle limit :=
  ⟨idle.sound.grow grows, idle.empty, idle.limit⟩

/-- A new machine is at rest, if its output is reliable. -/
theorem idle_create (settings : Settings) {output errors : Sink} (reliable : output.Reliable) :
    (create settings output errors).Idle settings.stackMax :=
  ⟨sound_create settings reliable, rfl, rfl⟩

/-! ## Refused sources -/

/-- Compiling extends the pool. -/
theorem grows_compile (source : String) (pool : StringPool) :
    pool.Grows (StackScript.compile source pool).2 := by
  unfold StackScript.compile
  dsimp only
  split <;> exact Literal.grows_linkAll ..

/-- What compiling leaves extends the pool before. -/
theorem grows_of_compile {result : Except (List Diagnostic) Chunk} {before : StringPool}
    (compiled : StackScript.compile source before = (result, pool)) : before.Grows pool := by
  have grows := grows_compile source before
  rwa [compiled] at grows

/-- Rejecting a source is quiet. -/
theorem quiet_reject (m : Machine) (diagnostics : List Diagnostic) :
    m.Quiet (m.reject diagnostics) := by
  have reported (m : Machine) : m.Quiet (diagnostics.foldl (fun m d => m.reportLine d.text) m) := by
    induction diagnostics generalizing m with
    | nil => exact .refl m
    | cons d others ih => exact (m.quiet_reportLine d.text).trans (ih _)
  exact (m.quiet_log ..).trans (reported _)

/-- A source that is refused is reported, and its strings are kept; nothing else happens. -/
theorem quiet_interpret_of_error {diagnostics : List Diagnostic}
    (refused : StackScript.compile source m.pool = (.error diagnostics, pool)) :
    (m.interpret source).1 = .compileError ∧ { m with pool }.Quiet (m.interpret source).2 := by
  rw [interpret, compile, refused]
  exact ⟨rfl, Quiet.trans (quiet_log ..) (quiet_reject _ diagnostics)⟩

/-- A source that is refused leaves the world as it was. -/
theorem interpret_of_error {diagnostics : List Diagnostic} (idle : m.Idle limit)
    (refused : StackScript.compile source m.pool = (.error diagnostics, pool)) :
    (m.interpret source).2.Idle limit ∧ (m.interpret source).2.world = m.world := by
  have grows := grows_of_compile refused
  obtain ⟨-, quiet⟩ := quiet_interpret_of_error refused
  exact ⟨quiet.idle (idle.grow grows), quiet.world.trans (idle.sound.world_grow grows)⟩

/-! ## Accepted sources -/

/-- How a source is answered, according to the result of evaluating its tree. -/
inductive Answers (limit : Nat) :
    RunResult × Machine → EStateM.Result RuntimeFault World Unit → Prop where
  | ok {after : Machine} : after.Idle limit → Answers limit (.ok, after) (.ok () after.world)
  | runtimeError {before : Machine} {fault : RuntimeFault} {line : Nat} :
      (before.abort fault line).Idle limit →
      Answers limit (.runtimeError, before.abort fault line)
        (.error fault (before.abort fault line).world)

/-- Aborting a run does not change the world. -/
theorem world_abort (m : Machine) (fault : RuntimeFault) (line : Nat) :
    (m.abort fault line).world = m.world := by
  obtain ⟨reported, quiet, eq⟩ := m.abort_eq fault line
  rw [eq, ← quiet.world]
  rfl

/-- An aborted machine is at rest. -/
theorem idle_abort (sound : m.Sound) (h : m.stack.limit = limit) (fault : RuntimeFault)
    (line : Nat) : (m.abort fault line).Idle limit := by
  obtain ⟨reported, quiet, eq⟩ := m.abort_eq fault line
  rw [eq]
  refine ⟨(quiet.sound sound).congr rfl rfl rfl, rfl, ?_⟩
  rw [← h, ← quiet.stack]
  rfl

/-- A chunk is answered as its program is evaluated. -/
theorem answers_interpretChunk {p : Program} (idle : m.Idle limit)
    (holds : List.Forall₂ Slot.Holds chunk.slots p.code)
    (linked : Linked chunk.constants m.pool 0 (p.declarations.flatMap Declaration.constants)) :
    Answers limit (m.interpretChunk chunk) (p.eval limit m.world) := by
  have quiet : m.Quiet (m.begun chunk) := quiet_log ..
  have started := quiet.idle idle
  have concludes := p.concludes chunk holds (quiet.pool ▸ linked) started.sound started.empty
  rw [started.limit, quiet.world] at concludes
  generalize run : (m.begun chunk).run chunk = conclusion, p.eval limit m.world = result
    at concludes
  cases concludes with
  | @finished last kept sound empty =>
    have done : last.Quiet (last.log .debug .machine
      s!"run finished, {last.globals.size} globals defined") := quiet_log ..
    rw [interpretChunk_of_finished run, ← done.world]
    exact .ok (done.idle ⟨sound, empty, kept.trans started.limit⟩)
  | @failed fault line last kept sound =>
    rw [interpretChunk_of_failed run, ← world_abort last fault line]
    exact .runtimeError (idle_abort sound (kept.trans started.limit) fault line)

/-- The chunk of a source holds its code, and constants that the code is linked to. -/
theorem holds_of_compile {before : StringPool}
    (compiled : StackScript.compile source before = (.ok chunk, pool)) :
    List.Forall₂ Slot.Holds chunk.slots (ParsedSource.ofSource source).program.code ∧
      Linked chunk.constants pool 0
        ((ParsedSource.ofSource source).program.declarations.flatMap Declaration.constants) := by
  obtain ⟨_, -, -, rfl, code, linked⟩ := compile_eq_ok compiled
  exact ⟨code ▸ Program.forall₂_holds_slots _ _, linked⟩

/-- An accepted source is answered as its program is evaluated. -/
theorem answers_interpret (idle : m.Idle limit)
    (accepted : StackScript.compile source m.pool = (.ok chunk, pool)) :
    Answers limit (m.interpret source)
      ((ParsedSource.ofSource source).program.eval limit m.world) := by
  obtain ⟨holds, linked⟩ := holds_of_compile accepted
  have grows := grows_of_compile accepted
  rw [interpret, compile, accepted, ← idle.sound.world_grow grows]
  exact answers_interpretChunk (idle.grow grows) holds linked

end Machine

/-- The world after a source, of which a tree without faults is evaluated. -/
def World.next (limit : Nat) (w : World) (source : String) : World :=
  if (ParsedSource.ofSource source).diagnostics = [] then
    match (ParsedSource.ofSource source).program.eval limit w with
    | .ok _ after => after
    | .error _ after => after
  else w

/-- One source takes an idle machine and its world along. -/
theorem Machine.Idle.interpret {limit : Nat} {m : Machine} (idle : m.Idle limit) (source : String) :
    (m.interpret source).2.Idle limit ∧
      (m.interpret source).2.world = m.world.next limit source := by
  rw [World.next]
  match compiled : StackScript.compile source m.pool with
  | (.ok chunk, pool) =>
    have answers := answers_interpret idle compiled
    rw [if_pos (compile_eq_ok_iff.1 (congrArg Prod.fst compiled)).1]
    generalize m.interpret source = answer,
      (ParsedSource.ofSource source).program.eval limit m.world = result at answers
    cases answers with
    | ok idle => exact ⟨idle, rfl⟩
    | runtimeError idle => exact ⟨idle, rfl⟩
  | (.error diagnostics, pool) =>
    have refused : (ParsedSource.ofSource source).diagnostics ≠ [] := by
      intro none
      have accepted : (StackScript.compile source m.pool).1 = .ok _ :=
        compile_eq_ok_iff.2 ⟨none, rfl⟩
      rw [compiled] at accepted
      cases accepted
    rw [if_neg refused]
    exact interpret_of_error idle compiled

/-! ## Main statements -/

variable {settings : Settings} {output errors : Sink} {m : Machine}

/-- A machine that a session can reach is idle. -/
theorem Reached.idle (reached : Reached settings output errors m) (reliable : output.Reliable) :
    m.Idle settings.stackMax := by
  induction reached with
  | create => exact Machine.idle_create settings reliable
  | interpret source _ idle => exact (idle.interpret source).1

/-- **A whole session does what its sources mean,** one after the other, from a world in
which nothing is bound and nothing was printed. -/
theorem exhibits_session (settings : Settings) {output : Sink} (errors : Sink)
    (reliable : output.Reliable) (sources : List String) :
    (sources.foldl (fun (m : Machine) source => (m.interpret source).2)
      (Machine.create settings output errors)).Exhibits
        (sources.foldl (World.next settings.stackMax) ⟨fun _ => none, []⟩) := by
  rw [← Machine.world_create settings output errors]
  have idle : (Machine.create settings output errors).Idle settings.stackMax :=
    Machine.idle_create settings reliable
  generalize Machine.create settings output errors = m at idle ⊢
  induction sources generalizing m with
  | nil => exact idle.sound.exhibits
  | cons source others ih =>
    obtain ⟨later, world⟩ := idle.interpret source
    rw [List.foldl_cons, List.foldl_cons, ← world]
    exact ih _ later

/-- What is defined by one source is there for the next, also if that ends with a fault. -/
example : (["var a = 1;", "print a; a = nil + 2;", "print a;"].foldl (World.next 256)
    ⟨fun _ => none, []⟩).output = "1\n1\n".toUTF8.toList := by
  decide +kernel

/-- **An accepted source does what its tree means,** in the world that the session has
left behind. -/
theorem interpret_agrees_with_eval {source : String} {chunk : Chunk} (reliable : output.Reliable)
    (reached : Reached settings output errors m)
    (accepted : (compile source m.pool).1 = .ok chunk) :
    ∃ p : Program, p.Derives (.scan source.toList) ∧
      (∀ q : Program, q.Derives (.scan source.toList) → q = p) ∧
      match (p.eval settings.stackMax).run m.world with
      | .ok _ w => ∃ after, m.interpret source = (.ok, after) ∧ after.world = w ∧ after.Exhibits w
      | .error fault w => ∃ (before : Machine) (line : Nat),
        m.interpret source = (.runtimeError, before.abort fault line) ∧
          (before.abort fault line).world = w ∧ (before.abort fault line).Exhibits w := by
  have compiled : compile source m.pool = (.ok chunk, (compile source m.pool).2) :=
    Prod.ext accepted rfl
  obtain ⟨p, derives, -, rfl, -, -⟩ := compile_eq_ok compiled
  refine ⟨_, derives, fun q other => derives.unique other, ?_⟩
  have answers := Machine.answers_interpret (reached.idle reliable) compiled
  rw [EStateM.run]
  generalize m.interpret source = answer,
    (ParsedSource.ofSource source).program.eval settings.stackMax m.world = result at answers
  cases answers with
  | ok idle => exact ⟨_, rfl, rfl, idle.sound.exhibits⟩
  | runtimeError idle => exact ⟨_, _, rfl, rfl, idle.sound.exhibits⟩

/-- The second source of a session uses what the first has defined. -/
theorem interpret_agrees_with_eval_second :
    let m := ((Machine.create ⟨256, false⟩ .unlimited .unlimited).interpret "var a = 1;").2
    Sink.unlimited.Reliable ∧ Reached ⟨256, false⟩ .unlimited .unlimited m ∧
      (∃ chunk, (compile "print a + 2;" m.pool).1 = .ok chunk) ∧
      ∃ p : Program, p.Derives (.scan "print a + 2;".toList) ∧
        (∀ q : Program, q.Derives (.scan "print a + 2;".toList) → q = p) ∧
        match (p.eval 256).run m.world with
        | .ok _ w => ∃ after,
          m.interpret "print a + 2;" = (.ok, after) ∧ after.world = w ∧ after.Exhibits w
        | .error fault w => ∃ (before : Machine) (line : Nat),
          m.interpret "print a + 2;" = (.runtimeError, before.abort fault line) ∧
            (before.abort fault line).world = w ∧ (before.abort fault line).Exhibits w := by
  intro m
  have reliable : Sink.unlimited.Reliable := ⟨fun _ _ => rfl, fun _ => rfl⟩
  have reached : Reached ⟨256, false⟩ .unlimited .unlimited m := .interpret "var a = 1;" .create
  have accepted : (compile "print a + 2;" m.pool).1 = .ok _ :=
    compile_eq_ok_iff.2 ⟨by decide +kernel, rfl⟩
  exact ⟨reliable, reached, ⟨_, accepted⟩, interpret_agrees_with_eval reliable reached accepted⟩

end StackScript
