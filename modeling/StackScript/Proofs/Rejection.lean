/-
# Refused sources leave no trace

A source that the compiler refuses is not run. What it changes of a machine, whatever state
that is in:

| part of the machine | afterwards |
| --- | --- |
| stack, globals, settings, output | as before |
| strings | those of before, with more after them |
| error stream | the diagnostics, one a line |

The strings that it leaves behind are the only thing that a later source could come across,
and it cannot: the machine differs from the one of before in handles only. So the refused
sources can be deleted from a session, and nothing else in it changes
(`Machine.observations_filter`).
-/
import StackScript.Proofs.Renaming.Session

namespace StackScript

/-- Whether the compiler accepts a source. -/
def compiles (source : String) : Bool :=
  (compile source .empty).1.isOk

/-- What is in the pool does not matter for that. -/
theorem isOk_compile (source : String) (pool : StringPool) :
    (compile source pool).1.isOk = compiles source := by
  have alike := alike_compile source .empty pool
  unfold compiles
  generalize compile source .empty = answer, compile source pool = answer' at alike
  cases alike <;> rfl

/-- A source is accepted exactly if it has no diagnostics. -/
theorem compiles_iff {source : String} :
    compiles source = true ↔ (ParsedSource.ofSource source).diagnostics = [] := by
  by_cases faultless : (ParsedSource.ofSource source).diagnostics = []
  · rw [compiles, compile_of_faultless faultless]
    exact ⟨fun _ => faultless, fun _ => rfl⟩
  · rw [compiles, compile_of_faulty faultless]
    exact ⟨nofun, fun h => absurd h faultless⟩

namespace Machine

variable {m m' : Machine} {source : String}

/-- The machine at the end of a session. -/
def interpretAll (m : Machine) (sources : List String) : Machine :=
  sources.foldl (fun m source => (m.interpret source).2) m

/-- What the error stream accepts does not depend on what a source reported. -/
theorem accepts_errors_interpret (m : Machine) (source : String) :
    (m.interpret source).2.errors.accepts = m.errors.accepts := by
  rw [(m.reports_interpret source).errors, Sink.accepts_writeLines]

/-- One of two machines is given a source that is refused. -/
theorem Alike.interpret_of_refused (alike : m.Alike m') (refused : ¬ compiles source = true) :
    (m.interpret source).2.Alike m' := by
  rw [← isOk_compile source m.pool] at refused
  match compiled : StackScript.compile source m.pool with
  | (.ok chunk, pool) =>
    rw [compiled] at refused
    exact absurd rfl refused
  | (.error diagnostics, pool) =>
    obtain ⟨-, quiet⟩ := quiet_interpret_of_error compiled
    exact (alike.grow (grows_of_compile compiled) (.refl m'.pool)).quiet quiet (.refl m')

/-- Two sessions, one of them without the sources that are refused. -/
theorem Alike.interpretAll_filter (alike : m.Alike m') (sources : List String) :
    (m.interpretAll sources).Alike (m'.interpretAll (sources.filter compiles)) := by
  induction sources generalizing m m' with
  | nil => exact alike
  | cons source others ih =>
    by_cases accepted : compiles source = true
    · rw [List.filter_cons_of_pos accepted]
      exact ih (alike.interpret source).2.2
    · rw [List.filter_cons_of_neg accepted]
      exact ih (alike.interpret_of_refused accepted)

/-- Whatever part of an observation is the same on alike machines with error streams of one
kind does not depend on the sources that are refused. -/
theorem Alike.observations_filter {α : Type} {accepts : List String → String → Bool}
    {f : Observation → α}
    (agree : ∀ {m m' : Machine}, m.Alike m' → m.errors.accepts = accepts →
      m'.errors.accepts = accepts → ∀ source, f (m'.observe source) = f (m.observe source))
    (alike : m.Alike m') (same : m.errors.accepts = accepts) (same' : m'.errors.accepts = accepts)
    (sources : List String) :
    ((m.observations sources).filter (compiles ·.source)).map f =
      (m'.observations (sources.filter compiles)).map f := by
  induction sources generalizing m m' with
  | nil => rfl
  | cons source others ih =>
    have later := (m.accepts_errors_interpret source).trans same
    have later' := (m'.accepts_errors_interpret source).trans same'
    rw [observations, List.filter_cons, List.filter_cons, source_observe]
    by_cases accepted : compiles source = true
    · rw [if_pos accepted, if_pos accepted, observations, List.map_cons, List.map_cons,
        ih (alike.interpret source).2.2 later later', agree alike same same']
    · rw [if_neg accepted, if_neg accepted]
      exact ih (alike.interpret_of_refused accepted) later same'

end Machine

/-! ## Main statement -/

/-- **Refused sources leave no trace.** In any state of a machine, a source that is refused
is reported, and strings are added; nothing else happens. And deleting all such sources from
a session on a new machine changes nothing that can be seen of the others, nor any global
variable at the end. Only what an error stream accepts can depend on what it was offered
before, if it is not steady. -/
theorem refused_leave_no_trace :
    (∀ (m : Machine) (source : String) (diagnostics : List Diagnostic),
      (compile source m.pool).1 = .error diagnostics →
      ∃ after, m.interpret source = (.compileError, after) ∧
        after.stack = m.stack ∧ after.globals = m.globals ∧ after.settings = m.settings ∧
        after.output = m.output ∧ after.printed = m.printed ∧ m.pool.Grows after.pool ∧
        m.Reports (diagnostics.map (·.text)) after ∧
        (m.errors.AcceptsAll →
          after.reported = m.reported ++ (diagnostics.map (·.text)).flatMap lineBytes)) ∧
    (∀ source pool, (compile source pool).1.isOk = compiles source) ∧
    ∀ (settings : Settings) (output errors : Sink) (sources : List String),
      let m := Machine.create settings output errors
      let all := (m.observations sources).filter (compiles ·.source)
      let kept := m.observations (sources.filter compiles)
      all.map (·.apartFromErrors) = kept.map (·.apartFromErrors) ∧
        (errors.Steady → all = kept) ∧
        ∀ name, (m.interpretAll sources).globalText name =
          (m.interpretAll (sources.filter compiles)).globalText name := by
  refine ⟨fun m source diagnostics refused => ?_, isOk_compile, ?_⟩
  · have compiled : compile source m.pool = (.error diagnostics, (compile source m.pool).2) :=
      Prod.ext refused rfl
    obtain ⟨result, quiet⟩ := Machine.quiet_interpret_of_error compiled
    have reports := m.reports_interpret source
    have complaints : m.complaints source = diagnostics.map (·.text) := by
      rw [Machine.complaints, Machine.compile, compiled]
    rw [complaints] at reports
    refine ⟨_, Prod.ext result rfl, quiet.stack, quiet.globals, reports.settings, quiet.output,
      quiet.printed, quiet.pool ▸ Machine.grows_compile source m.pool, reports, fun accepting => ?_⟩
    rw [reports.reported, accepting.writeLines]
  · intro settings output errors sources
    have alike := Machine.alike_create settings output errors
    refine ⟨?_, fun steady => ?_, fun name => ?_⟩
    · exact alike.observations_filter (fun alike _ _ => alike.observe_apartFromErrors) rfl rfl _
    · have agree {m m' : Machine} (alike : m.Alike m') (same : m.errors.accepts = errors.accepts)
          (same' : m'.errors.accepts = errors.accepts) (source : String) :
          m'.observe source = m.observe source :=
        alike.observe_eq source ((steady.of_eq same).writeLines (same'.trans same.symm) _)
      have filtered := alike.observations_filter (f := id) agree rfl rfl sources
      rwa [List.map_id, List.map_id] at filtered
    · rw [(alike.interpretAll_filter sources).globalText_eq]

/-- A lone `var` is reported, and can be deleted from a session. -/
theorem refused_leave_no_trace_word :
    let m := Machine.create ⟨256, false⟩ .unlimited .unlimited
    let sources := ["var a = 1;", "var", "print a;"]
    (∃ diagnostics, (compile "var" m.pool).1 = .error diagnostics ∧ diagnostics ≠ [] ∧
      (m.interpret "var").2.reported = (diagnostics.map (·.text)).flatMap lineBytes) ∧
    sources.filter compiles = ["var a = 1;", "print a;"] ∧
    (m.observations sources).filter (compiles ·.source) =
      m.observations ["var a = 1;", "print a;"] := by
  intro m sources
  obtain ⟨refused, -, sessions⟩ := refused_leave_no_trace
  have faulty : (ParsedSource.ofSource "var").diagnostics ≠ [] := by decide +kernel
  have compiled := congrArg Prod.fst (compile_of_faulty faulty m.pool)
  have accepting : Sink.unlimited.AcceptsAll := fun _ _ => rfl
  have kept : sources.filter compiles = ["var a = 1;", "print a;"] := by decide +kernel
  refine ⟨⟨_, compiled, faulty, ?_⟩, kept, ?_⟩
  · obtain ⟨after, answer, -, -, -, -, -, -, -, reported⟩ := refused m "var" _ compiled
    rw [answer, reported accepting]
    rfl
  · rw [← kept]
    exact (sessions ⟨256, false⟩ .unlimited .unlimited sources).2.1 accepting.steady

end StackScript
