/-
# Looking on changes nothing

A session can be looked at in several ways:

| to be seen | set by |
| --- | --- |
| every instruction, with the stack before it | settings |
| some of the log records | logger |
| diagnostics and faults | error stream, which may refuse any text |
| the code before it runs | command line |

No program notices. A session does one action after the other (`Machine.act`), and a snapshot
after each has all that is seen of the machine (`Machine.snapshots`). The snapshots are the
same for any settings and error stream, and whichever log records are shown, and a source that
is listed before it runs does what it does unlisted (`Machine.Quiet.snapshots`,
`Machine.discloses_execute`).
-/
import StackScript.CommandLine
import StackScript.Proofs.Machine.Lockstep

namespace StackScript

/-- Something that a session can be asked to do. -/
inductive Action where
  | source (text : String)
  | chunk (chunk : Chunk)
  | intern (bytes : List UInt8)
  | freeStrings

/-- What is answered to an action. -/
inductive Answer where
  | result (result : RunResult)
  | handle (h : Handle)
  | done

/-- What is seen of a session after an action. -/
structure Snapshot where
  answer : Answer
  printed : List UInt8
  stack : Stack
  globals : Globals
  pool : StringPool

/-- Whether an event is shown. Only log records may be hidden. -/
def Event.isShown (shows : Log.Record → Bool) : Event → Bool
  | logged r => shows r
  | printed _ | reported _ => true

namespace Machine

/-- Does an action. -/
def act (m : Machine) : Action → Answer × Machine
  | .source text =>
    let (result, m) := m.interpret text
    (.result result, m)
  | .chunk chunk =>
    let (result, m) := m.interpretChunk chunk
    (.result result, m)
  | .intern bytes =>
    let (h, m) := m.intern bytes
    (.handle h, m)
  | .freeStrings => (.done, m.freeStrings)

/-- The machine without the log records that are not shown. -/
def filtered (m : Machine) (shows : Log.Record → Bool) : Machine :=
  { m with transcript := m.transcript.filter (Event.isShown shows) }

/-- Does some actions in turn, showing some of the log records. Answers what is seen after each. -/
def snapshots (shows : Log.Record → Bool) : List Action → Machine → List Snapshot
  | [], _ => []
  | action :: others, m =>
    let (answer, after) := m.act action
    let shown := after.filtered shows
    ⟨answer, shown.printed, shown.stack, shown.globals, shown.pool⟩ ::
      snapshots shows others shown

variable {m m' : Machine}

/-! ## Actions -/

/-- Hiding log records is not seen. -/
theorem quiet_filtered (m : Machine) (shows : Log.Record → Bool) : m.Quiet (m.filtered shows) := by
  refine ⟨rfl, rfl, rfl, rfl, ?_⟩
  rw [printed, printed, filtered, Array.toList_filter]
  induction m.transcript.toList with
  | nil => rfl
  | cons event events ih =>
    rw [List.filter_cons, List.flatMap_cons]
    split
    · rw [List.flatMap_cons, ih]
    · rename_i hidden
      -- only a log record is hidden, which prints nothing
      cases event with
      | printed text | reported text => exact absurd rfl hidden
      | logged r => exact ih

/-- Settings and error stream are not seen. -/
theorem quiet_configured (m : Machine) (settings : Settings) (errors : Sink) :
    m.Quiet { m with settings, errors } :=
  ⟨rfl, rfl, rfl, rfl, rfl⟩

/-- Freed strings are free in both machines. -/
theorem Quiet.freeStrings (quiet : m.Quiet m') : m.freeStrings.Quiet m'.freeStrings := by
  have freed := quiet.withPool .empty
  unfold Machine.freeStrings
  dsimp only
  rw [quiet.pool]
  split
  · exact freed
  · exact freed.sides (quiet_log ..) (quiet_log ..)

/-- **An action is answered by what is seen,** and changes what is seen accordingly. -/
theorem Quiet.act (quiet : m.Quiet m') (action : Action) :
    (m'.act action).1 = (m.act action).1 ∧ (m.act action).2.Quiet (m'.act action).2 := by
  cases action with
  | source text =>
    have compiled : Compiled Eq (StackScript.compile text m.pool)
        (StackScript.compile text m'.pool) := quiet.pool ▸ .refl (fun _ => rfl) _
    obtain ⟨result, after⟩ := quiet.interpret rfl compiled
    exact ⟨congrArg Answer.result result, after⟩
  | chunk chunk =>
    obtain ⟨result, after⟩ := quiet.interpretChunk (.refl Eq (fun _ => rfl) chunk) rfl
    exact ⟨congrArg Answer.result result, after⟩
  | intern bytes =>
    rw [Machine.act, Machine.act, Machine.intern, Machine.intern, quiet.pool]
    exact ⟨rfl, quiet.withPool _⟩
  | freeStrings => exact ⟨rfl, quiet.freeStrings⟩

/-- **Sessions that start from what looks the same look the same,** whatever log records they
show. -/
theorem Quiet.snapshots (quiet : m.Quiet m') (shows shows' : Log.Record → Bool)
    (actions : List Action) :
    Machine.snapshots shows' actions m' = Machine.snapshots shows actions m := by
  induction actions generalizing m m' with
  | nil => rfl
  | cons action others ih =>
    obtain ⟨answer, after⟩ := quiet.act action
    have shown := after.sides (quiet_filtered _ shows) (quiet_filtered _ shows')
    rw [Machine.snapshots, Machine.snapshots]
    dsimp only
    rw [answer, ih shown, shown.printed, shown.stack, shown.globals, shown.pool]

/-! ## Listings -/

/-- A reported text is not part of what a machine does. -/
theorem quiet_note_reported (m : Machine) (text : String) : m.Quiet (m.note (.reported text)) := by
  refine ⟨rfl, rfl, rfl, rfl, ?_⟩
  rw [printed_note, Event.bytes, List.append_nil]

/-- Endings on the same lines are the same. -/
theorem Ending.Resembles.eq {ending ending' : Ending} (same : ending.Resembles Eq ending') :
    ending = ending' := by
  cases same with
  | finished => rfl
  | failed fault line => rw [line]

/-- What is left of a source that is listed under a title before it runs, beside what is left
of it alone. -/
structure Discloses (m : Machine) (source title : String) : Prop where
  result : (CommandLine.execute m source title true).1 = (m.interpret source).1
  quiet : (m.interpret source).2.Quiet (CommandLine.execute m source title true).2
  /-- An accepted source is listed and then reports what it reports alone. The diagnostics of
  a refused one are shown whole, whatever the error stream accepts of them. -/
  reported :
    match m.compile source with
    | (.ok chunk, compiled) =>
      (CommandLine.execute m source title true).2.errors = (m.interpret source).2.errors ∧
        ∃ said, (m.interpret source).2.reported = m.reported ++ said ∧
          (CommandLine.execute m source title true).2.reported =
            m.reported ++ Utf8.encode (chunk.listing compiled.pool title).toList ++ said
    | (.error diagnostics, _) =>
      (CommandLine.execute m source title true).2.reported =
          m.reported ++ (diagnostics.map (·.text)).flatMap lineBytes ∧
        (m.interpret source).2.reported =
          m.reported ++ (m.errors.writeLines (diagnostics.map (·.text))).1

/-- Showing diagnostics adds their lines to what was reported. -/
theorem reported_foldl_note (m : Machine) (diagnostics : List Diagnostic) :
    m.Quiet (diagnostics.foldl (fun m d => m.note (.reported (d.text ++ "\n"))) m) ∧
      (diagnostics.foldl (fun m d => m.note (.reported (d.text ++ "\n"))) m).reported =
        m.reported ++ (diagnostics.map (·.text)).flatMap lineBytes := by
  induction diagnostics generalizing m with
  | nil => exact ⟨.refl m, (List.append_nil _).symm⟩
  | cons d others ih =>
    obtain ⟨quiet, reported⟩ := ih (m.note (.reported (d.text ++ "\n")))
    refine ⟨(m.quiet_note_reported _).trans quiet, ?_⟩
    rw [List.foldl_cons, reported, reported_note, List.map_cons, List.flatMap_cons,
      List.append_assoc, Event.reportedBytes, String.toList_append]
    rfl

/-- **Listing a source before it runs changes nothing else.** -/
theorem discloses_execute (m : Machine) (source title : String) : m.Discloses source title := by
  have compiled := m.reports_compile source
  have unreported : (m.compile source).2.reported = m.reported := by
    rw [compiled.reported]
    exact List.append_nil _
  match eq : m.compile source with
  | (.ok chunk, start) =>
    have listed := start.quiet_note_reported (chunk.listing start.pool title)
    have alike := Chunk.Resembles.refl Eq (fun _ => rfl) chunk
    obtain ⟨result, after⟩ := listed.interpretChunk alike rfl
    have ending := ((listed.begun chunk chunk).run alike rfl).1.eq
    have plain := start.reports_interpretChunk chunk
    have shown := reports_interpretChunk (start.note (.reported (chunk.listing start.pool title)))
      chunk
    rw [eq] at unreported
    rw [← ending] at shown
    constructor
    · rw [CommandLine.execute, interpret, eq]
      exact result
    · rw [CommandLine.execute, interpret, eq]
      exact after
    · rw [eq, CommandLine.execute, interpret, eq]
      refine ⟨shown.errors.trans plain.errors.symm, ?_⟩
      refine ⟨(start.errors.writeLines ((start.begun chunk).run chunk).1.complaints).1, ?_, ?_⟩
      · rw [← unreported]
        exact plain.reported
      · rw [← unreported]
        refine shown.reported.trans ?_
        rw [reported_note]
        rfl
  | (.error diagnostics, start) =>
    obtain ⟨quiet, reported⟩ := start.reported_foldl_note diagnostics
    have plain := start.reports_reject diagnostics
    have errors := compiled.errors
    rw [eq] at unreported errors
    constructor
    · rw [CommandLine.execute, interpret, eq]
      rfl
    · rw [CommandLine.execute, interpret, eq]
      exact (start.quiet_reject diagnostics).symm.trans quiet
    · rw [eq, CommandLine.execute, interpret, eq]
      refine ⟨reported.trans ?_, plain.reported.trans ?_⟩
      · rw [unreported]
      · rw [unreported, errors]
        rfl

/-- **Looking on changes nothing.** -/
theorem observation_changes_nothing (m : Machine) :
    (∀ (actions : List Action) (settings settings' : Settings) (errors errors' : Sink)
      (shows shows' : Log.Record → Bool),
      snapshots shows' actions { m with settings := settings', errors := errors' } =
        snapshots shows actions { m with settings, errors }) ∧
      ∀ source title, m.Discloses source title := by
  constructor
  · intro actions settings settings' errors errors' shows shows'
    have left := m.quiet_configured settings errors
    have right := m.quiet_configured settings' errors'
    exact (left.symm.trans right).snapshots shows shows' actions
  · exact m.discloses_execute

end Machine
end StackScript
