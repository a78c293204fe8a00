/-
# What a source reports

A source reports lines: its diagnostics if it is faulty, the fault of its run if that fails,
and none otherwise (`Machine.complaints`). They are written to the error stream, as far as
that accepts them: of a line it takes the text and the line end, the text only, or nothing
(`Sink.writeLine`). Nothing else that a source does touches the error stream or the
settings of the machine (`Machine.reports_interpret`).
-/
import StackScript.Proofs.Machine.Frame

namespace StackScript

/-! ## Lines -/

/-- Writes a line to a sink: a text and then a line end, up to the first that is refused.
Answers the bytes that were accepted. -/
def Sink.writeLine (s : Sink) (text : String) : List UInt8 × Sink :=
  let (refusal, after) := s.write text
  if refusal.isNone then
    let (refusal, last) := after.write "\n"
    (Utf8.encode text.toList ++ if refusal.isNone then Utf8.encode ['\n'] else [], last)
  else ([], after)

/-- Writes some lines to a sink. -/
def Sink.writeLines (s : Sink) : List String → List UInt8 × Sink
  | [] => ([], s)
  | text :: others =>
    let (taken, after) := s.writeLine text
    let (more, last) := after.writeLines others
    (taken ++ more, last)

/-- A line with its end, in bytes. -/
def lineBytes (text : String) : List UInt8 :=
  Utf8.encode (text.toList ++ ['\n'])

/-- What a sink accepts does not depend on what it was offered. -/
@[simp] theorem Sink.accepts_write (s : Sink) (text : String) :
    (s.write text).2.accepts = s.accepts := by
  unfold write
  split <;> rfl

/-- Writing a line does not change what a sink accepts. -/
@[simp] theorem Sink.accepts_writeLine (s : Sink) (text : String) :
    (s.writeLine text).2.accepts = s.accepts := by
  unfold writeLine
  dsimp only
  split <;> simp

/-- Writing lines does not change what a sink accepts. -/
@[simp] theorem Sink.accepts_writeLines (s : Sink) (lines : List String) :
    (s.writeLines lines).2.accepts = s.accepts := by
  induction lines generalizing s with
  | nil => rfl
  | cons text others ih => rw [writeLines, ih, accepts_writeLine]

/-- A sink that accepts every text. -/
def Sink.AcceptsAll (s : Sink) : Prop :=
  ∀ offered text, s.accepts offered text = true

/-- A sink of which what it accepts does not depend on what it was offered before. -/
def Sink.Steady (s : Sink) : Prop :=
  ∀ offered offered' text, s.accepts offered text = s.accepts offered' text

/-- A sink that accepts all does so whatever it was offered. -/
theorem Sink.AcceptsAll.steady {s : Sink} (accepting : s.AcceptsAll) : s.Steady :=
  fun _ _ _ => (accepting ..).trans (accepting ..).symm

/-- A sink that accepts all refuses no text. -/
theorem Sink.AcceptsAll.write {s : Sink} (accepting : s.AcceptsAll) (text : String) :
    (s.write text).1 = none := by
  unfold Sink.write
  split
  · rfl
  · exact Option.isNone_iff_eq_none.1 (accepting ..)

/-- Whether a sink accepts all is a matter of what it accepts. -/
theorem Sink.AcceptsAll.of_eq {s t : Sink} (accepting : s.AcceptsAll)
    (same : t.accepts = s.accepts) : t.AcceptsAll := by
  rwa [AcceptsAll, same]

/-- A sink that accepts everything takes a line whole. -/
theorem Sink.AcceptsAll.writeLine {s : Sink} (accepting : s.AcceptsAll) (text : String) :
    (s.writeLine text).1 = lineBytes text := by
  have ended := (accepting.of_eq (s.accepts_write text)).write "\n"
  simp only [Sink.writeLine, accepting.write text, ended, Option.isNone_none, if_true, lineBytes,
    Utf8.encode_append]

/-- A sink that accepts all takes every line. -/
theorem Sink.AcceptsAll.writeLines {s : Sink} (accepting : s.AcceptsAll) (lines : List String) :
    (s.writeLines lines).1 = lines.flatMap lineBytes := by
  induction lines generalizing s with
  | nil => rfl
  | cons text others ih =>
    rw [Sink.writeLines, List.flatMap_cons, ← accepting.writeLine,
      ← ih (accepting.of_eq (s.accepts_writeLine text))]

namespace Sink.Steady

variable {s t : Sink}

/-- Whether a sink is steady is a matter of what it accepts. -/
theorem of_eq (steady : s.Steady) (same : t.accepts = s.accepts) : t.Steady := by
  rwa [Steady, same]

/-- A steady sink accepts a text whenever it would have accepted it. -/
theorem write (steady : s.Steady) (same : t.accepts = s.accepts) (text : String) :
    (t.write text).1.isNone = (s.write text).1.isNone := by
  unfold Sink.write
  split
  · rfl
  · show t.accepts t.offered text = s.accepts s.offered text
    rw [same]
    exact steady ..

/-- A steady sink takes the same of a line whenever it is offered. -/
theorem writeLine (steady : s.Steady) (same : t.accepts = s.accepts) (text : String) :
    (t.writeLine text).1 = (s.writeLine text).1 := by
  have first := steady.write same text
  have second := (steady.of_eq (s.accepts_write text)).write (t := (t.write text).2)
    (by rw [accepts_write, accepts_write, same]) "\n"
  unfold Sink.writeLine
  dsimp only
  rw [first]
  split
  · rw [second]
  · rfl

/-- A steady sink takes the same lines whenever they are offered. -/
theorem writeLines (steady : s.Steady) (same : t.accepts = s.accepts) (lines : List String) :
    (t.writeLines lines).1 = (s.writeLines lines).1 := by
  induction lines generalizing s t with
  | nil => rfl
  | cons text others ih =>
    rw [Sink.writeLines, Sink.writeLines]
    dsimp only
    rw [steady.writeLine same, ih (steady.of_eq (s.accepts_writeLine text))
      (by rw [accepts_writeLine, accepts_writeLine, same])]

end Sink.Steady

/-- Some lines and then others. -/
theorem Sink.writeLines_append (s : Sink) (lines others : List String) :
    s.writeLines (lines ++ others) =
      ((s.writeLines lines).1 ++ ((s.writeLines lines).2.writeLines others).1,
        ((s.writeLines lines).2.writeLines others).2) := by
  induction lines generalizing s with
  | nil => rfl
  | cons text lines ih =>
    simp only [List.cons_append, writeLines, ih, List.append_assoc]

namespace Machine

/-- A text is offered to the error stream. -/
theorem errors_report (m : Machine) (text : String) :
    (m.report text).2.errors = (m.errors.write text).2 := by
  unfold report
  dsimp only
  split <;> rfl

/-- An accepted text is reported behind the others, and a refused one is not. -/
theorem reported_report (m : Machine) (text : String) :
    (m.report text).2.reported =
      m.reported ++ if (m.report text).1.isNone then Utf8.encode text.toList else [] := by
  unfold report
  dsimp only
  split
  · exact reported_note ..
  · exact (List.append_nil _).symm

/-- **A line is reported as far as the error stream accepts it.** -/
theorem reportLine_eq (m : Machine) (text : String) :
    (m.reportLine text).errors = (m.errors.writeLine text).2 ∧
      (m.reportLine text).reported = m.reported ++ (m.errors.writeLine text).1 := by
  have logged (m : Machine) (level : Log.Level) (part : Log.Part) (message : String) :
      (m.log level part message).errors = m.errors ∧
        (m.log level part message).reported = m.reported :=
    ⟨rfl, by rw [log, reported_note, Event.reportedBytes, List.append_nil]⟩
  have first : (m.report text).1 = (m.errors.write text).1 := rfl
  have second : ((m.report text).2.report "\n").1 = ((m.errors.write text).2.write "\n").1 := by
    rw [← errors_report]
    rfl
  have written := m.reported_report text
  have ended := (m.report text).2.reported_report "\n"
  rw [first] at written
  rw [second] at ended
  unfold reportLine Sink.writeLine
  dsimp only
  rw [first]
  cases refusal : (m.errors.write text).1 with
  | none =>
    rw [if_pos Option.isNone_none, if_pos Option.isNone_none, second]
    rw [refusal, if_pos Option.isNone_none] at written
    rw [written] at ended
    cases refusal' : ((m.errors.write text).2.write "\n").1 with
    | none =>
      refine ⟨by rw [errors_report, errors_report], ended.trans ?_⟩
      rw [refusal', List.append_assoc]
      rfl
    | some why =>
      refine ⟨(logged ..).1.trans (by rw [errors_report, errors_report]),
        (logged ..).2.trans (ended.trans ?_)⟩
      rw [refusal', List.append_assoc]
      rfl
  | some why =>
    rw [refusal] at written
    exact ⟨(logged ..).1.trans (errors_report ..), (logged ..).2.trans written⟩

/-- Reporting a text leaves the settings. -/
theorem settings_report (m : Machine) (text : String) :
    (m.report text).2.settings = m.settings := by
  unfold report
  dsimp only
  split <;> rfl

/-- Reporting a line leaves the settings. -/
theorem settings_reportLine (m : Machine) (text : String) :
    (m.reportLine text).settings = m.settings := by
  unfold reportLine
  dsimp only
  split <;> split
  · exact (settings_report ..).trans (settings_report ..)
  · exact settings_report ..
  · exact (settings_report ..).trans (settings_report ..)
  · exact settings_report ..

/-! ## Sources -/

/-- Some lines were written to the error stream; no setting has changed. -/
structure Reports (m : Machine) (lines : List String) (after : Machine) : Prop where
  settings : after.settings = m.settings
  errors : after.errors = (m.errors.writeLines lines).2
  reported : after.reported = m.reported ++ (m.errors.writeLines lines).1

variable {m after : Machine}

/-- Lines that are reported in turn are reported together. -/
theorem Reports.trans {a b c : Machine} {lines others : List String} (h₁ : a.Reports lines b)
    (h₂ : b.Reports others c) : a.Reports (lines ++ others) c where
  settings := h₂.settings.trans h₁.settings
  errors := by rw [h₂.errors, h₁.errors, Sink.writeLines_append]
  reported := by rw [h₂.reported, h₁.reported, h₁.errors, Sink.writeLines_append, List.append_assoc]

/-- Where a machine only proceeds, nothing is reported. -/
theorem Proceeds.reports (proceeds : m.Proceeds after) : m.Reports [] after :=
  ⟨proceeds.settings, proceeds.errors, proceeds.reported.trans (List.append_nil _).symm⟩

/-- Logging reports nothing. -/
theorem reports_log (m : Machine) (level : Log.Level) (part : Log.Part) (message : String) :
    m.Reports [] (m.log level part message) :=
  (m.proceeds_note rfl).reports

/-- A line is reported, as far as the error stream takes it. -/
theorem reports_reportLine (m : Machine) (text : String) :
    m.Reports [text] (m.reportLine text) := by
  obtain ⟨errors, reported⟩ := m.reportLine_eq text
  refine ⟨settings_reportLine .., errors, ?_⟩
  rw [reported, Sink.writeLines]
  exact congrArg (m.reported ++ ·) (List.append_nil _).symm

/-- Every diagnostic is reported on a line of its own. -/
theorem reports_reject (m : Machine) (diagnostics : List Diagnostic) :
    m.Reports (diagnostics.map (·.text)) (m.reject diagnostics) := by
  have each (m : Machine) : m.Reports (diagnostics.map (·.text))
      (diagnostics.foldl (fun m d => m.reportLine d.text) m) := by
    induction diagnostics generalizing m with
    | nil => exact (Proceeds.refl m).reports
    | cons d others ih => exact (m.reports_reportLine d.text).trans (ih _)
  exact (reports_log ..).trans (each _)

/-- The result of a run that ends like this. -/
def Ending.result : Ending → RunResult
  | finished => .ok
  | failed _ _ => .runtimeError

/-- The lines that are reported when a run ends like this. -/
def Ending.complaints : Ending → List String
  | finished => []
  | failed fault line => [faultText fault line]

/-- The machine after a run that has ended like this. -/
def concluded (m : Machine) : Ending → Machine
  | .finished => m.log .debug .machine s!"run finished, {m.globals.size} globals defined"
  | .failed fault line => m.abort fault line

/-- A chunk is run from its beginning, and answered with how the run ends. -/
theorem interpretChunk_eq (m : Machine) (chunk : Chunk) :
    m.interpretChunk chunk =
      (((m.begun chunk).run chunk).1.result,
        ((m.begun chunk).run chunk).2.concluded ((m.begun chunk).run chunk).1) := by
  cases run : (m.begun chunk).run chunk with
  | mk ending after =>
    cases ending with
    | finished => exact interpretChunk_of_finished run
    | failed fault line => exact interpretChunk_of_failed run

/-- A run that fails reports its fault, and one that finishes reports nothing. -/
theorem reports_concluded (m : Machine) (ending : Ending) :
    m.Reports ending.complaints (m.concluded ending) := by
  cases ending with
  | finished => exact reports_log ..
  | failed fault line =>
    have reported := (m.reports_log .debug .machine
      s!"runtime error at line {line}: {fault.message}").trans
        (reports_reportLine _ (faultText fault line))
    exact ⟨reported.settings, reported.errors, reported.reported⟩

/-- A chunk reports the end of its run. -/
theorem reports_interpretChunk (m : Machine) (chunk : Chunk) :
    m.Reports ((m.begun chunk).run chunk).1.complaints (m.interpretChunk chunk).2 := by
  have begun := reports_log m .debug .machine s!"running chunk: {chunk.size} bytes"
  have ran := begun.trans (proceeds_run (m.begun chunk) chunk).reports
  rw [interpretChunk_eq]
  exact ran.trans (reports_concluded ..)

/-- The lines that a source reports. -/
def complaints (m : Machine) (source : String) : List String :=
  match m.compile source with
  | (.ok chunk, m) => ((m.begun chunk).run chunk).1.complaints
  | (.error diagnostics, _) => diagnostics.map (·.text)

/-- Compiling reports nothing. -/
theorem reports_compile (m : Machine) (source : String) : m.Reports [] (m.compile source).2 := by
  unfold compile
  split
  · exact ⟨rfl, rfl, (List.append_nil _).symm⟩
  · exact ⟨rfl, rfl, (reports_log ..).reported⟩

/-- **A source reports its complaints** and nothing else. -/
theorem reports_interpret (m : Machine) (source : String) :
    m.Reports (m.complaints source) (m.interpret source).2 := by
  have compiled := m.reports_compile source
  match eq : m.compile source with
  | (.ok chunk, start) =>
    rw [eq] at compiled
    rw [interpret, complaints, eq]
    exact compiled.trans (start.reports_interpretChunk chunk)
  | (.error diagnostics, start) =>
    rw [eq] at compiled
    rw [interpret, complaints, eq]
    exact compiled.trans (start.reports_reject diagnostics)

end Machine
end StackScript
