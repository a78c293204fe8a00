/-
# Reformatting

Two sources that have the same tokens on other lines, with other blanks and comments between them,
do the same (`Reformatted.compiled`, `Machine.Quiet.interpret`): both are refused or neither, they
leave the same strings, and run to the same end with the same output, stack and globals.

Only lines differ, and they come to light in one place only: in the diagnostics and faults that
are reported, as the number in `[line 3]`. A text is relined if it differs in such a number.
So an error stream takes the same part of both reports, unless it is one that looks at line
numbers (`Sink.Blind`).
-/
import StackScript.Proofs.Machine.Lockstep

namespace StackScript

variable {L : Nat → Nat → Prop}

/-! ## Code -/

/-- The same instruction, on lines that are related. -/
structure TracedInstruction.Resembles (L : Nat → Nat → Prop) (i j : TracedInstruction) : Prop where
  instruction : j.instruction = i.instruction
  line : L i.line j.line

/-- The same code, on lines that are related. -/
abbrev CodeResembles (L : Nat → Nat → Prop) :
    List TracedInstruction → List TracedInstruction → Prop :=
  List.Forall₂ (TracedInstruction.Resembles L)

/-- The bytes of an instruction are the same, on related lines. -/
theorem TracedInstruction.Resembles.bytes {i j : TracedInstruction} (alike : i.Resembles L j) :
    List.Forall₂ (CodeByte.Resembles L) i.bytes j.bytes := by
  rw [TracedInstruction.bytes, TracedInstruction.bytes, alike.instruction]
  rw [List.forall₂_map_left_iff, List.forall₂_map_right_iff, List.forall₂_same]
  exact fun _ _ => ⟨rfl, alike.line⟩

namespace Expr.Resembles

variable {e e' : Expr}

/-- The constants of an expression are the same. -/
theorem constants (alike : e.Resembles L e') : e'.constants = e.constants := by
  induction alike with
  | assign name _ _ ih => exact congrArg (.text name :: ·) ih
  | group _ _ ih | unary _ _ ih => exact ih
  | binary op _ _ ihl ihr => rw [Expr.constants, ihl, ihr, Expr.constants]
  | _ => rfl

/-- The last lines of expressions are related. -/
theorem lastLine (alike : e.Resembles L e') : L e.lastLine e'.lastLine := by
  induction alike with
  | literal _ line | nil line | bool _ line | global _ line => exact line
  | group _ line => exact line
  | assign _ _ _ ih | unary _ _ ih => exact ih
  | binary _ _ _ _ ih => exact ih

/-- The same tree has the same code. -/
theorem code (alike : e.Resembles L e') (next : Nat) :
    CodeResembles L (e.code next) (e'.code next) := by
  induction alike generalizing next with
  | literal _ line | nil line | global _ line => exact .cons ⟨rfl, line⟩ .nil
  | bool b line => cases b <;> exact .cons ⟨rfl, line⟩ .nil
  | assign name _ value ih =>
    exact List.rel_append (ih (next + 1)) (.cons ⟨rfl, value.lastLine⟩ .nil)
  | group _ _ ih => exact ih next
  | unary op operand ih => exact List.rel_append (ih next) (.cons ⟨rfl, operand.lastLine⟩ .nil)
  | @binary op left left' right right' first second ihl ihr =>
    rw [Expr.code, Expr.code, first.constants]
    refine List.rel_append (List.rel_append (ihl next) (ihr _)) ?_
    rw [List.forall₂_map_left_iff, List.forall₂_map_right_iff, List.forall₂_same]
    exact fun _ _ => ⟨rfl, second.lastLine⟩

end Expr.Resembles

namespace Declaration

variable {d d' : Declaration} {ds ds' : List Declaration}

/-- The constants of a declaration are the same. -/
theorem Resembles.constants (alike : d.Resembles L d') : d'.constants = d.constants := by
  cases alike with
  | define => rfl
  | initialise name _ value _ => exact congrArg (.text name :: ·) value.constants
  | print value _ | expression value _ => exact value.constants

/-- The code of a declaration is the same, on related lines. -/
theorem Resembles.code (alike : d.Resembles L d') (next : Nat) :
    CodeResembles L (d.code next) (d'.code next) := by
  cases alike with
  | define name line last => exact .cons ⟨rfl, line⟩ (.cons ⟨rfl, last⟩ .nil)
  | initialise name _ value last =>
    exact List.rel_append (value.code (next + 1)) (.cons ⟨rfl, last⟩ .nil)
  | print value last | expression value last =>
    exact List.rel_append (value.code next) (.cons ⟨rfl, last⟩ .nil)

/-- The code of some declarations is the same, on related lines. -/
theorem resembles_codeOfList (alike : List.Forall₂ (Resembles L) ds ds') (next : Nat) :
    CodeResembles L (codeOfList next ds) (codeOfList next ds') := by
  induction alike generalizing next with
  | nil => exact .nil
  | cons first _ ih =>
    rw [codeOfList, codeOfList, first.constants]
    exact List.rel_append (first.code next) (ih _)

end Declaration

/-! ## Sources -/

/-- Sources whose tokens resemble each other compile alike. -/
theorem compiled_of_resembles {source source' : String}
    (tokens : List.Forall₂ (Token.Resembles L) (TokenStream.scan source.toList).tokens
      (TokenStream.scan source'.toList).tokens)
    (lastLine : L (TokenStream.scan source.toList).lastLine
      (TokenStream.scan source'.toList).lastLine)
    (pool : StringPool) : Compiled L (compile source pool) (compile source' pool) := by
  obtain ⟨declarations, after⟩ := (Parser.resembles_ofStream tokens lastLine).declarations
  have constants : (ParsedSource.ofSource source').constants =
      (ParsedSource.ofSource source).constants := congrArg Array.toList after.constants
  have diagnostics : List.Forall₂ (Diagnostic.Resembles L)
      (ParsedSource.ofSource source).diagnostics
      (ParsedSource.ofSource source').diagnostics := after.reports.diagnostics
  have code : List.Forall₂ (CodeByte.Resembles L)
      ((ParsedSource.ofSource source).program.code.flatMap (·.bytes))
      ((ParsedSource.ofSource source').program.code.flatMap (·.bytes)) := by
    refine List.rel_flatMap (R := TracedInstruction.Resembles L) ?_ fun _ _ => (·.bytes)
    exact List.rel_append (Declaration.resembles_codeOfList declarations 0)
      (.cons ⟨rfl, lastLine⟩ .nil)
  unfold compile
  dsimp only
  rw [constants]
  generalize (ParsedSource.ofSource source).diagnostics = ds,
    (ParsedSource.ofSource source').diagnostics = ds' at diagnostics
  cases diagnostics with
  | nil => exact .ok ⟨code, rfl⟩
  | cons first others => exact .error (.cons first others)

/-- Two sources have the same tokens, apart from their lines. -/
def Reformatted (source source' : String) : Prop :=
  (TokenStream.scan source.toList).tokens.map (fun t => (t.kind, t.lexeme)) =
    (TokenStream.scan source'.toList).tokens.map (fun t => (t.kind, t.lexeme))

instance (source source' : String) : Decidable (Reformatted source source') :=
  inferInstanceAs (Decidable (_ = _))

/-- Any two lines. -/
def AnyLines (_ _ : Nat) : Prop :=
  True

/-- Sources that differ in their format compile alike, whatever the lines. -/
theorem Reformatted.compiled {source source' : String} (same : Reformatted source source')
    (pool : StringPool) : Compiled AnyLines (compile source pool) (compile source' pool) := by
  refine compiled_of_resembles ?_ trivial pool
  have pairs := same
  rw [Reformatted, ← List.forall₂_eq_eq_eq, List.forall₂_map_left_iff,
    List.forall₂_map_right_iff] at pairs
  refine pairs.imp fun t u eq => ?_
  obtain ⟨kind, lexeme⟩ := Prod.mk.inj eq
  exact ⟨kind.symm, lexeme.symm, trivial⟩

/-! ## Reports -/

/-- A text with the number of a line in it. -/
def numbered (head : String) (line : Nat) (tail : String) : String :=
  s!"{head}[line {line}]{tail}"

/-- Two texts differ at most in the number of a line. -/
inductive Relined : String → String → Prop where
  | same (text : String) : Relined text text
  | line (head tail : String) (n n' : Nat) : Relined (numbered head n tail) (numbered head n' tail)

/-- What a diagnostic says behind the number of its line. -/
def Diagnostic.statement (d : Diagnostic) : String :=
  match d.location with
  | .token text => s!" Error at '{String.ofList text}': {d.fault.message}"
  | .finish => s!" Error at end: {d.fault.message}"
  | .unknown => s!" Error: {d.fault.message}"

/-- The text of a diagnostic is its line's number and its statement. -/
theorem Diagnostic.text_eq (d : Diagnostic) : d.text = numbered "" d.line d.statement := by
  cases location : d.location <;>
    simp [text, numbered, statement, location, toString, ← String.toList_inj]

/-- Diagnostics that differ in their lines have texts that differ in the numbers of lines. -/
theorem Diagnostic.Resembles.relined {d d' : Diagnostic} (alike : d.Resembles L d') :
    Relined d.text d'.text := by
  rw [text_eq, text_eq, statement, statement, alike.location, alike.fault]
  exact .line ..

/-- Reports of one fault differ in the number of the line. -/
theorem relined_faultText (fault : RuntimeFault) (line line' : Nat) :
    Relined (Machine.faultText fault line) (Machine.faultText fault line') := by
  have shape (line : Nat) :
      Machine.faultText fault line = numbered (fault.message ++ "\n") line " in script" := by
    simp [Machine.faultText, numbered, toString, ← String.toList_inj]
  rw [shape, shape]
  exact .line ..

/-- A text is empty with every number of a line, or with none. -/
theorem Relined.isEmpty_eq {text text' : String} (relined : Relined text text') :
    text'.isEmpty = text.isEmpty := by
  have shown (head tail : String) (n : Nat) : (numbered head n tail).isEmpty = false := by
    rw [← Bool.not_eq_true, String.isEmpty_iff, ← String.toList_inj]
    simp [numbered, toString]
  cases relined with
  | same => rfl
  | line head tail n n' => rw [shown, shown]

/-- The number of a line has no line end. -/
theorem Relined.count_eq {text text' : String} (relined : Relined text text') :
    text'.toList.count '\n' = text.toList.count '\n' := by
  have digits (n : Nat) : (Nat.toDigits 10 n).count '\n' = 0 := by
    refine List.count_eq_zero.2 fun mem => ?_
    have digit := Nat.isDigit_of_mem_toDigits (by decide) (by decide) mem
    exact absurd digit (by decide)
  cases relined with
  | same => rfl
  | line head tail n n' => simp [numbered, digits]

namespace Sink

/-- A sink that does not look at the numbers of lines. -/
def Blind (s : Sink) : Prop :=
  ∀ offered offered' text text', List.Forall₂ Relined offered offered' → Relined text text' →
    s.accepts offered' text' = s.accepts offered text

/-- Two sinks were offered texts that differ at most in numbers of lines. -/
structure Resembles (s s' : Sink) : Prop where
  accepts : s'.accepts = s.accepts
  offered : List.Forall₂ Relined s.offered s'.offered

/-- What was accepted differs at most in numbers of lines. -/
def BothTook (taken taken' : List UInt8) : Prop :=
  ∃ texts texts' : List String, List.Forall₂ Relined texts texts' ∧
    taken = texts.flatMap (Utf8.encode ·.toList) ∧ taken' = texts'.flatMap (Utf8.encode ·.toList)

/-- A sink that accepts all is blind to the numbers of lines. -/
theorem AcceptsAll.blind {s : Sink} (accepting : s.AcceptsAll) : s.Blind :=
  fun _ _ _ _ _ _ => (accepting ..).trans (accepting ..).symm

/-- A sink that accepts so many lines does not look at their numbers. -/
theorem blind_limited (lines : Nat) (why : String) : (limited lines why).Blind := by
  intro offered offered' text text' relined _
  have left : linesLeft lines offered' = linesLeft lines offered := by
    induction relined with
    | nil => rfl
    | cons first _ ih => rw [linesLeft, linesLeft, ih, first.count_eq]
  rw [accepts, accepts, limited]
  dsimp only
  rw [left]

/-- A sink resembles itself. -/
theorem Resembles.refl (s : Sink) : s.Resembles s :=
  ⟨rfl, List.forall₂_same.2 fun text _ => .same text⟩

/-- Bytes that differ in the numbers of lines can be followed by such bytes. -/
theorem BothTook.append {a a' b b' : List UInt8} (first : BothTook a a') (second : BothTook b b') :
    BothTook (a ++ b) (a' ++ b') := by
  obtain ⟨texts, texts', relined, rfl, rfl⟩ := first
  obtain ⟨more, more', relined', rfl, rfl⟩ := second
  refine ⟨texts ++ more, texts' ++ more', List.rel_append relined relined', ?_, ?_⟩
  · rw [List.flatMap_append]
  · rw [List.flatMap_append]

/-- No bytes differ in no numbers. -/
theorem BothTook.nothing : BothTook [] [] :=
  ⟨[], [], .nil, rfl, rfl⟩

/-- Texts that differ in the number of a line have bytes that do. -/
theorem BothTook.single {text text' : String} (relined : Relined text text') :
    BothTook (Utf8.encode text.toList) (Utf8.encode text'.toList) :=
  ⟨[text], [text'], .cons relined .nil, (List.append_nil _).symm, (List.append_nil _).symm⟩

variable {s s' : Sink}

/-- Whether a sink is blind is a matter of what it accepts. -/
theorem Blind.of_eq (blind : s.Blind) (same : s'.accepts = s.accepts) : s'.Blind := by
  rwa [Blind, same]

/-- A blind sink accepts both texts or neither. -/
theorem Blind.write (blind : s.Blind) (alike : s.Resembles s') {text text' : String}
    (relined : Relined text text') :
    (s'.write text').1.isNone = (s.write text).1.isNone ∧
      (s.write text).2.Resembles (s'.write text').2 := by
  unfold Sink.write
  rw [relined.isEmpty_eq]
  split
  · exact ⟨rfl, alike⟩
  · have accepted : s'.accepts s'.offered text' = s.accepts s.offered text := by
      rw [alike.accepts]
      exact blind _ _ _ _ alike.offered relined
    exact ⟨accepted, alike.accepts, .cons relined alike.offered⟩

/-- A blind sink takes the same part of a line, whatever its number. -/
theorem Blind.writeLine (blind : s.Blind) (alike : s.Resembles s') {text text' : String}
    (relined : Relined text text') :
    BothTook (s.writeLine text).1 (s'.writeLine text').1 ∧
      (s.writeLine text).2.Resembles (s'.writeLine text').2 := by
  obtain ⟨accepted, after⟩ := blind.write alike relined
  obtain ⟨ended, last⟩ := (blind.of_eq (s.accepts_write text)).write after (.same "\n")
  unfold Sink.writeLine
  dsimp only
  rw [accepted, ended]
  split
  · refine ⟨(BothTook.single relined).append ?_, last⟩
    split
    · exact .single (.same "\n")
    · exact .nothing
  · exact ⟨.nothing, after⟩

/-- **A blind sink takes the same of lines that differ in numbers.** -/
theorem Blind.writeLines (blind : s.Blind) (alike : s.Resembles s') {lines lines' : List String}
    (relined : List.Forall₂ Relined lines lines') :
    BothTook (s.writeLines lines).1 (s'.writeLines lines').1 := by
  induction relined generalizing s s' with
  | nil => exact .nothing
  | @cons text text' others others' first _ ih =>
    obtain ⟨taken, after⟩ := blind.writeLine alike first
    exact taken.append (ih (blind.of_eq (s.accepts_writeLine text)) after)

end Sink

/-! ## What reformatting changes -/

namespace Machine

variable {source source' : String} {m : Machine}

/-- Endings that differ in their lines complain alike but for the numbers. -/
theorem Ending.Resembles.relined {ending ending' : Ending} (same : ending.Resembles L ending') :
    List.Forall₂ Relined ending.complaints ending'.complaints := by
  cases same with
  | finished => exact .nil
  | failed fault _ => exact .cons (relined_faultText fault _ _) .nil

/-- Sources that compile alike complain of the same on other lines. -/
theorem relined_complaints (m : Machine) (nowhere : L 0 0)
    (alike : Compiled L (StackScript.compile source m.pool) (StackScript.compile source' m.pool)) :
    List.Forall₂ Relined (m.complaints source) (m.complaints source') := by
  unfold complaints compile
  generalize StackScript.compile source m.pool = result,
    StackScript.compile source' m.pool = result' at alike
  cases alike with
  | @ok chunk chunk' pool same =>
    have begun := (Quiet.refl { m with pool }).begun chunk chunk'
    exact (begun.run same nowhere).1.relined
  | error same =>
    rw [List.forall₂_map_left_iff, List.forall₂_map_right_iff]
    exact same.imp fun _ _ alike => alike.relined

/-- **Reformatting a source changes the numbers of lines in what it reports,** and nothing
else. -/
theorem reformatting_changes_lines_only (same : Reformatted source source') :
    (∀ pool, Compiled AnyLines (StackScript.compile source pool)
      (StackScript.compile source' pool)) ∧
    ∀ m : Machine,
      (m.interpret source').1 = (m.interpret source).1 ∧
      (m.interpret source).2.Quiet (m.interpret source').2 ∧
      List.Forall₂ Relined (m.complaints source) (m.complaints source') ∧
      m.Reports (m.complaints source) (m.interpret source).2 ∧
      m.Reports (m.complaints source') (m.interpret source').2 ∧
      (m.errors.Blind → ∃ said said', Sink.BothTook said said' ∧
        (m.interpret source).2.reported = m.reported ++ said ∧
        (m.interpret source').2.reported = m.reported ++ said') := by
  refine ⟨same.compiled, fun m => ?_⟩
  obtain ⟨result, after⟩ := (Quiet.refl m).interpret trivial (same.compiled m.pool)
  have relined := m.relined_complaints trivial (same.compiled m.pool)
  have reports := m.reports_interpret source
  have reports' := m.reports_interpret source'
  refine ⟨result, after, relined, reports, reports', fun blind => ?_⟩
  exact ⟨_, _, blind.writeLines (.refl m.errors) relined, reports.reported, reports'.reported⟩

/-- A faulty run, on one line and on three, with an error stream that accepts one line. -/
theorem reformatting_changes_lines_only_negated_nil :
    Reformatted "-nil;" "-\nnil // nothing\n;" ∧
      ∃ said said', Sink.BothTook said said' ∧
        ((create default .unlimited (.limited 1 "closed")).interpret "-nil;").2.reported =
          [] ++ said ∧
        ((create default .unlimited (.limited 1 "closed")).interpret
          "-\nnil // nothing\n;").2.reported = [] ++ said' := by
  have same : Reformatted "-nil;" "-\nnil // nothing\n;" := by decide +kernel
  obtain ⟨-, -, -, -, -, reported⟩ :=
    (reformatting_changes_lines_only same).2 (create default .unlimited (.limited 1 "closed"))
  exact ⟨same, reported (Sink.blind_limited 1 "closed")⟩

end Machine
end StackScript
