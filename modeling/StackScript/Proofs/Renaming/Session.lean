/-
# Handles cannot be seen

One source, run on two machines that differ in handles only, is answered in the same way,
reports the same and leaves two machines that differ in handles only (`Alike.interpret`).
So all that can be seen of a session (`Machine.observations`) is the same on both.

A machine whose pool was filled beforehand, with whatever strings, is one of two such
machines; the other is a new one. So is a pool that was filled, for the compiler: code,
lines, listings and diagnostics are those that an empty pool gives (`Compiled.Alike`).
-/
import StackScript.Proofs.Machine.Report
import StackScript.Proofs.Renaming.Machine
import StackScript.Proofs.Session

namespace StackScript

/-! ## Constants -/

/-- Every linked constant has a value that stands for it. -/
theorem Literal.forall₂_content?_linkAll (pool : StringPool) (literals : List Literal) :
    List.Forall₂ (fun v l => v.content? (linkAll pool literals).2 = some l.datum)
      (linkAll pool literals).1 literals := by
  induction literals generalizing pool with
  | nil => exact .nil
  | cons l others ih =>
    have grows := grows_linkAll (l.link pool).2 others
    exact .cons (Value.content?_of_grows grows (l.content?_link pool)) (ih _)

/-- The values of the same constants in two pools. -/
theorem Literal.alike_linkAll (pool pool' : StringPool) (literals : List Literal) :
    List.Forall₂ (Value.Alike (linkAll pool literals).2 (linkAll pool' literals).2)
      (linkAll pool literals).1 (linkAll pool' literals).1 := by
  have first := forall₂_content?_linkAll pool literals
  have second := forall₂_content?_linkAll pool' literals
  generalize (linkAll pool literals).1 = values, (linkAll pool' literals).1 = values',
    (linkAll pool literals).2 = pool, (linkAll pool' literals).2 = pool' at first second ⊢
  induction first generalizing values' with
  | nil =>
    cases second
    exact .nil
  | cons content _ ih =>
    obtain ⟨v', others', content', rest', rfl⟩ := List.forall₂_cons_right_iff.1 second
    exact .cons ⟨_, content, content'⟩ (ih _ rest')

/-! ## Compiling -/

/-- A faulty source is refused, whatever is in the pool. -/
theorem compile_of_faulty {source : String}
    (faulty : (ParsedSource.ofSource source).diagnostics ≠ []) (pool : StringPool) :
    compile source pool = (.error (ParsedSource.ofSource source).diagnostics,
      (Literal.linkAll pool (ParsedSource.ofSource source).constants).2) := by
  unfold compile
  dsimp only
  rw [if_neg (by simpa using faulty)]

/-- A source without faults has its code, whatever is in the pool. -/
theorem compile_of_faultless {source : String}
    (faultless : (ParsedSource.ofSource source).diagnostics = []) (pool : StringPool) :
    compile source pool =
      (.ok ((ParsedSource.ofSource source).program.chunk
        (Literal.linkAll pool (ParsedSource.ofSource source).constants).1),
      (Literal.linkAll pool (ParsedSource.ofSource source).constants).2) := by
  unfold compile
  dsimp only
  rw [faultless]
  rfl

/-- A source without diagnostics has a chunk, whatever the pool. -/
theorem exists_compile_eq_ok {source : String}
    (faultless : (ParsedSource.ofSource source).diagnostics = []) (pool : StringPool) :
    ∃ chunk after, compile source pool = (.ok chunk, after) :=
  ⟨_, _, compile_of_faultless faultless pool⟩

/-- Two answers of the compiler differ in handles only. -/
inductive Compiled.Alike : Except (List Diagnostic) Chunk × StringPool →
    Except (List Diagnostic) Chunk × StringPool → Prop where
  | ok {chunk chunk' : Chunk} {pool pool' : StringPool} : chunk'.code = chunk.code →
      List.Forall₂ (Value.Alike pool pool') chunk.constants chunk'.constants →
      (∀ title, chunk'.listing pool' title = chunk.listing pool title) →
      Compiled.Alike (.ok chunk, pool) (.ok chunk', pool')
  | error {diagnostics : List Diagnostic} {pool pool' : StringPool} :
      Compiled.Alike (.error diagnostics, pool) (.error diagnostics, pool')

section Listing

variable {pool pool' : StringPool} {constants constants' : List Value}

/-- Related lists have related elements, or none, at every index. -/
theorem rel_getElem? {α β : Type} {R : α → β → Prop} {l : List α} {l' : List β}
    (both : List.Forall₂ R l l') (k : Nat) : Option.Rel R l[k]? l'[k]? := by
  induction both generalizing k with
  | nil => exact .none
  | cons first _ ih =>
    cases k with
    | zero => exact .some first
    | succ k => exact ih k

/-- A listing shows the text of constants, not their handles. -/
theorem Slot.text_eq_of_alike (both : List.Forall₂ (Value.Alike pool pool') constants constants')
    (slot : Slot) : slot.text pool' constants' = slot.text pool constants := by
  have operand (op : Opcode) (k : UInt8) :
      Slot.operandText pool' constants' op k = Slot.operandText pool constants op k := by
    have named := rel_getElem? both k.toNat
    unfold operandText
    generalize constants[k.toNat]? = v?, constants'[k.toNat]? = v?' at named
    cases named with
    | none => rfl
    | some alike =>
      dsimp only
      rw [alike.text_eq]
  have content : slot.content.text pool' constants' = slot.content.text pool constants := by
    unfold Content.text
    split
    · rfl
    · rfl
    · split
      · rfl
      · exact operand ..
  rw [text, text, content]

/-- Chunks with alike constants have the same listing. -/
theorem Chunk.listing_eq_of_alike {code : List CodeByte}
    (both : List.Forall₂ (Value.Alike pool pool') constants constants') (title : String) :
    Chunk.listing ⟨code, constants'⟩ pool' title = Chunk.listing ⟨code, constants⟩ pool title := by
  have lines (slot : Slot) := Slot.text_eq_of_alike both slot
  simp only [listing, slots, lines]

end Listing

/-- **The compiler gives the same for every pool,** up to handles. -/
theorem alike_compile (source : String) (pool pool' : StringPool) :
    Compiled.Alike (compile source pool) (compile source pool') := by
  by_cases faultless : (ParsedSource.ofSource source).diagnostics = []
  · rw [compile_of_faultless faultless, compile_of_faultless faultless]
    have constants := Literal.alike_linkAll pool pool' (ParsedSource.ofSource source).constants
    exact .ok rfl constants (Chunk.listing_eq_of_alike constants)
  · rw [compile_of_faulty faultless, compile_of_faulty faultless]
    exact .error

namespace Machine

variable {m m' : Machine} {chunk chunk' : Chunk} {pool pool' : StringPool}

/-! ## Running -/

namespace Alike

/-- Machines that are alike are concluded alike. -/
theorem concluded {n : Nat} (alike : m.Alike m') (ending : Ending) :
    (m.concluded ending).Alike (m'.concluded (ending.shift n)) := by
  cases ending with
  | finished => exact alike.quiet (quiet_log ..) (quiet_log ..)
  | failed fault line =>
    obtain ⟨reported, quiet, eq⟩ := m.abort_eq fault line
    obtain ⟨reported', quiet', eq'⟩ := m'.abort_eq fault (line + n)
    have ended := alike.quiet quiet quiet'
    rw [Machine.concluded, Ending.shift, Machine.concluded, eq, eq']
    exact ⟨.nil, ended.limit, ended.rooted.congr rfl rfl, ended.rooted'.congr rfl rfl, ended.world,
      ended.output⟩

/-- Machines that are alike begin alike. -/
theorem begun (alike : m.Alike m') (chunk chunk' : Chunk) :
    (m.begun chunk).Alike (m'.begun chunk') :=
  alike.quiet (quiet_log ..) (quiet_log ..)

/-- Two chunks whose runs end in the same way. -/
theorem interpretChunk {n : Nat}
    (same : ((m'.begun chunk').run chunk').1 = ((m.begun chunk).run chunk).1.shift n)
    (ended : ((m.begun chunk).run chunk).2.Alike ((m'.begun chunk').run chunk').2) :
    (m'.interpretChunk chunk').1 = (m.interpretChunk chunk).1 ∧
      (m.interpretChunk chunk).2.Alike (m'.interpretChunk chunk').2 := by
  rw [interpretChunk_eq, interpretChunk_eq, same]
  refine ⟨?_, ended.concluded _⟩
  cases ((m.begun chunk).run chunk).1 <;> rfl

/-- **A source cannot tell two machines apart** that differ in handles only. -/
theorem interpret (alike : m.Alike m') (source : String) :
    (m'.interpret source).1 = (m.interpret source).1 ∧
      m'.complaints source = m.complaints source ∧
      (m.interpret source).2.Alike (m'.interpret source).2 := by
  by_cases faultless : (ParsedSource.ofSource source).diagnostics = []
  · obtain ⟨chunk, pool, compiled⟩ := exists_compile_eq_ok faultless m.pool
    obtain ⟨chunk', pool', compiled'⟩ := exists_compile_eq_ok faultless m'.pool
    obtain ⟨holds, linked⟩ := holds_of_compile compiled
    obtain ⟨holds', linked'⟩ := holds_of_compile compiled'
    have grown := alike.grow (grows_of_compile compiled) (grows_of_compile compiled')
    obtain ⟨same, ended⟩ := (grown.begun chunk chunk').run holds holds'
      (Program.alike_code _ linked linked')
    obtain ⟨result, alike⟩ := interpretChunk same ended
    rw [Ending.shift_zero] at same
    rw [Machine.interpret, Machine.interpret, complaints, complaints, Machine.compile,
      Machine.compile, compiled, compiled']
    dsimp only
    rw [same]
    exact ⟨result, rfl, alike⟩
  · have compiled := compile_of_faulty faultless m.pool
    have compiled' := compile_of_faulty faultless m'.pool
    obtain ⟨result, quiet⟩ := quiet_interpret_of_error compiled
    obtain ⟨result', quiet'⟩ := quiet_interpret_of_error compiled'
    have grown := alike.grow (grows_of_compile compiled) (grows_of_compile compiled')
    refine ⟨result'.trans result.symm, ?_, grown.quiet quiet quiet'⟩
    rw [complaints, complaints, Machine.compile, Machine.compile, compiled, compiled']

end Alike
end Machine

/-! ## Sessions -/

/-- What can be seen of a source that a machine has run. -/
structure Observation where
  source : String
  result : RunResult
  /-- The bytes that it printed. -/
  printed : List UInt8
  /-- The lines that it had to report. -/
  complaints : List String
  /-- The bytes of these lines that the error stream accepted. -/
  reported : List UInt8
  /-- The text of every global variable that was defined afterwards. -/
  globals : List Char → Option String

/-- What can be seen of a source, whatever the error stream accepts. -/
def Observation.apartFromErrors (o : Observation) : Observation :=
  { o with reported := [] }

namespace Machine

/-- The text of a global variable, if it is defined. -/
def globalText (m : Machine) (name : List Char) : Option String :=
  (m.global? name).map (·.text m.pool)

/-- What can be seen of running a source. -/
def observe (m : Machine) (source : String) : Observation :=
  let (result, after) := m.interpret source
  { source, result
    printed := after.printed.drop m.printed.length
    complaints := m.complaints source
    reported := after.reported.drop m.reported.length
    globals := after.globalText }

/-- What can be seen of a session, source by source. -/
def observations (m : Machine) : List String → List Observation
  | [] => []
  | source :: others => m.observe source :: (m.interpret source).2.observations others

variable {m m' : Machine}

/-- The text of a global variable is that of what its name is bound to. -/
theorem Rooted.globalText_eq (rooted : m.Rooted) (name : List Char) :
    m.globalText name = (m.world.globals (Utf8.encode name)).map Datum.toText := by
  have bound := rooted.global? name
  unfold globalText
  cases found : m.global? name with
  | none =>
    rw [found] at bound
    rw [Option.map_eq_none_iff.1 bound.symm]
    rfl
  | some v =>
    rw [found] at bound
    obtain ⟨d, named, content⟩ := Option.map_eq_some_iff.1 bound.symm
    rw [named, Option.map_some, Option.map_some, Value.text_eq_toText content.symm]

/-- An observation is one of its source. -/
theorem source_observe (m : Machine) (source : String) : (m.observe source).source = source := rfl

/-- What was reported is what the error stream took of the complaints. -/
theorem reported_observe (m : Machine) (source : String) :
    (m.observe source).reported = (m.errors.writeLines (m.complaints source)).1 := by
  rw [observe]
  dsimp only
  rw [(m.reports_interpret source).reported, List.drop_left]

namespace Alike

/-- Machines that are alike show the same globals. -/
theorem globalText_eq (alike : m.Alike m') : m'.globalText = m.globalText := by
  funext name
  rw [alike.rooted'.globalText_eq, alike.rooted.globalText_eq, alike.world]

/-- Two machines that differ in handles only show the same, apart from what their error
streams accept. -/
theorem observe_apartFromErrors (alike : m.Alike m') (source : String) :
    (m'.observe source).apartFromErrors = (m.observe source).apartFromErrors := by
  obtain ⟨result, complaints, after⟩ := alike.interpret source
  rw [Observation.apartFromErrors, Observation.apartFromErrors, Observation.mk.injEq]
  refine ⟨rfl, result, ?_, complaints, rfl, after.globalText_eq⟩
  rw [observe, observe]
  dsimp only
  rw [after.printed, alike.printed]

/-- Machines that are alike are observed the same, if the error streams take the same. -/
theorem observe_eq (alike : m.Alike m') (source : String)
    (taken : (m'.errors.writeLines (m.complaints source)).1 =
      (m.errors.writeLines (m.complaints source)).1) :
    m'.observe source = m.observe source := by
  have reported : (m'.observe source).reported = (m.observe source).reported := by
    rw [reported_observe, reported_observe, (alike.interpret source).2.1, taken]
  have apart := alike.observe_apartFromErrors source
  rw [Observation.apartFromErrors, Observation.apartFromErrors, Observation.mk.injEq] at apart
  obtain ⟨source, result, printed, complaints, -, globals⟩ := apart
  rw [observe, observe, Observation.mk.injEq] at *
  exact ⟨source, result, printed, complaints, reported, globals⟩

/-- Machines that are alike are observed the same in a whole session. -/
theorem observations_eq (alike : m.Alike m') (errors : m'.errors = m.errors)
    (sources : List String) : m'.observations sources = m.observations sources := by
  induction sources generalizing m m' with
  | nil => rfl
  | cons source others ih =>
    obtain ⟨-, complaints, after⟩ := alike.interpret source
    have errors' : (m'.interpret source).2.errors = (m.interpret source).2.errors := by
      rw [(m'.reports_interpret source).errors, (m.reports_interpret source).errors, errors,
        complaints]
    rw [observations, observations, alike.observe_eq source (by rw [errors]), ih after errors']

end Alike
end Machine

/-! ## Main statement -/

/-- The pool into which some strings were put. -/
def StringPool.internAll (strings : List (List UInt8)) : StringPool :=
  strings.foldl (fun pool bytes => (pool.intern bytes).2) .empty

/-- Every pool extends the empty one. -/
theorem StringPool.grows_empty (pool : StringPool) : empty.Grows pool :=
  List.nil_prefix

/-- A new machine is alike to itself. -/
theorem Machine.alike_create (settings : Settings) (output errors : Sink) :
    (create settings output errors).Alike (create settings output errors) where
  values := .nil
  limit := rfl
  rooted := rooted_create ..
  rooted' := rooted_create ..
  world := rfl
  output := rfl

/-- **Handles cannot be seen.** Whatever strings were put into the pool before, a session
shows the same as on a new machine, and the compiler gives the same for every source. -/
theorem handles_unobservable (settings : Settings) (output errors : Sink)
    (strings : List (List UInt8)) :
    (∀ sources, Machine.observations
        { Machine.create settings output errors with pool := .internAll strings } sources =
      (Machine.create settings output errors).observations sources) ∧
    ∀ source, Compiled.Alike (compile source .empty) (compile source (.internAll strings)) := by
  have alike := (Machine.alike_create settings output errors).grow (.refl _)
    (StringPool.grows_empty (.internAll strings))
  exact ⟨fun sources => alike.observations_eq rfl sources,
    fun source => alike_compile source .empty (.internAll strings)⟩

end StackScript
