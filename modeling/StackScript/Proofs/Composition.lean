/-
# Two sources in turn, or one below the other

Two sources can be given to a machine in turn, or as one source, the second below the first.
What can be seen is the same, as long as the constants of both together are not too many:

| first source | second source | both in one |
| --- | --- | --- |
| fails | is not run | fails in the same way, on the same line |
| ends well | ends in some way | ends in the same way, the line of a fault moved down |

The two machines do not hold the same strings at the same handles: the constants of the
second source come before the strings that the first one joins, or after them. They differ
in handles only, and stay side by side (`Machine.Alike`).
-/
import StackScript.Proofs.Rejection

namespace StackScript

/-! ## Compiling -/

/-- How many constants a source has: numbers, strings and names. -/
def constantTokens (source : String) : Nat :=
  (TokenStream.scan source.toList).tokens.countP Token.isConstant

/-- As many tokens are constants on the lines further down. -/
theorem Token.countP_isConstant_map_shift (n : Nat) (tokens : List Token) :
    (tokens.map (Token.shift n)).countP Token.isConstant = tokens.countP Token.isConstant := by
  rw [List.countP_map]
  rfl

/-- Two sources that are accepted are accepted one below the other. -/
theorem ParsedSource.ofSource_join {s t : String} (hs : (ofSource s).diagnostics = [])
    (ht : (ofSource t).diagnostics = [])
    (few : constantTokens s + constantTokens t ≤ Chunk.maxConstants) :
    (ofSource (s ++ "\n" ++ t)).diagnostics = [] ∧
      (ofSource (s ++ "\n" ++ t)).program =
        (ofSource s).program.join ((ofSource t).program.shift (1 + lineEnds s.toList)) := by
  obtain ⟨derives, deep, range, -, -⟩ :=
    derives_of_diagnostics_eq_nil (TokenStream.kind_ne_finish 1 s.toList) hs
  obtain ⟨derives', deep', range', -, -⟩ :=
    derives_of_diagnostics_eq_nil (TokenStream.kind_ne_finish 1 t.toList) ht
  have text : (s ++ "\n" ++ t).toList = s.toList ++ '\n' :: t.toList := by
    simp [String.toList_append]
  have joined := derives.join derives'
  have tokens := congrArg TokenStream.tokens
    (TokenStream.scan_append s.toList t.toList fun u mem =>
      u.kind_ne_fault (derives.declarations.not_isFault u mem) _)
  have read := ofStream_of_derives joined ?_ ?_ ?_
  · rw [ofSource, text, read]
    exact ⟨rfl, rfl⟩
  · intro d mem
    rcases List.mem_append.1 mem with mem | mem
    · exact deep d mem
    · obtain ⟨e, found, rfl⟩ := List.mem_map.1 mem
      rw [Declaration.nesting_shift]
      exact deep' e found
  · rw [tokens, List.countP_append, Token.countP_isConstant_map_shift]
    exact few
  · rw [tokens]
    intro u mem
    rcases List.mem_append.1 mem with mem | mem
    · exact range u mem
    · obtain ⟨v, found, rfl⟩ := List.mem_map.1 mem
      exact range' v found

/-- The code of more declarations follows that of the first, numbered from where this one ended. -/
theorem Declaration.codeOfList_append (ds es : List Declaration) (next : Nat) :
    codeOfList next (ds ++ es) =
      codeOfList next ds ++ codeOfList (next + (ds.flatMap constants).length) es := by
  induction ds generalizing next with
  | nil => rfl
  | cons d ds ih =>
    rw [List.cons_append, codeOfList, ih, codeOfList, List.flatMap_cons, List.length_append,
      List.append_assoc, Nat.add_assoc]

/-- The code of two programs in turn, up to the end of the second. -/
theorem Program.code_join (p q : Program) :
    (p.join q).code = Declaration.codeOfList 0 p.declarations ++
      (Declaration.codeOfList (p.declarations.flatMap Declaration.constants).length
        q.declarations ++ [⟨.finish, q.lastLine⟩]) := by
  rw [code, join, Declaration.codeOfList_append, Nat.zero_add, List.append_assoc]

/-! ## Runs -/

namespace Machine

open Declaration (codeOfList)

variable {m m' after : Machine} {chunk chunk' : Chunk} {pool : StringPool} {s t source : String}
  {limit : Nat} {more : List TracedInstruction}

/-- A machine between two runs differs from itself in nothing. -/
theorem Idle.alike (idle : m.Idle limit) : m.Alike m where
  values := by rw [idle.empty]; exact .nil
  limit := rfl
  rooted := idle.sound.rooted
  rooted' := idle.sound.rooted
  world := rfl
  output := rfl

/-- How a run of code that begins like a program stands to the run of that program, which
ends like this: where that ends well, `more` is left to run, and where it fails, both fail. -/
inductive Continues (m : Machine) (chunk : Chunk) (more : List TracedInstruction) :
    Ending × Machine → Progress → Prop where
  | finished {after mid : Machine} {slots : List Slot} : after.Alike mid → m.pool.Grows mid.pool →
      List.Forall₂ Slot.Holds slots more →
      Continues m chunk more (.finished, after) (runSlots chunk slots mid)
  | failed {fault : RuntimeFault} {line : Nat} {after after' : Machine} : after.Alike after' →
      Continues m chunk more (.failed fault line, after) (.ended (.failed fault line) after')

/-- **The code of a program, with more behind it,** runs beside the program. -/
theorem Alike.continues {p : Program} (alike : m.Alike m') (idle : m.Idle limit)
    (holds : List.Forall₂ Slot.Holds chunk.slots p.code)
    (holds' : List.Forall₂ Slot.Holds chunk'.slots (codeOfList 0 p.declarations ++ more))
    (linked : Linked chunk.constants m.pool 0 (p.declarations.flatMap Declaration.constants))
    (linked' : Linked chunk'.constants m'.pool 0 (p.declarations.flatMap Declaration.constants)) :
    Continues m' chunk' more (m.run chunk) (Machine.runSlots chunk' chunk'.slots m') := by
  obtain ⟨first, others, split, hfirst, hothers⟩ := forall₂_holds_append holds
  obtain ⟨slot, _, hslot, rest, rfl⟩ := List.forall₂_cons_right_iff.1 hothers
  obtain rfl := List.forall₂_nil_right_iff.1 rest
  obtain ⟨first', others', split', hfirst', hothers'⟩ := forall₂_holds_append holds'
  have agrees := Declaration.agreesAll p.declarations hfirst linked idle.sound idle.empty
  have code : List.Forall₂
      (TracedInstruction.Alike 0 ⟨chunk.constants, m.pool⟩ ⟨chunk'.constants, m'.pool⟩)
      (codeOfList 0 p.declarations) (codeOfList 0 (p.declarations.map (Declaration.shift 0))) :=
    Declaration.alike_codeOfList p.declarations linked linked'
  have same : p.declarations.map (Declaration.shift 0) = p.declarations :=
    congrArg Program.declarations p.shift_zero
  rw [same] at code
  have both := alike.runSlots hfirst hfirst' code
  have grows := (proceeds_runSlots chunk' first' m').gathers.grows
  rw [Machine.run, split, split', runSlots_append, runSlots_append]
  generalize Machine.runSlots chunk first m = progress,
    Machine.runSlots chunk' first' m' = progress',
    Declaration.evalAll m.stack.limit p.declarations m.world = result at both agrees grows
  -- The evaluation says that the first code goes on or fails: it does not end well by itself.
  cases agrees with
  | error _ _ =>
    cases both with
    | ended _ alike => exact .failed alike
  | @ok _ after _ _ sound _ =>
    cases both with
    | running alike =>
      have quiet := after.quiet_trace chunk slot
      have flushed : (after.trace chunk slot).output.flush = none := (quiet.sound sound).output.2 _
      dsimp only
      rw [Machine.runSlots, runSlot_of_holds hslot, Machine.step, flushed]
      exact .finished (alike.quiet quiet (.refl _)) grows hothers'

/-- What is left of the longer run, beside the run of a source that stands further up. -/
theorem Alike.run_rest {whole : Chunk} {start : Machine} {n next : Nat} {slots : List Slot}
    (alike : m.Alike m') (compiled : StackScript.compile source m.pool = (.ok chunk, pool))
    (holds : List.Forall₂ Slot.Holds slots
      (codeOfList next ((ParsedSource.ofSource source).program.shift n).declarations ++
        [⟨.finish, ((ParsedSource.ofSource source).program.shift n).lastLine⟩]))
    (linked : Linked whole.constants m'.pool next
      ((ParsedSource.ofSource source).program.declarations.flatMap Declaration.constants))
    (reached : Machine.runSlots whole whole.slots start = Machine.runSlots whole slots m') :
    (start.run whole).1 = (({ m with pool }.begun chunk).run chunk).1.shift n ∧
      (({ m with pool }.begun chunk).run chunk).2.Alike (start.run whole).2 := by
  obtain ⟨holds', linked'⟩ := holds_of_compile compiled
  have begun : ({ m with pool }.begun chunk).Alike m' :=
    (alike.grow (grows_of_compile compiled) (.refl m'.pool)).quiet (quiet_log ..) (.refl m')
  have code : List.Forall₂ (TracedInstruction.Alike n ⟨chunk.constants, pool⟩
      ⟨whole.constants, m'.pool⟩) (codeOfList 0 (ParsedSource.ofSource source).program.declarations)
      (codeOfList next ((ParsedSource.ofSource source).program.shift n).declarations) :=
    Declaration.alike_codeOfList _ linked' linked
  have progress := begun.runSlots holds' holds (List.rel_append code (alike_single rfl))
  rw [← reached] at progress
  exact progress.run fun _ => runSlots_ne_running holds'

/-! ## Sources -/

/-- An ending further down has the same result. -/
theorem Ending.result_shift (n : Nat) (ending : Ending) :
    (ending.shift n).result = ending.result := by
  cases ending <;> rfl

/-- An accepted source is answered and reported as its run ends. -/
theorem interpret_of_run {ending : Ending}
    (compiled : StackScript.compile source m.pool = (.ok chunk, pool))
    (run : ({ m with pool }.begun chunk).run chunk = (ending, after)) :
    m.interpret source = (ending.result, after.concluded ending) ∧
      m.Reports ending.complaints (m.interpret source).2 := by
  have reports := m.reports_interpret source
  rw [complaints, compile, compiled] at reports
  dsimp only at reports
  rw [run] at reports
  refine ⟨?_, reports⟩
  rw [interpret, compile, compiled]
  dsimp only
  rw [interpretChunk_eq, run]

/-- Two sources in turn, the second only if the first ends well. -/
def interpretInTurn (m : Machine) (s t : String) : RunResult × Machine :=
  match m.interpret s with
  | (.ok, after) => after.interpret t
  | (result, after) => (result, after)

/-- How far a fault moves down if the second source stands below `s`. A fault of `s` itself
stays where it is. -/
def faultShift (m : Machine) (s : String) : Nat :=
  if (m.interpret s).1 = .ok then 1 + lineEnds s.toList else 0

/-- After a source that runs through, the next one is interpreted where it ended. -/
theorem interpretInTurn_of_ok (ok : m.interpret s = (.ok, after)) (t : String) :
    m.interpretInTurn s t = after.interpret t ∧ m.faultShift s = 1 + lineEnds s.toList := by
  rw [interpretInTurn, faultShift, ok]
  exact ⟨rfl, rfl⟩

/-- After a source that fails, the next one is not interpreted. -/
theorem interpretInTurn_of_runtimeError (failed : m.interpret s = (.runtimeError, after))
    (t : String) : m.interpretInTurn s t = m.interpret s ∧ m.faultShift s = 0 := by
  rw [interpretInTurn, faultShift, failed]
  exact ⟨rfl, rfl⟩

/-- Two sources in turn, and one below the other, are answered and reported as runs end that
differ in the line of a fault only. -/
theorem Idle.interpret_join (idle : m.Idle limit) (hs : compiles s = true)
    (ht : compiles t = true) (few : constantTokens s + constantTokens t ≤ Chunk.maxConstants) :
    ∃ ending : Ending, (m.interpretInTurn s t).1 = ending.result ∧
      (m.interpret (s ++ "\n" ++ t)).1 = ending.result ∧
      (m.interpretInTurn s t).2.Alike (m.interpret (s ++ "\n" ++ t)).2 ∧
      m.Reports ending.complaints (m.interpretInTurn s t).2 ∧
      m.Reports (ending.shift (m.faultShift s)).complaints (m.interpret (s ++ "\n" ++ t)).2 := by
  have faultless := compiles_iff.1 hs
  have faultless' := compiles_iff.1 ht
  obtain ⟨accepted, joined⟩ := ParsedSource.ofSource_join faultless faultless' few
  obtain ⟨c₁, pool₁, compiled₁⟩ := exists_compile_eq_ok faultless m.pool
  obtain ⟨c, pool, compiled⟩ := exists_compile_eq_ok accepted m.pool
  obtain ⟨holds₁, linked₁⟩ := holds_of_compile compiled₁
  obtain ⟨holds, linked⟩ := holds_of_compile compiled
  rw [joined, Program.code_join] at holds
  rw [joined, Program.constants_join_shift] at linked
  have grows₁ := grows_of_compile compiled₁
  have start := (idle.alike.grow grows₁ (grows_of_compile compiled)).begun c₁ c
  have started : ({ m with pool := pool₁ }.begun c₁).Idle limit :=
    (quiet_log ..).idle (idle.grow grows₁)
  have continues := start.continues started holds₁ holds linked₁ linked.left
  generalize run₁ : ({ m with pool := pool₁ }.begun c₁).run c₁ = conclusion,
    reached : runSlots c c.slots ({ m with pool }.begun c) = progress at continues
  cases continues with
  | @failed fault line after after' alike =>
    have run : ({ m with pool }.begun c).run c = (.failed fault line, after') := by
      rw [Machine.run, reached]
    obtain ⟨answer₁, reports₁⟩ := interpret_of_run compiled₁ run₁
    obtain ⟨answer, reports⟩ := interpret_of_run compiled run
    obtain ⟨turn, still⟩ := interpretInTurn_of_runtimeError answer₁ t
    rw [turn, still]
    refine ⟨.failed fault line, by rw [answer₁], by rw [answer], ?_, reports₁, reports⟩
    rw [answer₁, answer]
    exact alike.concluded (n := 0) (.failed fault line)
  | @finished after mid slots alike grows holdsRest =>
    obtain ⟨answer₁, reports₁⟩ := interpret_of_run compiled₁ run₁
    obtain ⟨turn, moved⟩ := interpretInTurn_of_ok answer₁ t
    rw [turn, moved]
    rw [answer₁] at reports₁
    obtain ⟨c₂, pool₂, compiled₂⟩ :=
      exists_compile_eq_ok faultless' (after.concluded .finished).pool
    have between : (after.concluded .finished).Alike mid := alike.quiet (quiet_log ..) (.refl mid)
    have linkedRest := linked.right.grow grows
    rw [Nat.zero_add] at linkedRest
    obtain ⟨same, ended⟩ := between.run_rest compiled₂ holdsRest linkedRest reached
    generalize
      run₂ : ({ after.concluded .finished with pool := pool₂ }.begun c₂).run c₂ = conclusion,
      run : ({ m with pool }.begun c).run c = conclusion' at same ended
    obtain ⟨ending, last⟩ := conclusion
    obtain ⟨_, last'⟩ := conclusion'
    obtain rfl := same
    obtain ⟨answer₂, reports₂⟩ := interpret_of_run compiled₂ run₂
    obtain ⟨answer, reports⟩ := interpret_of_run compiled run
    refine ⟨ending, by rw [answer₂], by rw [answer, Ending.result_shift], ?_,
      reports₁.trans reports₂, reports⟩
    rw [answer₂, answer]
    exact Alike.concluded ended ending

/-- Alike machines bind every name to values that stand for the same. -/
theorem Alike.global?_eq (alike : m.Alike m') (name : List Char) :
    (m'.global? name).map (·.content? m'.pool) = (m.global? name).map (·.content? m.pool) := by
  rw [alike.rooted'.global?, alike.rooted.global?, alike.world]

end Machine

/-- No session changes what the error stream accepts. -/
theorem Reached.accepts_errors {settings : Settings} {output errors : Sink} {m : Machine}
    (reached : Reached settings output errors m) : m.errors.accepts = errors.accepts := by
  induction reached with
  | create => rfl
  | interpret source _ ih => exact (Machine.accepts_errors_interpret _ source).trans ih

/-! ## Main statement -/

/-- **Two sources do the same in turn and one below the other,** on every machine that a
session can reach, if they are accepted and do not have too many constants together. Both
ways end with the same result, print the same, and bind every name to the same. If a run
fails, both report the fault, on the line where it is. -/
theorem sources_compose {settings : Settings} {output errors : Sink} {m : Machine} {s t : String}
    (reliable : output.Reliable) (accepting : errors.AcceptsAll)
    (reached : Reached settings output errors m) (hs : compiles s = true) (ht : compiles t = true)
    (few : constantTokens s + constantTokens t ≤ 256) :
    compiles (s ++ "\n" ++ t) = true ∧
      let apart := m.interpretInTurn s t
      let whole := m.interpret (s ++ "\n" ++ t)
      whole.1 = apart.1 ∧ whole.2.printed = apart.2.printed ∧
        (∀ name, (whole.2.global? name).map (·.content? whole.2.pool) =
          (apart.2.global? name).map (·.content? apart.2.pool)) ∧
        ((apart.1 = .ok ∧ apart.2.reported = m.reported ∧ whole.2.reported = m.reported) ∨
          ∃ fault line, apart.1 = .runtimeError ∧
            apart.2.reported = m.reported ++ lineBytes (Machine.faultText fault line) ∧
            whole.2.reported =
              m.reported ++ lineBytes (Machine.faultText fault (line + m.faultShift s))) := by
  have taken (lines : List String) : (m.errors.writeLines lines).1 = lines.flatMap lineBytes :=
    (accepting.of_eq reached.accepts_errors).writeLines lines
  refine ⟨compiles_iff.2 (ParsedSource.ofSource_join (compiles_iff.1 hs) (compiles_iff.1 ht) few).1,
    ?_⟩
  obtain ⟨ending, result, result', alike, reports, reports'⟩ :=
    (reached.idle reliable).interpret_join hs ht few
  refine ⟨result'.trans result.symm, alike.printed, alike.global?_eq, ?_⟩
  rw [result, reports.reported, reports'.reported, taken, taken]
  cases ending with
  | finished => exact .inl ⟨rfl, List.append_nil _, List.append_nil _⟩
  | failed fault line =>
    exact .inr ⟨fault, line, rfl, congrArg (m.reported ++ ·) (List.flatMap_singleton ..),
      congrArg (m.reported ++ ·) (List.flatMap_singleton ..)⟩

/-- A fault in the second line of the second source is in the fourth line of both together. -/
theorem sources_compose_fault :
    let m := Machine.create ⟨256, false⟩ .unlimited .unlimited
    let s := "var a = \"x\" + \"y\";\n"
    let t := "print a;\nprint a - 1;"
    compiles (s ++ "\n" ++ t) = true ∧ m.faultShift s = 2 ∧
      (m.interpret (s ++ "\n" ++ t)).1 = .runtimeError ∧
      (m.interpret (s ++ "\n" ++ t)).2.printed = (m.interpretInTurn s t).2.printed ∧
      ∃ fault line, (m.interpretInTurn s t).2.reported = lineBytes (Machine.faultText fault line) ∧
        (m.interpret (s ++ "\n" ++ t)).2.reported =
          lineBytes (Machine.faultText fault (line + 2)) := by
  intro m s t
  have moved : m.faultShift s = 2 := by decide +kernel
  have fails : (m.interpretInTurn s t).1 = .runtimeError := by decide +kernel
  have hs : compiles s = true := by decide +kernel
  have ht : compiles t = true := by decide +kernel
  obtain ⟨accepted, result, printed, -, ⟨ok, -⟩ | ⟨fault, line, -, reported, reported'⟩⟩ :=
    sources_compose ⟨fun _ _ => rfl, fun _ => rfl⟩ (fun _ _ => rfl)
      (.create : Reached ⟨256, false⟩ .unlimited .unlimited m) hs ht (by decide +kernel)
  · rw [fails] at ok
    cases ok
  · rw [moved] at reported'
    exact ⟨accepted, moved, result.trans fails, printed, fault, line, reported, reported'⟩

end StackScript
