/-
# No handle ever dangles

A session passes through moments: before each source, before each instruction of its run,
and at the end of the run (`Machine.history`). At every one of them the references on the
stack, among the constants and in the globals are live, and so are the names of the globals;
every string is the UTF-8 of a text (`Moment.WellFormed`). From one moment to a later one a
handle keeps its string.

A machine in which nothing dangles is one that is alike itself, so that this lasts follows
from what `Machine.Alike` says of two machines. The strings are texts because a source is
read as a text, and joining two texts gives a text.
-/
import StackScript.Proofs.Machine.Printing
import StackScript.Proofs.Renaming.Session

namespace StackScript

/-! ## Texts -/

/-- Every string of a pool is the UTF-8 of a text. -/
def StringPool.Textual (pool : StringPool) : Prop :=
  ∀ h s, pool.get? h = some s → ∃ text, s.bytes = Utf8.encode text

namespace StringPool

/-- The strings of an empty pool are texts. -/
theorem textual_empty : empty.Textual := by
  intro h s live
  simp [get?, empty] at live

/-- A pool of texts stays one if a text is put into it. -/
theorem Textual.intern {pool : StringPool} (textual : pool.Textual) (text : List Char) :
    (pool.intern (Utf8.encode text)).2.Textual := by
  intro h s live
  rcases get?_intern_cases live with old | new
  · exact textual h s old
  · exact ⟨text, new⟩

/-- A pool of texts stays one if it gathers nothing but texts. -/
theorem Textual.gather {before after : StringPool} (textual : before.Textual)
    (gathers : before.Gathers after) : after.Textual := by
  refine gathers.forall_get? (P := fun bytes => ∃ text, bytes = Utf8.encode text) ?_ textual
  rintro _ _ ⟨s, rfl⟩ ⟨t, rfl⟩
  exact ⟨s ++ t, (Utf8.encode_append s t).symm⟩

/-- The strings of a source are texts. -/
theorem Textual.linkAll {pool : StringPool} (textual : pool.Textual) (literals : List Literal) :
    (Literal.linkAll pool literals).2.Textual := by
  induction literals generalizing pool with
  | nil => exact textual
  | cons l others ih =>
    refine ih ?_
    cases l with
    | text s => exact textual.intern s
    | _ => exact textual

/-- A text is rendered as it is. -/
theorem Textual.encode_text {pool : StringPool} {h : Handle} {s : StoredString}
    (textual : pool.Textual) (live : pool.get? h = some s) :
    Utf8.encode ((Value.object h).text pool).toList = s.bytes := by
  obtain ⟨text, eq⟩ := textual h s live
  rw [Value.text, live]
  show Utf8.encode (String.ofList (Utf8.lossy s.bytes)).toList = s.bytes
  rw [eq, Utf8.lossy_encode, String.toList_ofList]

end StringPool

/-- Compiling puts nothing but texts into the pool. -/
theorem textual_compile {source : String} {pool after : StringPool}
    {result : Except (List Diagnostic) Chunk} (textual : pool.Textual)
    (compiled : compile source pool = (result, after)) : after.Textual := by
  have linked := textual.linkAll (ParsedSource.ofSource source).constants
  unfold compile at compiled
  dsimp only at compiled
  split at compiled
  · obtain ⟨-, rfl⟩ := Prod.mk.inj compiled
    exact linked
  · obtain ⟨-, rfl⟩ := Prod.mk.inj compiled
    exact linked

/-- No constant of a chunk is dangling. -/
theorem exists_content?_of_compile {source : String} {pool after : StringPool} {chunk : Chunk}
    (compiled : compile source pool = (.ok chunk, after)) :
    ∀ v ∈ chunk.constants, ∃ d, v.content? after = some d := by
  have same := Literal.alike_linkAll pool pool (ParsedSource.ofSource source).constants
  rw [compile_of_faultless (compile_eq_ok_iff.1 (congrArg Prod.fst compiled)).1] at compiled
  obtain ⟨accepted, rfl⟩ := Prod.mk.inj compiled
  obtain rfl := Except.ok.inj accepted
  intro v mem
  obtain ⟨d, content, -⟩ := List.forall₂_same.1 same v mem
  exact ⟨d, content⟩

/-! ## Machines that a run passes through -/

namespace Machine

variable {m after : Machine} {chunk : Chunk} {slots : List Slot} {code : List TracedInstruction}

/-- Every machine that is passed is reached from the first one. -/
theorem proceeds_of_mem_passed (mem : after ∈ passed chunk slots m) : m.Proceeds after := by
  induction slots generalizing m with
  | nil =>
    obtain rfl := List.mem_singleton.1 mem
    exact .refl after
  | cons slot others ih =>
    have first := proceeds_runSlot chunk slot m
    rw [passed] at mem
    rcases List.mem_cons.1 mem with rfl | mem
    · exact .refl after
    · cases eq : runSlot chunk slot m with
      | running next =>
        rw [eq] at first mem
        exact first.trans (ih mem)
      | ended ending last =>
        rw [eq] at first mem
        obtain rfl := List.mem_singleton.1 mem
        exact first

/-- The last machine is reached from every one that is passed. -/
theorem proceeds_end_of_mem_passed (mem : after ∈ passed chunk slots m) :
    after.Proceeds (runSlots chunk slots m).machine := by
  induction slots generalizing m with
  | nil =>
    obtain rfl := List.mem_singleton.1 mem
    exact .refl after
  | cons slot others ih =>
    rw [passed] at mem
    rcases List.mem_cons.1 mem with rfl | mem
    · exact proceeds_runSlots chunk (slot :: others) after
    · rw [runSlots]
      cases eq : runSlot chunk slot m with
      | running next =>
        rw [eq] at mem
        exact ih mem
      | ended ending last =>
        rw [eq] at mem
        obtain rfl := List.mem_singleton.1 mem
        exact .refl after

/-- The strings only grow from one machine to the next. -/
theorem pairwise_passed (chunk : Chunk) (slots : List Slot) (m : Machine) :
    (passed chunk slots m).Pairwise fun a b => a.pool.Grows b.pool := by
  induction slots generalizing m with
  | nil => exact List.pairwise_singleton ..
  | cons slot others ih =>
    have all (after : Machine) (mem : after ∈ passed chunk (slot :: others) m) :
        m.pool.Grows after.pool := (proceeds_of_mem_passed mem).gathers.grows
    rw [passed] at all ⊢
    refine List.pairwise_cons.2 ⟨fun after mem => all after (List.mem_cons_of_mem m mem), ?_⟩
    cases runSlot chunk slot m with
    | running next => exact ih next
    | ended ending last => exact List.pairwise_singleton ..

/-- In no machine of a run does anything dangle, if nothing did before. -/
theorem Alike.of_mem_passed (alike : m.Alike m) (holds : List.Forall₂ Slot.Holds slots code)
    (live : List.Forall₂
      (TracedInstruction.Alike 0 ⟨chunk.constants, m.pool⟩ ⟨chunk.constants, m.pool⟩) code code)
    (mem : after ∈ passed chunk slots m) : after.Alike after := by
  induction holds generalizing m with
  | nil =>
    obtain rfl := List.mem_singleton.1 mem
    exact alike
  | @cons slot i slots code first rest ih =>
    obtain ⟨liveFirst, liveRest⟩ := List.forall₂_cons.1 live
    have next := (alike.runSlot first first liveFirst).machine
    have grows := (proceeds_runSlot chunk slot m).gathers.grows
    rw [passed] at mem
    rcases List.mem_cons.1 mem with rfl | mem
    · exact alike
    · generalize Machine.runSlot chunk slot m = result at next grows mem
      cases result with
      | running after =>
        exact ih next (liveRest.imp fun _ _ both => both.grow grows grows) mem
      | ended ending last =>
        obtain rfl := List.mem_singleton.1 mem
        exact next

/-! ## Printing and comparing texts -/

section Texts

variable {h k : Handle} {s t : StoredString} {below : List Value} {constants : List Value}

/-- Printing a text writes its bytes and a line end. -/
theorem printed_step_print (textual : m.pool.Textual) (live : m.pool.get? h = some s)
    (top : m.stack.values = .object h :: below)
    (went : m.step constants .print = .next after) :
    after.printed = m.printed ++ s.bytes ++ [0x0A] := by
  obtain ⟨room, popped⟩ := pop_of_cons top
  rw [step, printTop, popped] at went
  dsimp only at went
  split at went
  · rename_i last printed
    obtain rfl := Step.next.inj went
    rw [printed_of_printLine printed, lineBytes, Utf8.encode_append, pool_withValues,
      textual.encode_text live, List.append_assoc]
    rfl
  · cases went

/-- A handle on the stack can be printed if the output accepts all. -/
theorem step_print_of_acceptsAll (accepting : m.output.AcceptsAll)
    (top : m.stack.values = .object h :: below) :
    ∃ after, m.step constants .print = .next after := by
  obtain ⟨room, popped⟩ := pop_of_cons top
  obtain ⟨after, printed⟩ := printLine_of_acceptsAll (m := m.withValues below room) accepting
    ((Value.object h).text m.pool)
  refine ⟨after, ?_⟩
  rw [step, printTop, popped]
  dsimp only
  rw [pool_withValues, printed]

/-- Two texts are the same if they have the same bytes. -/
theorem step_equal_of_texts (hs : m.pool.get? h = some s) (ht : m.pool.get? k = some t)
    (top : m.stack.values = .object k :: .object h :: below) :
    ∃ after, m.step constants .equal = .next after ∧
      after.stack.values = .bool (decide (s.bytes = t.bytes)) :: below := by
  have same : (Value.object h).same (.object k) = decide (s.bytes = t.bytes) := by
    rw [Value.same, Bool.eq_iff_iff, beq_iff_eq, decide_eq_true_iff]
    refine ⟨?_, StringPool.eq_of_bytes_eq hs ht⟩
    rintro rfl
    rw [Option.some.inj (hs.symm.trans ht)]
  obtain ⟨room, mapped⟩ := mapTop2_of_ok (f := fun a b => .ok (.bool (a.same b))) top rfl
  refine ⟨_, congrArg (Step.ofExcept m) mapped, ?_⟩
  rw [values_withValues, same]

end Texts
end Machine

/-! ## Moments -/

/-- A moment of a session: a machine, and the constants of the chunk that it runs, if any. -/
structure Moment where
  constants : List Value
  machine : Machine

namespace Machine

/-- The moments of the run of a source, or the one after it was refused. -/
def moments (m : Machine) (source : String) : List Moment :=
  match m.compile source with
  | (.ok chunk, m) => (passed chunk chunk.slots (m.begun chunk)).map (⟨chunk.constants, ·⟩)
  | (.error _, m) => [⟨[], m⟩]

/-- The moments of a session. -/
def history (m : Machine) : List String → List Moment
  | [] => [⟨[], m⟩]
  | source :: others => ⟨[], m⟩ :: (m.moments source ++ (m.interpret source).2.history others)

end Machine

/-- Nothing is dangling at a moment, and all strings are texts. -/
structure Moment.WellFormed (i : Moment) : Prop where
  stack : ∀ h, .object h ∈ i.machine.stack.values → i.machine.pool.isLive h
  constants : ∀ h, .object h ∈ i.constants → i.machine.pool.isLive h
  names : ∀ h v, i.machine.globals.find? h = some v → i.machine.pool.isLive h
  values : ∀ h k, i.machine.globals.find? h = some (.object k) → i.machine.pool.isLive k
  texts : i.machine.pool.Textual

/-- Texts are rendered, printed and compared by their bytes at a moment. -/
structure Moment.Faithful (i : Moment) : Prop where
  rendering : ∀ h s, i.machine.pool.get? h = some s →
    Utf8.encode ((Value.object h).text i.machine.pool).toList = s.bytes
  printing : ∀ h below, i.machine.stack.values = .object h :: below →
    ∃ s, i.machine.pool.get? h = some s ∧
      (∀ after, i.machine.step i.constants .print = .next after →
        after.printed = i.machine.printed ++ s.bytes ++ [0x0A]) ∧
      (i.machine.output.AcceptsAll → ∃ after, i.machine.step i.constants .print = .next after)
  comparing : ∀ h k below, i.machine.stack.values = .object k :: .object h :: below →
    ∃ s t after, i.machine.pool.get? h = some s ∧ i.machine.pool.get? k = some t ∧
      i.machine.step i.constants .equal = .next after ∧
      after.stack.values = .bool (decide (s.bytes = t.bytes)) :: below

/-- In a well-formed moment every handle is faithful. -/
theorem Moment.WellFormed.faithful {i : Moment} (formed : i.WellFormed) : i.Faithful where
  rendering h s live := formed.texts.encode_text live
  printing h below top := by
    have live := formed.stack h (by rw [top]; exact List.mem_cons_self ..)
    obtain ⟨s, live⟩ := Option.isSome_iff_exists.1 live
    exact ⟨s, live, fun after went => Machine.printed_step_print formed.texts live top went,
      fun accepting => Machine.step_print_of_acceptsAll accepting top⟩
  comparing h k below top := by
    have first := formed.stack k (by rw [top]; exact List.mem_cons_self ..)
    have second := formed.stack h (by rw [top]; exact .tail _ (.head _))
    obtain ⟨t, ht⟩ := Option.isSome_iff_exists.1 first
    obtain ⟨s, hs⟩ := Option.isSome_iff_exists.1 second
    have compared : ∃ after, i.machine.step i.constants .equal = .next after ∧
        after.stack.values = .bool (decide (s.bytes = t.bytes)) :: below :=
      Machine.step_equal_of_texts hs ht top
    obtain ⟨after, went, values⟩ := compared
    exact ⟨s, t, after, hs, ht, went, values⟩

namespace Machine

variable {m after : Machine} {chunk : Chunk} {source : String} {i : Moment}

/-- The end of a run leaves the pool as it is. -/
theorem pool_concluded (m : Machine) (ending : Ending) : (m.concluded ending).pool = m.pool := by
  cases ending with
  | finished => rfl
  | failed fault line =>
    obtain ⟨reported, quiet, eq⟩ := m.abort_eq fault line
    rw [concluded, eq]
    exact quiet.pool

/-- The strings after a source are those after its run. -/
theorem pool_interpretChunk (m : Machine) (chunk : Chunk) :
    (m.interpretChunk chunk).2.pool = ((m.begun chunk).run chunk).2.pool := by
  rw [interpretChunk_eq, pool_concluded]

/-- The pool at the end of a run extends every one on the way. -/
theorem grows_run_of_mem_passed (mem : after ∈ passed chunk chunk.slots m) :
    after.pool.Grows (m.run chunk).2.pool := by
  have ended := (proceeds_end_of_mem_passed mem).gathers.grows
  unfold run
  generalize runSlots chunk chunk.slots m = result at ended
  cases result with
  | ended ending last => exact ended
  | running last => exact ended.trans (proceeds_traceStack last).gathers.grows

/-! ### One source -/

/-- The moments of an accepted source are those that its run passes. -/
theorem moments_of_ok {pool : StringPool}
    (compiled : StackScript.compile source m.pool = (.ok chunk, pool)) :
    m.moments source =
      (passed chunk chunk.slots ({ m with pool }.begun chunk)).map (⟨chunk.constants, ·⟩) := by
  rw [moments, compile, compiled]

/-- A refused source has one moment, after its diagnostics. -/
theorem moments_of_error {diagnostics : List Diagnostic} {pool : StringPool}
    (compiled : StackScript.compile source m.pool = (.error diagnostics, pool)) :
    ∃ after, m.moments source = [⟨[], after⟩] ∧ { m with pool }.Quiet after := by
  rw [moments, compile, compiled]
  exact ⟨_, rfl, quiet_log ..⟩

/-- The strings only grow while a source is run. -/
structure Gains (m : Machine) (source : String) : Prop where
  first : ∀ i ∈ m.moments source, m.pool.Grows i.machine.pool
  last : ∀ i ∈ m.moments source, i.machine.pool.Grows (m.interpret source).2.pool
  whole : m.pool.Grows (m.interpret source).2.pool
  ordered : (m.moments source).Pairwise fun i j => i.machine.pool.Grows j.machine.pool

/-- Every moment of a source has the strings of those before it. -/
theorem gains (m : Machine) (source : String) : m.Gains source := by
  match compiled : StackScript.compile source m.pool with
  | (.error diagnostics, pool) =>
    have grows := grows_of_compile compiled
    have ends : (m.interpret source).2.pool = pool := (quiet_interpret_of_error compiled).2.pool
    obtain ⟨after, moment, quiet⟩ := moments_of_error compiled
    have reached : after.pool = pool := quiet.pool
    rw [← reached] at grows ends
    refine ⟨?_, ?_, ends ▸ grows, ?_⟩
    · rw [moment]
      exact List.forall_mem_singleton.2 grows
    · rw [moment, ends]
      exact List.forall_mem_singleton.2 (.refl _)
    · rw [moment]
      exact List.pairwise_singleton ..
  | (.ok chunk, pool) =>
    have grows := grows_of_compile compiled
    have moments := moments_of_ok compiled
    have ends : (m.interpret source).2.pool =
        (({ m with pool }.begun chunk).run chunk).2.pool := by
      rw [interpret, compile, compiled]
      exact pool_interpretChunk ..
    refine ⟨?_, ?_, ?_, ?_⟩
    · rw [moments]
      exact List.forall_mem_map.2 fun after mem =>
        grows.trans (proceeds_of_mem_passed mem).gathers.grows
    · rw [moments, ends]
      exact List.forall_mem_map.2 fun after mem => grows_run_of_mem_passed mem
    · rw [ends]
      exact grows.trans (proceeds_run ({ m with pool }.begun chunk) chunk).gathers.grows
    · rw [moments, List.pairwise_map]
      exact pairwise_passed ..

/-- Nothing in a machine is dangling, and all its strings are texts. -/
structure Settled (m : Machine) : Prop where
  alike : m.Alike m
  textual : m.pool.Textual

/-- A settled machine is well-formed with live constants. -/
theorem Settled.wellFormed {constants : List Value} (settled : m.Settled)
    (live : ∀ v ∈ constants, ∃ d, v.content? m.pool = some d) :
    Moment.WellFormed ⟨constants, m⟩ := by
  have isLive (h : Handle) {d : Datum} (content : (Value.object h).content? m.pool = some d) :
      m.pool.isLive h := by
    obtain ⟨s, live, -⟩ := Option.map_eq_some_iff.1 content
    exact Option.isSome_iff_exists.2 ⟨s, live⟩
  refine ⟨fun h mem => ?_, fun h mem => ?_, fun h v bound => ?_, fun h k bound => ?_,
    settled.textual⟩
  · obtain ⟨d, content, -⟩ := List.forall₂_same.1 settled.alike.values _ mem
    exact isLive h content
  · obtain ⟨d, content⟩ := live _ mem
    exact isLive h content
  · exact Option.isSome_iff_exists.2 (settled.alike.rooted.names h v bound)
  · obtain ⟨d, content⟩ := settled.alike.rooted.values h _ bound
    exact isLive k content

/-- Interpreting a source leaves a settled machine settled. -/
theorem Settled.interpret (settled : m.Settled) (source : String) :
    (m.interpret source).2.Settled := by
  refine ⟨(settled.alike.interpret source).2.2, ?_⟩
  match compiled : StackScript.compile source m.pool with
  | (.error diagnostics, pool) =>
    rw [(quiet_interpret_of_error compiled).2.pool]
    exact textual_compile settled.textual compiled
  | (.ok chunk, pool) =>
    have textual := textual_compile settled.textual compiled
    rw [Machine.interpret, Machine.compile, compiled]
    dsimp only
    rw [pool_interpretChunk]
    exact textual.gather (proceeds_run ({ m with pool }.begun chunk) chunk).gathers

/-- **At no moment of a source does anything dangle.** -/
theorem Settled.wellFormed_of_mem_moments (settled : m.Settled) (mem : i ∈ m.moments source) :
    i.WellFormed := by
  match compiled : StackScript.compile source m.pool with
  | (.error diagnostics, pool) =>
    have textual := textual_compile settled.textual compiled
    have grown := settled.alike.grow (grows_of_compile compiled) (grows_of_compile compiled)
    obtain ⟨after, moment, quiet⟩ := moments_of_error compiled
    rw [moment] at mem
    obtain rfl := List.mem_singleton.1 mem
    exact Settled.wellFormed ⟨grown.quiet quiet quiet, quiet.pool ▸ textual⟩ nofun
  | (.ok chunk, pool) =>
    obtain ⟨holds, linked⟩ := holds_of_compile compiled
    have textual := textual_compile settled.textual compiled
    have grown := settled.alike.grow (grows_of_compile compiled) (grows_of_compile compiled)
    rw [moments_of_ok compiled] at mem
    obtain ⟨after, found, rfl⟩ := List.mem_map.1 mem
    have gathers := (proceeds_of_mem_passed found).gathers
    have alike := (grown.begun chunk chunk).of_mem_passed holds
      (Program.alike_code _ linked linked) found
    refine Settled.wellFormed ⟨alike, textual.gather gathers⟩ fun v mem => ?_
    obtain ⟨d, content⟩ := exists_content?_of_compile compiled v mem
    exact ⟨d, Value.content?_of_grows gathers.grows content⟩

/-! ### Sessions -/

/-- Every moment of a session is well-formed. -/
theorem Settled.wellFormed_of_mem_history {sources : List String} (settled : m.Settled)
    (mem : i ∈ m.history sources) : i.WellFormed := by
  have now : Moment.WellFormed ⟨[], m⟩ := settled.wellFormed nofun
  induction sources generalizing m with
  | nil =>
    obtain rfl := List.mem_singleton.1 mem
    exact now
  | cons source others ih =>
    rcases List.mem_cons.1 mem with rfl | mem
    · exact now
    · rcases List.mem_append.1 mem with mem | mem
      · exact settled.wellFormed_of_mem_moments mem
      · have later := settled.interpret source
        exact ih later mem (later.wellFormed nofun)

/-- Every pool of a session extends the first one. -/
theorem grows_of_mem_history {sources : List String} (mem : i ∈ m.history sources) :
    m.pool.Grows i.machine.pool := by
  induction sources generalizing m with
  | nil =>
    obtain rfl := List.mem_singleton.1 mem
    exact .refl _
  | cons source others ih =>
    rcases List.mem_cons.1 mem with rfl | mem
    · exact .refl _
    · rcases List.mem_append.1 mem with mem | mem
      · exact (m.gains source).first i mem
      · exact (m.gains source).whole.trans (ih mem)

/-- The pools of a session extend one another in turn. -/
theorem pairwise_history (m : Machine) (sources : List String) :
    (m.history sources).Pairwise fun i j => i.machine.pool.Grows j.machine.pool := by
  induction sources generalizing m with
  | nil => exact List.pairwise_singleton ..
  | cons source others ih =>
    have gains := m.gains source
    have within : ∀ i ∈ m.history (source :: others), m.pool.Grows i.machine.pool :=
      fun i mem => grows_of_mem_history mem
    refine List.pairwise_cons.2 ⟨fun i mem => ?_, ?_⟩
    · exact within i (List.mem_cons_of_mem _ mem)
    · exact List.pairwise_append.2 ⟨gains.ordered, ih _, fun i first j second =>
        (gains.last i first).trans (grows_of_mem_history second)⟩

end Machine

/-! ## Main statement -/

/-- **No handle ever dangles.** At every moment of a session, whatever its sources are and
whatever the output accepts, nothing on the stack, among the constants or in the globals is
dangling, and texts are printed and compared by their bytes. A handle that stands for a
string goes on to stand for it. -/
theorem handles_stay_live (settings : Settings) (output errors : Sink) (sources : List String) :
    let history := (Machine.create settings output errors).history sources
    (history.Pairwise fun i j => ∀ h s, i.machine.pool.get? h = some s →
      j.machine.pool.get? h = some s) ∧
    ∀ i ∈ history, i.WellFormed ∧ i.Faithful := by
  intro history
  have settled : (Machine.create settings output errors).Settled :=
    ⟨Machine.alike_create settings output errors, StringPool.textual_empty⟩
  refine ⟨?_, fun i mem => ?_⟩
  · refine (Machine.pairwise_history _ sources).imp ?_
    intro i j grows h s live
    exact grows.get? live
  · have formed := settled.wellFormed_of_mem_history mem
    exact ⟨formed, formed.faithful⟩

end StackScript
