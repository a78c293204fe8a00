/-
# An interactive session is a fold over its lines

Input is cut after each line end (`Cut`), and the lines are run one after the other on one
machine, each after a prompt:

| line | is shown | then |
| --- | --- | --- |
| a text | what running it prints, whether or not it fails | the next line |
| no text | nothing | the session fails, and the program ends with exit 74 |
| none left | a line end | the session ends well, and the program with exit 0 |

The machine of the session is not one that only runs sources: prompts are printed on it, and it
may be asked to list each source. Neither is seen by a source. The two machines hold the same
globals (`Machine.Beside`), and what a source prints depends on these alone (`World.next_eq`).
So the session shows what `Machine.observations` says of the texts, with a prompt before each
(`Machine.Beside.exists_runLines`), and what a line defines is there for the lines behind it,
even if the line fails later on (`World.Completes.next_eq`).
-/
import StackScript.Proofs.Evaluator.Frame
import StackScript.Proofs.Observation
import StackScript.Proofs.Rejection
import StackScript.Proofs.Utf8

namespace StackScript

/-! ## Lines of the input -/

namespace CommandLine

/-- Some input is cut after each line end. Its last line may lack one. -/
inductive Cut : List UInt8 → List (List UInt8) → Prop where
  | nil : Cut [] []
  | last {line : List UInt8} : line ≠ [] → 10 ∉ line → Cut line [line]
  | cons {line input : List UInt8} {lines : List (List UInt8)} : 10 ∉ line → Cut input lines →
      Cut (line ++ 10 :: input) ((line ++ [10]) :: lines)

/-- A line and the lines behind it, from a byte that ends no line on. -/
theorem Cut.extend {b : UInt8} {rest : List UInt8} {lines : List (List UInt8)}
    (inside : b ≠ 10) :
    Cut rest lines → Cut (b :: rest) (match lines with
      | [] => [[b]]
      | line :: others => (b :: line) :: others) := by
  intro cut
  have outside {line : List UInt8} (clear : 10 ∉ line) : 10 ∉ b :: line :=
    List.not_mem_cons_of_ne_of_not_mem inside.symm clear
  cases cut with
  | nil => exact .last (List.cons_ne_nil _ _) (outside List.not_mem_nil)
  | last _ clear => exact .last (List.cons_ne_nil _ _) (outside clear)
  | cons clear cut => exact .cons (outside clear) cut

/-- The lines of the input are what it is cut into. -/
theorem cut_inputLines (input : List UInt8) : Cut input (inputLines input) := by
  induction input with
  | nil => exact .nil
  | cons b rest ih =>
    rw [inputLines]
    split
    · rename_i ends
      subst ends
      have clear : 10 ∉ ([] : List UInt8) := List.not_mem_nil
      exact .cons clear ih
    · rename_i inside
      exact .extend inside ih

/-- What has no line end in it is one line, without its end. -/
theorem inputLines_of_not_mem {line : List UInt8} (present : line ≠ []) (clear : 10 ∉ line) :
    inputLines line = [line] := by
  induction line with
  | nil => exact absurd rfl present
  | cons b line ih =>
    rw [List.mem_cons, not_or] at clear
    rw [inputLines, if_neg (Ne.symm clear.1)]
    cases line with
    | nil => rfl
    | cons c line => rw [ih (List.cons_ne_nil _ _) clear.2]

/-- The first line goes up to the first line end, and the others follow. -/
theorem inputLines_append {line : List UInt8} (clear : 10 ∉ line) (input : List UInt8) :
    inputLines (line ++ 10 :: input) = (line ++ [10]) :: inputLines input := by
  induction line with
  | nil => rw [List.nil_append, inputLines, if_pos rfl, List.nil_append]
  | cons b line ih =>
    rw [List.mem_cons, not_or] at clear
    rw [List.cons_append, inputLines, if_neg (Ne.symm clear.1), ih clear.2, List.cons_append]

/-- There is one way to cut it. -/
theorem Cut.eq {input : List UInt8} {lines : List (List UInt8)} (cut : Cut input lines) :
    inputLines input = lines := by
  induction cut with
  | nil => rfl
  | last present clear => exact inputLines_of_not_mem present clear
  | cons clear _ ih => rw [inputLines_append clear, ih]

/-- The first lines of some input are these texts. Behind them the input ends, or a line
follows that is no text. -/
structure Reads (input : List UInt8) (texts : List String) (rest : List (List UInt8)) : Prop where
  cut : Cut input (texts.map (Utf8.encode ·.toList) ++ rest)
  stops : ∀ line ∈ rest.head?, ∀ text, line ≠ Utf8.encode text

/-- Lines are read up to the first that is no text. -/
theorem exists_texts (lines : List (List UInt8)) :
    ∃ (texts : List String) (rest : List (List UInt8)),
      lines = texts.map (Utf8.encode ·.toList) ++ rest ∧
        ∀ line ∈ rest.head?, ∀ text, line ≠ Utf8.encode text := by
  induction lines with
  | nil => exact ⟨[], [], rfl, nofun⟩
  | cons line others ih =>
    cases read : Utf8.decode? line with
    | none =>
      refine ⟨[], line :: others, rfl, fun bad first => ?_⟩
      obtain rfl := Option.some.inj first
      exact Utf8.decode?_eq_none_iff.1 read
    | some text =>
      obtain ⟨texts, rest, split, stops⟩ := ih
      refine ⟨String.ofList text :: texts, rest, ?_, stops⟩
      rw [List.map_cons, List.cons_append, ← split, String.toList_ofList,
        ← Utf8.decode?_eq_some_iff.1 read]

/-- What is split into lines is read as their texts, up to the first one that is no text. -/
theorem Reads.of_inputLines {input : List UInt8} {texts : List String} {rest : List (List UInt8)}
    (split : inputLines input = texts.map (Utf8.encode ·.toList) ++ rest)
    (stops : ∀ line ∈ rest.head?, ∀ text, line ≠ Utf8.encode text) : Reads input texts rest :=
  ⟨split ▸ cut_inputLines input, stops⟩

/-- Every input is read in some way. -/
theorem exists_reads (input : List UInt8) : ∃ texts rest, Reads input texts rest := by
  obtain ⟨texts, rest, split, stops⟩ := exists_texts (inputLines input)
  exact ⟨texts, rest, .of_inputLines split stops⟩

/-! ## Reading as it goes -/

/-- The next line of the input with its line end, and the input behind it. -/
def nextLine : List UInt8 → List UInt8 × List UInt8
  | [] => ([], [])
  | b :: rest =>
    if b = 10 then ([b], rest)
    else
      let (line, behind) := nextLine rest
      (b :: line, behind)

/-- Taking a line does not make the input longer. -/
theorem length_nextLine_le (input : List UInt8) : (nextLine input).2.length ≤ input.length := by
  induction input with
  | nil => rfl
  | cons b rest ih =>
    rw [nextLine]
    split
    · exact Nat.le_succ _
    · exact Nat.le_succ_of_le ih

/-- Taking a line makes the input shorter, if there is one. -/
theorem length_nextLine_lt {input : List UInt8} (left : (nextLine input).1 ≠ []) :
    (nextLine input).2.length < input.length := by
  cases input with
  | nil => exact absurd rfl left
  | cons b rest =>
    rw [nextLine]
    split
    · exact Nat.lt_succ_self _
    · exact Nat.lt_succ_of_le (length_nextLine_le rest)

/-- A session that reads a line when all lines before it have been run. -/
def serveInput (disassemble : Bool) (input : List UInt8) (m : Machine) :
    Except Failure Unit × Machine :=
  let m := prompt m
  if (nextLine input).1 = [] then endOfInput m
  else
    match runLine disassemble m (nextLine input).1 with
    | some m => serveInput disassemble (nextLine input).2 m
    | none => unreadableInput m
termination_by input.length
decreasing_by exact length_nextLine_lt ‹_›

/-- The line that is read first is the first of the lines. -/
theorem inputLines_cons (b : UInt8) (rest : List UInt8) :
    (nextLine (b :: rest)).1 ≠ [] ∧
      inputLines (b :: rest) = (nextLine (b :: rest)).1 :: inputLines (nextLine (b :: rest)).2 := by
  induction rest generalizing b with
  | nil =>
    rw [nextLine, inputLines]
    split <;> exact ⟨List.cons_ne_nil _ _, rfl⟩
  | cons c rest ih =>
    rw [nextLine, inputLines]
    split
    · exact ⟨List.cons_ne_nil _ _, rfl⟩
    · rw [(ih c).2]
      exact ⟨List.cons_ne_nil _ _, rfl⟩

/-- **A session that reads as it goes runs the lines of its input in turn.** -/
theorem serveInput_eq (disassemble : Bool) (input : List UInt8) (m : Machine) :
    serveInput disassemble input m = runLines disassemble (inputLines input) m := by
  fun_induction serveInput disassemble input m with
  | case1 input m shown ended =>
    cases input with
    | nil => rfl
    | cons b rest => exact absurd ended (inputLines_cons b rest).1
  | case2 input m shown present after run ih =>
    cases input with
    | nil => exact absurd rfl present
    | cons b rest =>
      rw [(inputLines_cons b rest).2, runLines, run]
      exact ih
  | case3 input m shown present unread =>
    cases input with
    | nil => exact absurd rfl present
    | cons b rest =>
      rw [(inputLines_cons b rest).2, runLines, unread]

/-! ## Lines and texts -/

/-- A line that is a text is run. -/
theorem runLine_encode (disassemble : Bool) (m : Machine) (text : String) :
    runLine disassemble m (Utf8.encode text.toList) =
      some (execute m text "repl" disassemble).2 := by
  rw [runLine, Utf8.decode?_eq_some_iff.2 rfl, Option.map_some, String.ofList_toList]

/-- Behind the texts a session ends. -/
theorem runLines_of_stops {rest : List (List UInt8)}
    (stops : ∀ line ∈ rest.head?, ∀ text, line ≠ Utf8.encode text) (disassemble : Bool)
    (m : Machine) :
    runLines disassemble rest m =
      if rest = [] then endOfInput (prompt m) else unreadableInput (prompt m) := by
  cases rest with
  | nil => rfl
  | cons line others =>
    have unread : Utf8.decode? line = none := Utf8.decode?_eq_none_iff.2 (stops line rfl)
    rw [runLines, runLine, unread]
    rfl

end CommandLine

/-! ## What a source does to a world -/

namespace World

variable {limit : Nat} {w : World} {source : String}

/-- The world with nothing printed. -/
def silent (w : World) : World :=
  { w with output := [] }

/-- What was printed can be put back. -/
theorem behind_silent (w : World) : w.silent.behind w.output = w := by
  rw [behind, silent, List.append_nil]

/-- An accepted source leaves the world in which its evaluation ends. -/
theorem next_of_accepted (accepted : (ParsedSource.ofSource source).diagnostics = []) :
    w.next limit source =
      Evaluation.left ((ParsedSource.ofSource source).program.eval limit w) := by
  rw [next, if_pos accepted]
  cases (ParsedSource.ofSource source).program.eval limit w <;> rfl

/-- A refused source changes no world. -/
theorem next_of_refused (refused : (ParsedSource.ofSource source).diagnostics ≠ []) :
    w.next limit source = w :=
  if_neg refused

/-- What a source does to a world does not depend on what was printed before. -/
theorem next_behind (w : World) (limit : Nat) (source : String) (bytes : List UInt8) :
    (w.behind bytes).next limit source = (w.next limit source).behind bytes := by
  by_cases accepted : (ParsedSource.ofSource source).diagnostics = []
  · have oblivious := Evaluation.framed_oblivious.declarations limit
      (ParsedSource.ofSource source).program.declarations w bytes
    rw [next_of_accepted accepted, next_of_accepted accepted, Program.eval, oblivious]
    cases Declaration.evalAll limit (ParsedSource.ofSource source).program.declarations w <;> rfl
  · rw [next_of_refused accepted, next_of_refused accepted]

/-- So it is told by what the source does to the world with nothing printed. -/
theorem next_eq (w : World) (limit : Nat) (source : String) :
    w.next limit source = (w.silent.next limit source).behind w.output := by
  rw [← next_behind, behind_silent]

/-- A source unbinds nothing. -/
theorem isSome_next {name : List UInt8} (bound : (w.globals name).isSome) :
    ((w.next limit source).globals name).isSome := by
  by_cases accepted : (ParsedSource.ofSource source).diagnostics = []
  · rw [next_of_accepted accepted]
    exact Evaluation.framed_retains.declarations limit _ w name bound
  · rwa [next_of_refused accepted]

/-- The first statements of an accepted source end well, and leave a world to the others. -/
structure Completes (limit : Nat) (w : World) (source : String)
    (done others : List Declaration) (after : World) : Prop where
  accepted : compiles source = true
  split : (ParsedSource.ofSource source).program.declarations = done ++ others
  ends : Declaration.evalAll limit done w = .ok () after

/-- **The other statements go on from there,** however they end. -/
theorem Completes.next_eq {done others : List Declaration} {after : World}
    (completes : w.Completes limit source done others after) :
    w.next limit source = Evaluation.left (Declaration.evalAll limit others after) := by
  rw [next_of_accepted (compiles_iff.1 completes.accepted), Program.eval, completes.split,
    Declaration.evalAll_append completes.ends]

/-- A name that is bound stays bound. -/
theorem isSome_foldl_next {name : List UInt8} (bound : (w.globals name).isSome)
    (sources : List String) : ((sources.foldl (next limit) w).globals name).isSome := by
  induction sources generalizing w with
  | nil => exact bound
  | cons source others ih => exact ih (isSome_next bound)

end World

/-! ## Sources on an idle machine -/

namespace Machine

variable {limit : Nat} {m : Machine}

/-- Sources that are interpreted in turn change the world one after the other. -/
theorem Idle.interpretAll (idle : m.Idle limit) (sources : List String) :
    (m.interpretAll sources).Idle limit ∧
      (m.interpretAll sources).world = sources.foldl (World.next limit) m.world := by
  induction sources generalizing m with
  | nil => exact ⟨idle, rfl⟩
  | cons source others ih =>
    obtain ⟨after, world⟩ := idle.interpret source
    rw [List.foldl_cons, ← world]
    exact ih after

/-- What a source prints, according to the globals. -/
theorem Idle.printed_observe (idle : m.Idle limit) (source : String) :
    (m.observe source).printed = (m.world.silent.next limit source).output := by
  have world := (idle.interpret source).2
  rw [World.next_eq] at world
  have printed : (m.interpret source).2.printed =
      m.printed ++ (m.world.silent.next limit source).output := congrArg World.output world
  rw [observe]
  dsimp only
  rw [printed, List.drop_left]

/-- All sources behind some statements that end well go on from where these end. -/
theorem Idle.world_of_completes (idle : m.Idle limit) {source : String}
    {done others : List Declaration} {w : World}
    (completes : m.world.Completes limit source done others w) (sources : List String) :
    (m.interpretAll (source :: sources)).world = sources.foldl (World.next limit)
      (Evaluation.left (Declaration.evalAll limit others w)) := by
  rw [(idle.interpretAll (source :: sources)).2, List.foldl_cons, completes.next_eq]

/-- A new machine is at rest. -/
theorem idle_unlimited (settings : Settings) :
    (create settings .unlimited .unlimited).Idle settings.stackMax :=
  idle_create settings ⟨fun _ _ => rfl, fun _ => rfl⟩

/-- Noting an event leaves a machine at rest. -/
theorem Idle.note (idle : m.Idle limit) (event : Event) : (m.note event).Idle limit :=
  ⟨idle.sound.congr rfl rfl rfl, idle.empty, idle.limit⟩

/-- A source does to the world what it does to it unlisted. -/
theorem Idle.execute (idle : m.Idle limit) (source title : String) (disassemble : Bool) :
    (CommandLine.execute m source title disassemble).2.Idle limit ∧
      (CommandLine.execute m source title disassemble).2.world = m.world.next limit source := by
  obtain ⟨after, world⟩ := idle.interpret source
  cases disassemble with
  | false => exact ⟨after, world⟩
  | true =>
    have listed := (m.discloses_execute source title).quiet
    exact ⟨listed.idle after, listed.world.trans world⟩

/-- Two idle machines hold the same globals. -/
structure Beside (limit : Nat) (m r : Machine) : Prop where
  idle : m.Idle limit
  idle' : r.Idle limit
  globals : r.world.globals = m.world.globals

namespace Beside

open CommandLine

variable {r : Machine}

/-- Both machines show the same text for a global. -/
theorem globalText_eq (beside : m.Beside limit r) (name : List Char) :
    r.globalText name = m.globalText name := by
  rw [beside.idle'.sound.rooted.globalText_eq, beside.idle.sound.rooted.globalText_eq,
    beside.globals]

/-- Whatever is noted is seen on one machine only, and does not matter for the other. -/
theorem note (beside : m.Beside limit r) (event : Event) : m.Beside limit (r.note event) :=
  ⟨beside.idle, beside.idle'.note event, beside.globals⟩

/-- A source prints the same on both, and leaves them with the same globals. -/
theorem execute (beside : m.Beside limit r) (source title : String) (disassemble : Bool) :
    (m.interpret source).2.Beside limit (CommandLine.execute r source title disassemble).2 ∧
      (CommandLine.execute r source title disassemble).2.printed =
        r.printed ++ (m.observe source).printed := by
  obtain ⟨after, world⟩ := beside.idle.interpret source
  obtain ⟨after', world'⟩ := beside.idle'.execute source title disassemble
  have silent : r.world.silent = m.world.silent := by
    rw [World.silent, World.silent, beside.globals]
  rw [World.next_eq] at world world'
  refine ⟨⟨after, after', ?_⟩, ?_⟩
  · rw [world, world', silent]
    rfl
  · rw [beside.idle.printed_observe, ← silent]
    exact congrArg World.output world'

/-- **The texts of a session print what they print in turn,** each behind a prompt. The lines
behind them go on from there. -/
theorem exists_runLines (beside : m.Beside limit r) (disassemble : Bool) (texts : List String) :
    ∃ after, (m.interpretAll texts).Beside limit after ∧
      after.printed =
        r.printed ++ (m.observations texts).flatMap (textBytes ["> "] ++ ·.printed) ∧
      ∀ rest, runLines disassemble (texts.map (Utf8.encode ·.toList) ++ rest) r =
        runLines disassemble rest after := by
  induction texts generalizing m r with
  | nil => exact ⟨r, beside, (List.append_nil _).symm, fun rest => rfl⟩
  | cons text others ih =>
    obtain ⟨executed, printed⟩ := (beside.note (.printed "> ")).execute text "repl" disassemble
    obtain ⟨after, last, behind, runs⟩ := ih executed
    refine ⟨after, last, ?_, fun rest => ?_⟩
    · rw [behind, printed, printed_note, observations, List.flatMap_cons, List.append_assoc,
        List.append_assoc, List.append_assoc]
      rfl
    · rw [List.map_cons, List.cons_append, runLines, runLine_encode]
      exact runs rest

/-- What was run of a line before its fault is not lost: the lines behind it go on from there,
and the globals that it defined stay so. -/
theorem globalText_of_completes (idle : m.Idle limit) {earlier between : List String}
    {line : String} {done others : List Declaration} {w : World}
    (beside : (m.interpretAll (earlier ++ line :: between)).Beside limit r)
    (completes : (m.interpretAll earlier).world.Completes limit line done others w)
    (name : List Char) :
    let later := between.foldl (World.next limit)
      (Evaluation.left (Declaration.evalAll limit others w))
    r.globalText name = (later.globals (Utf8.encode name)).map Datum.toText ∧
      ((w.globals (Utf8.encode name)).isSome → (r.globalText name).isSome) := by
  intro later
  have world : (m.interpretAll (earlier ++ line :: between)).world = later := by
    rw [interpretAll, List.foldl_append]
    exact (idle.interpretAll earlier).1.world_of_completes completes between
  have text : r.globalText name = (later.globals (Utf8.encode name)).map Datum.toText := by
    rw [beside.idle'.sound.rooted.globalText_eq, beside.globals, world]
  refine ⟨text, fun bound => ?_⟩
  have stays : ((Evaluation.left (Declaration.evalAll limit others w)).globals
      (Utf8.encode name)).isSome :=
    Evaluation.framed_retains.declarations limit others w _ bound
  rw [text, Option.isSome_map]
  exact World.isSome_foldl_next stays between

end Beside
end Machine

namespace CommandLine

/-! ## What a session writes -/

/-- What the program writes to the standard output. -/
def Outcome.output (outcome : Outcome) : List UInt8 :=
  textBytes (outcome.events.map outputText)

/-- The bytes of the texts that are written out are those of the events. -/
theorem textBytes_map_outputText (events : List Event) :
    textBytes (events.map outputText) = events.flatMap Event.bytes := by
  rw [textBytes, List.flatMap_map]
  refine congrArg (events.flatMap ·) (funext fun event => ?_)
  cases event <;> rfl

/-- A session that ends prints nothing more. -/
theorem printed_close (m : Machine) : m.close.printed = m.printed := by
  unfold Machine.close Machine.freeStrings
  dsimp only
  split
  · rfl
  · exact (Machine.quiet_log ..).printed

/-- What was printed in a session is written. Warnings of the logger are not. -/
theorem output_eq (exit : ExitCode) (warnings : List String) (m : Machine)
    (shows : Log.Record → Bool) :
    Outcome.output ⟨exit, warnings.map .reported ++ m.close.transcript.toList, shows⟩ =
      m.printed := by
  have warned : (warnings.map Event.reported).flatMap Event.bytes = [] := by
    rw [List.flatMap_map]
    exact List.flatMap_eq_nil_iff.2 fun _ _ => rfl
  rw [Outcome.output, textBytes_map_outputText, List.flatMap_append, warned, List.nil_append]
  exact printed_close m

/-- A failure that ends a session is logged, and prints nothing. -/
theorem printed_afterSession (wording : List String → String)
    (session : Except Failure Unit × Machine) :
    (afterSession wording session).2.printed = session.2.printed := by
  obtain ⟨result, m⟩ := session
  cases result with
  | ok => rfl
  | error failure =>
    rw [afterSession, fail, Machine.printed_note]
    exact List.append_nil _

/-- **Without a path, the program is a session,** whatever libraries it uses: it writes what the
session prints, and its exit code tells how the session ends. -/
theorem exists_run_eq {libraries : Libraries} {system : System} {args : List String} {o : Options}
    {settings : Settings} (asked : libraries.options args = .ok o) (interactive : o.path = none)
    (configured : o.settings libraries system.files = .ok settings)
    (fits : system.fits settings.stackMax = true) (input : List UInt8) :
    let session := serveInput o.disassemble input (start settings)
    ∃ outcome, run libraries system args input = some outcome ∧
      outcome.output = session.2.printed ∧
      outcome.exit = (afterSession libraries.wording session).1 := by
  intro session
  let last := afterSession libraries.wording session
  let logger := o.logger libraries system
  have output := output_eq last.1 logger.warnings last.2 logger.shows
  refine ⟨_, ?_, output.trans (printed_afterSession libraries.wording session), rfl⟩
  rw [run, asked]
  dsimp only
  rw [configured]
  dsimp only
  rw [if_pos fits, interactive, ← serveInput_eq]

/-- Some texts that a session starts with take its machine along. -/
theorem exists_reached (settings : Settings) (disassemble : Bool) (texts : List String) :
    let m := Machine.create settings .unlimited .unlimited
    ∃ now, (m.interpretAll texts).Beside settings.stackMax now ∧
      now.printed = (m.observations texts).flatMap (textBytes ["> "] ++ ·.printed) ∧
      ∀ lines, runLines disassemble (texts.map (Utf8.encode ·.toList) ++ lines) (start settings) =
        runLines disassemble lines now := by
  intro m
  have idle := Machine.idle_unlimited settings
  have started : m.Beside settings.stackMax (start settings) :=
    Machine.Beside.note ⟨idle, idle, rfl⟩ _
  exact started.exists_runLines disassemble texts

/-- Behind the texts in front of the input the session ends, where these have led. -/
theorem Reads.serveInput_eq {input : List UInt8} {texts : List String} {rest : List (List UInt8)}
    (reads : Reads input texts rest) {disassemble : Bool} {m after : Machine}
    (runs : ∀ lines, runLines disassemble (texts.map (Utf8.encode ·.toList) ++ lines) m =
      runLines disassemble lines after) :
    serveInput disassemble input m =
      if rest = [] then endOfInput (prompt after) else unreadableInput (prompt after) := by
  rw [CommandLine.serveInput_eq, reads.cut.eq, runs rest, runLines_of_stops reads.stops]

/-! ## Main statement -/

/-- **A session is a fold over the lines of its input.** The input has texts in front, and
behind them it ends, or a line follows that is no text. Each text is run behind a prompt, all
on one machine, and prints what it prints there, listed or not. How the session ends depends
only on what stands behind the texts, and nothing depends on what follows the line that is no
text.

When a line is read, all lines before it have been run. What was run of them before a fault is
not lost: what comes later goes on from there, and the globals that were defined stay so.

The program is such a session if it is started without a path, whatever its libraries make of
its arguments, its settings file and its log: it writes what the session prints. -/
theorem session_folds_lines (settings : Settings) (disassemble : Bool) (input : List UInt8) :
    (∃ texts rest, Reads input texts rest) ∧
    ∀ texts rest, Reads input texts rest →
      let m := Machine.create settings .unlimited .unlimited
      let shown texts := (m.observations texts).flatMap (textBytes ["> "] ++ ·.printed)
      let session := serveInput disassemble input (start settings)
      session.1 = (if rest = [] then .ok () else .error .input) ∧
      session.2.printed =
        shown texts ++ textBytes (if rest = [] then ["> ", "\n"] else ["> "]) ∧
      (∀ input' rest', rest ≠ [] → rest' ≠ [] → Reads input' texts rest' →
        serveInput disassemble input' (start settings) = session) ∧
      (∀ before behind, texts = before ++ behind →
        ∃ now, session =
            runLines disassemble (behind.map (Utf8.encode ·.toList) ++ rest) now ∧
          now.printed = shown before ∧
          (∀ name, now.globalText name = (m.interpretAll before).globalText name) ∧
          ∀ earlier line between done others w, before = earlier ++ line :: between →
            (m.interpretAll earlier).world.Completes settings.stackMax line done others w →
            let later := between.foldl (World.next settings.stackMax)
              (Evaluation.left (Declaration.evalAll settings.stackMax others w))
            ∀ name, now.globalText name =
                (later.globals (Utf8.encode name)).map Datum.toText ∧
              ((w.globals (Utf8.encode name)).isSome → (now.globalText name).isSome)) ∧
      ∀ (libraries : Libraries) (system : System) (args : List String) (o : Options),
        libraries.options args = .ok o → o.path = none → o.disassemble = disassemble →
        o.settings libraries system.files = .ok settings →
        system.fits settings.stackMax = true →
        ∃ outcome, run libraries system args input = some outcome ∧
          outcome.output = session.2.printed ∧
          outcome.exit.toNat = (if rest = [] then 0 else 74) := by
  refine ⟨exists_reads input, fun texts rest reads => ?_⟩
  intro m shown session
  obtain ⟨after, -, printed, runs⟩ := exists_reached settings disassemble texts
  have ended : session = if rest = [] then _ else _ := reads.serveInput_eq runs
  refine ⟨?_, ?_, fun input' rest' unread unread' reads' => ?_, fun before behind cut => ?_, ?_⟩
  · rw [ended]
    split <;> rfl
  · rw [ended]
    split
    · rw [endOfInput, Machine.printed_note, prompt, Machine.printed_note, printed,
        List.append_assoc]
      rfl
    · rw [unreadableInput, prompt, Machine.printed_note, printed]
      rfl
  · rw [ended, reads'.serveInput_eq runs, if_neg unread, if_neg unread']
  · obtain ⟨now, beside, printed, runs⟩ := exists_reached settings disassemble before
    refine ⟨now, ?_, printed, beside.globalText_eq, ?_⟩
    · rw [show session = _ from serveInput_eq .., reads.cut.eq, cut, List.map_append,
        List.append_assoc, runs]
    · rintro earlier line between done others w rfl completes later name
      exact beside.globalText_of_completes (Machine.idle_unlimited settings) completes name
  · rintro libraries system args o asked interactive rfl configured fits
    obtain ⟨outcome, ran, output, exit⟩ := exists_run_eq asked interactive configured fits input
    refine ⟨outcome, ran, output, ?_⟩
    rw [exit, show serveInput _ input (start settings) = _ from ended]
    split <;> rfl

/-- A session whose first line fails behind a definition, whose second line is refused, and
whose fourth line is no text. -/
theorem session_folds_lines_listed :
    let libraries : Libraries :=
      { options args :=
          if args = ["--disassemble"] then .ok { disassemble := true }
          else .error ⟨"unexpected argument", true⟩
        settings _ := .ok default
        wording chain := "\n\nCaused by:\n    ".intercalate chain
        logger _ _ := ⟨[], fun r => r.level = .error || r.level = .warn⟩ }
    let system : System := ⟨fun _ => .error "No such file or directory (os error 2)", none,
      (· ≤ 1000000)⟩
    let texts := ["var a = 1; print nope;\n", "print\n", "print a;\n"]
    let rest : List (List UInt8) := [[0xFF, 10], Utf8.encode "print 2;\n".toList]
    let input := textBytes texts ++ rest.flatten
    Reads input texts rest ∧
      (∃ outcome, run libraries system ["--disassemble"] input = some outcome ∧
        outcome.output = textBytes ["> ", "> ", "> ", "1\n", "> "] ∧ outcome.exit.toNat = 74) ∧
      serveInput true (textBytes texts ++ [0x80]) (start ⟨256, false⟩) =
        serveInput true input (start ⟨256, false⟩) ∧
      ∃ now, serveInput true input (start ⟨256, false⟩) =
          runLines true (texts.tail.map (Utf8.encode ·.toList) ++ rest) now ∧
        now.globalText ['a'] = some "1" := by
  intro libraries system texts rest input
  have stops (line : List UInt8) (unread : Utf8.decode? line = none) (others : List (List UInt8)) :
      ∀ first ∈ (line :: others).head?, ∀ text, first ≠ Utf8.encode text := by
    rintro _ ⟨⟩
    exact Utf8.decode?_eq_none_iff.1 unread
  have reads : Reads input texts rest :=
    .of_inputLines (by decide +kernel) (stops _ (by decide) _)
  have reads' : Reads (textBytes texts ++ [0x80]) texts [[0x80]] :=
    .of_inputLines (by decide +kernel) (stops _ (by decide) _)
  obtain ⟨-, printed, same, reached, runs⟩ :=
    (session_folds_lines ⟨256, false⟩ true input).2 texts rest reads
  obtain ⟨outcome, ran, output, exit⟩ :=
    runs libraries system ["--disassemble"] { disassemble := true } rfl rfl rfl rfl rfl
  obtain ⟨now, goes, -, -, kept⟩ := reached (texts.take 1) texts.tail rfl
  refine ⟨reads, ⟨outcome, ran, (output.trans printed).trans (by decide +kernel), exit⟩,
    same _ [[0x80]] (List.cons_ne_nil _ _) (List.cons_ne_nil _ _) reads', now, goes, ?_⟩
  refine (kept [] "var a = 1; print nope;\n" [] [.define ['a'] 1 (some (.literal (.int 1) 1)) 1]
    [.print (.global ['n', 'o', 'p', 'e'] 1) 1]
    (.bind ⟨fun _ => none, []⟩ (Utf8.encode ['a']) (.int 1)) rfl ⟨?_, ?_, ?_⟩ ['a']).1
  · decide +kernel
  · decide +kernel
  · rw [Machine.interpretAll, List.foldl_nil, Machine.world_create]
    rfl

end CommandLine
end StackScript
