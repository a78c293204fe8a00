/-
# Two machines that differ in handles only

Two machines are alike (`Machine.Alike`) if they hold the same world, have the same output,
and the values on their stacks are alike, each to the one in its place. Strings that only
one of them has do not matter, as nothing is bound to them.

Alike instructions take alike machines to alike machines (`Alike.step`): whatever one of the
two machines does, the other does, with handles of its own. Runs of alike code therefore
stay side by side to the end (`Alike.runSlots`), and end in the same way; if the second code
stands further down in its source, so does the line of a fault (`Ending.shift`).
-/
import StackScript.Proofs.Machine.Frame
import StackScript.Proofs.Renaming
import StackScript.Proofs.Simulation

namespace StackScript
namespace Machine

/-- Two machines that differ in handles only, as far as a program can see. -/
structure Alike (m m' : Machine) : Prop where
  values : List.Forall₂ (Value.Alike m.pool m'.pool) m.stack.values m'.stack.values
  limit : m'.stack.limit = m.stack.limit
  rooted : m.Rooted
  rooted' : m'.Rooted
  world : m'.world = m.world
  output : m'.output = m.output

variable {m m' after after' : Machine} {v v' : Value} {h h' : Handle} {s s' : StoredString}
  {name : List UInt8}

namespace Alike

/-- Machines that are alike have printed the same. -/
theorem printed (alike : m.Alike m') : m'.printed = m.printed :=
  congrArg World.output alike.world

/-- What was logged or reported does not matter. -/
theorem quiet (alike : m.Alike m') (quiet : m.Quiet after) (quiet' : m'.Quiet after') :
    after.Alike after' where
  values := by rw [quiet.stack, quiet'.stack, quiet.pool, quiet'.pool]; exact alike.values
  limit := by rw [quiet.stack, quiet'.stack]; exact alike.limit
  rooted := alike.rooted.congr quiet.globals quiet.pool
  rooted' := alike.rooted'.congr quiet'.globals quiet'.pool
  world := by rw [quiet.world, quiet'.world]; exact alike.world
  output := by rw [quiet.output, quiet'.output]; exact alike.output

/-- Strings that were added to either pool do not matter. -/
theorem grow {pool pool' : StringPool} (alike : m.Alike m') (grows : m.pool.Grows pool)
    (grows' : m'.pool.Grows pool') : { m with pool }.Alike { m' with pool := pool' } where
  values := alike.values.imp fun _ _ both => both.grow grows grows'
  limit := alike.limit
  rooted := alike.rooted.grow grows
  rooted' := alike.rooted'.grow grows'
  world := by rw [alike.rooted.world_grow grows, alike.rooted'.world_grow grows', alike.world]
  output := alike.output

/-- Machines that are alike stay alike with values that are. -/
theorem withValues {values values' : List Value} (alike : m.Alike m')
    (both : List.Forall₂ (Value.Alike m.pool m'.pool) values values')
    (h : values.length ≤ m.stack.limit) (h' : values'.length ≤ m'.stack.limit) :
    (m.withValues values h).Alike (m'.withValues values' h') where
  values := both
  limit := alike.limit
  rooted := alike.rooted.congr rfl rfl
  rooted' := alike.rooted'.congr rfl rfl
  world := alike.world
  output := alike.output

/-- Printing the same keeps what is bound. -/
theorem congr (alike : m.Alike m')
    (stack : after.stack = m.stack) (stack' : after'.stack = m'.stack)
    (globals : after.globals = m.globals) (globals' : after'.globals = m'.globals)
    (pool : after.pool = m.pool) (pool' : after'.pool = m'.pool)
    (output : after'.output = after.output) (printed : after'.printed = after.printed) :
    after.Alike after' where
  values := by rw [stack, stack', pool, pool']; exact alike.values
  limit := by rw [stack, stack']; exact alike.limit
  rooted := alike.rooted.congr globals pool
  rooted' := alike.rooted'.congr globals' pool'
  world := by
    have bindings : m'.world.globals = m.world.globals := congrArg World.globals alike.world
    rw [Machine.world, Machine.world, World.mk.injEq, globals, globals', pool, pool']
    exact ⟨bindings, printed⟩
  output := output

/-! ## Stack -/

/-- Alike values are pushed alike. -/
theorem push (alike : m.Alike m') (both : Value.Alike m.pool m'.pool v v') :
    Matches Alike (m.push v) (m'.push v') := by
  have length := alike.values.length_eq
  have limit := alike.limit
  by_cases free : m.stack.values.length < m.stack.limit
  · have free' : m'.stack.values.length < m'.stack.limit := by omega
    rw [push_of_lt v free, push_of_lt v' free']
    exact .ok (alike.withValues (.cons both alike.values) free free')
  · rw [push_of_le v (Nat.not_lt.1 free), push_of_le v' (by omega), limit]
    exact .error _

/-- Alike values are taken off. -/
theorem pop (alike : m.Alike m') :
    Matches (fun p p' => Value.Alike p.2.pool p'.2.pool p.1 p'.1 ∧ p.2.Alike p'.2) m.pop
      m'.pop := by
  have values := alike.values
  generalize top : m.stack.values = base, top' : m'.stack.values = base' at values
  cases values with
  | nil =>
    rw [pop_of_nil top, pop_of_nil top']
    exact .error _
  | cons first below =>
    obtain ⟨room, popped⟩ := pop_of_cons top
    obtain ⟨room', popped'⟩ := pop_of_cons top'
    rw [popped, popped']
    exact .ok ⟨first, alike.withValues below room room'⟩

/-- Alike operations on the top values give alike machines. -/
theorem mapTop {f : Value → Except RuntimeFault Value} (alike : m.Alike m')
    (both : ∀ b b', Value.Alike m.pool m'.pool b b' →
      Matches (Value.Alike m.pool m'.pool) (f b) (f b')) :
    Matches Alike (m.mapTop f) (m'.mapTop f) := by
  have values := alike.values
  generalize top : m.stack.values = base, top' : m'.stack.values = base' at values
  cases values with
  | nil =>
    rw [mapTop_of_nil top, mapTop_of_nil top']
    exact .error _
  | @cons b b' below below' first rest =>
    have computed := both b b' first
    generalize eq : f b = x, eq' : f b' = x' at computed
    cases computed with
    | ok result =>
      obtain ⟨room, mapped⟩ := mapTop_of_ok top eq
      obtain ⟨room', mapped'⟩ := mapTop_of_ok top' eq'
      rw [mapped, mapped']
      exact .ok (alike.withValues (.cons result rest) room room')
    | error fault =>
      rw [mapTop_of_error top eq, mapTop_of_error top' eq']
      exact .error fault

/-- Alike operations on the two top values give alike machines. -/
theorem mapTop2 {f : Value → Value → Except RuntimeFault Value} (alike : m.Alike m')
    (both : ∀ a a' b b', Value.Alike m.pool m'.pool a a' → Value.Alike m.pool m'.pool b b' →
      Matches (Value.Alike m.pool m'.pool) (f a b) (f a' b')) :
    Matches Alike (m.mapTop2 f) (m'.mapTop2 f) := by
  have values := alike.values
  generalize top : m.stack.values = base, top' : m'.stack.values = base' at values
  cases values with
  | nil =>
    rw [mapTop2_of_lt (by simp [top]), mapTop2_of_lt (by simp [top'])]
    exact .error _
  | @cons b b' below below' first others =>
    cases others with
    | nil =>
      rw [mapTop2_of_lt (by simp [top]), mapTop2_of_lt (by simp [top'])]
      exact .error _
    | @cons a a' base base' second rest =>
      have computed := both a a' b b' second first
      generalize eq : f a b = x, eq' : f a' b' = x' at computed
      cases computed with
      | ok result =>
        obtain ⟨room, mapped⟩ := mapTop2_of_ok top eq
        obtain ⟨room', mapped'⟩ := mapTop2_of_ok top' eq'
        rw [mapped, mapped']
        exact .ok (alike.withValues (.cons result rest) room room')
      | error fault =>
        rw [mapTop2_of_error top eq, mapTop2_of_error top' eq']
        exact .error fault

/-! ## Addition -/

/-- Alike values refer to equal strings, or both to none. -/
theorem string? (both : Value.Alike m.pool m'.pool v v') :
    Option.Rel (fun s s' => s'.bytes = s.bytes) (m.string? v) (m'.string? v') := by
  obtain ⟨d, content, content'⟩ := both
  by_cases text : ∃ bytes, d = .text bytes
  · obtain ⟨bytes, rfl⟩ := text
    obtain ⟨k, s, rfl, live, eq⟩ := Value.eq_object_of_content? content
    obtain ⟨k', s', rfl, live', eq'⟩ := Value.eq_object_of_content? content'
    rw [Machine.string?, Machine.string?, live, live']
    exact .some (eq'.trans eq.symm)
  · have other (bytes : List UInt8) : d ≠ .text bytes := fun eq => text ⟨bytes, eq⟩
    rw [string?_eq_none content other, string?_eq_none content' other]
    exact .none

/-- Equal strings are put into both pools, and their references pushed. -/
theorem intern {below below' : List Value} (alike : m.Alike m')
    (rest : List.Forall₂ (Value.Alike m.pool m'.pool) below below') (bytes : List UInt8)
    (h : (.object (m.pool.intern bytes).1 :: below : List Value).length ≤ m.stack.limit)
    (h' : (.object (m'.pool.intern bytes).1 :: below' : List Value).length ≤ m'.stack.limit) :
    ({ m with pool := (m.pool.intern bytes).2 }.withValues
        (.object (m.pool.intern bytes).1 :: below) h).Alike
      ({ m' with pool := (m'.pool.intern bytes).2 }.withValues
        (.object (m'.pool.intern bytes).1 :: below') h') := by
  have grows := StringPool.grows_intern m.pool bytes
  have grows' := StringPool.grows_intern m'.pool bytes
  have new : Value.Alike (m.pool.intern bytes).2 (m'.pool.intern bytes).2
      (.object (m.pool.intern bytes).1) (.object (m'.pool.intern bytes).1) := by
    refine ⟨.text bytes, ?_, ?_⟩ <;> rw [Value.content?, StringPool.get?_intern_self] <;> rfl
  exact (alike.grow grows grows').withValues
    (.cons new (rest.imp fun _ _ both => both.grow grows grows')) h h'

/-- Additions are alike, also of texts, which get handles of their own. -/
theorem add (alike : m.Alike m') : Matches Alike m.add m'.add := by
  have values := alike.values
  generalize top : m.stack.values = base, top' : m'.stack.values = base' at values
  cases values with
  | nil =>
    rw [add_of_lt (by simp [top]), add_of_lt (by simp [top'])]
    exact .error _
  | @cons b b' below below' first others =>
    cases others with
    | nil =>
      rw [add_of_lt (by simp [top]), add_of_lt (by simp [top'])]
      exact .error _
    | @cons a a' base base' second rest =>
      have numbers : Matches Alike (m.mapTop2 (Value.arithmetic .add))
          (m'.mapTop2 (Value.arithmetic .add)) :=
        alike.mapTop2 fun _ _ _ _ => Value.Alike.arithmetic .add
      have left := string? second
      have right := string? first
      generalize hs : m.string? a = s?, hs' : m'.string? a' = s?' at left
      generalize ht : m.string? b = t?, ht' : m'.string? b' = t?' at right
      cases left with
      | none =>
        rw [add_of_not_texts top (.inl hs), add_of_not_texts top' (.inl hs')]
        exact numbers
      | @some s s' eqs =>
        cases right with
        | none =>
          rw [add_of_not_texts top (.inr ht), add_of_not_texts top' (.inr ht')]
          exact numbers
        | @some t t' eqt =>
          have joined := add_of_texts top hs ht
          have joined' := add_of_texts top' hs' ht'
          rw [eqs, eqt] at joined'
          obtain ⟨room, added⟩ := joined
          obtain ⟨room', added'⟩ := joined'
          rw [added, added']
          exact .ok (alike.intern rest (s.bytes ++ t.bytes) room room')

/-! ## Names -/

/-- One name is bound to alike values. -/
theorem find? (alike : m.Alike m') (live : m.pool.get? h = some s)
    (live' : m'.pool.get? h' = some s') (eq : s'.bytes = s.bytes) :
    Option.Rel (Value.Alike m.pool m'.pool) (m.globals.find? h) (m'.globals.find? h') := by
  have same := congrArg (World.globals · s.bytes) alike.world
  rw [globals_world live, ← eq, globals_world live'] at same
  cases bound : m.globals.find? h with
  | none =>
    rw [bound, Option.bind_none] at same
    cases bound' : m'.globals.find? h' with
    | none => exact .none
    | some v' =>
      obtain ⟨d, content⟩ := alike.rooted'.values h' v' bound'
      rw [bound', Option.bind_some, content] at same
      cases same
  | some v =>
    obtain ⟨d, content⟩ := alike.rooted.values h v bound
    rw [bound, Option.bind_some, content] at same
    obtain ⟨v', bound', content'⟩ := Option.bind_eq_some_iff.1 same
    rw [bound']
    exact .some ⟨d, content, content'⟩

/-- Undefined variables of one name are complained of alike. -/
theorem undefinedVariable (live : m.pool.get? h = some s) (live' : m'.pool.get? h' = some s')
    (eq : s'.bytes = s.bytes) : m'.undefinedVariable h' = m.undefinedVariable h := by
  have text : s'.text = s.text := congrArg Utf8.lossy eq
  rw [Machine.undefinedVariable, Machine.undefinedVariable, live, live', Option.map_some,
    Option.map_some, text]

/-- Globals of one name are read alike. -/
theorem getGlobal (alike : m.Alike m') (live : m.pool.get? h = some s)
    (live' : m'.pool.get? h' = some s') (eq : s'.bytes = s.bytes) :
    Matches Alike (m.getGlobal h) (m'.getGlobal h') := by
  have found := alike.find? live live' eq
  unfold Machine.getGlobal
  generalize m.globals.find? h = v?, m'.globals.find? h' = v?' at found
  cases found with
  | none =>
    rw [undefinedVariable live live' eq]
    exact .error _
  | some both => exact alike.push both

/-- Binding one name to alike values. -/
theorem bind (alike : m.Alike m') (live : m.pool.get? h = some s)
    (live' : m'.pool.get? h' = some s') (eq : s'.bytes = s.bytes)
    (both : Value.Alike m.pool m'.pool v v') :
    { m with globals := m.globals.bind h v }.Alike
      { m' with globals := m'.globals.bind h' v' } where
  values := alike.values
  limit := alike.limit
  rooted := by
    obtain ⟨d, content, -⟩ := both
    exact alike.rooted.bind live content
  rooted' := by
    obtain ⟨d, -, content'⟩ := both
    exact alike.rooted'.bind live' content'
  world := by
    obtain ⟨d, content, content'⟩ := both
    rw [world_bind live content, world_bind live' content', alike.world, eq]
  output := alike.output

/-- Globals of one name are defined alike. -/
theorem defineGlobal (alike : m.Alike m') (live : m.pool.get? h = some s)
    (live' : m'.pool.get? h' = some s') (eq : s'.bytes = s.bytes) :
    Matches Alike (m.defineGlobal h) (m'.defineGlobal h') := by
  have values := alike.values
  generalize top : m.stack.values = base, top' : m'.stack.values = base' at values
  cases values with
  | nil =>
    rw [defineGlobal_of_nil h top, defineGlobal_of_nil h' top']
    exact .error _
  | cons first below =>
    obtain ⟨room, defined⟩ := defineGlobal_of_cons h top
    obtain ⟨room', defined'⟩ := defineGlobal_of_cons h' top'
    rw [defined, defined']
    exact .ok ((alike.bind live live' eq first).withValues below room room')

/-- Globals of one name are assigned alike. -/
theorem setGlobal (alike : m.Alike m') (live : m.pool.get? h = some s)
    (live' : m'.pool.get? h' = some s') (eq : s'.bytes = s.bytes) :
    Matches Alike (m.setGlobal h) (m'.setGlobal h') := by
  have values := alike.values
  generalize top : m.stack.values = base, top' : m'.stack.values = base' at values
  cases values with
  | nil =>
    rw [setGlobal_of_nil h top, setGlobal_of_nil h' top']
    exact .error _
  | cons first below =>
    rw [setGlobal_of_cons h top, setGlobal_of_cons h' top', Globals.isBound_eq_isSome,
      Globals.isBound_eq_isSome]
    have found := alike.find? live live' eq
    generalize m.globals.find? h = v?, m'.globals.find? h' = v?' at found
    cases found with
    | none =>
      rw [undefinedVariable live live' eq]
      exact .error _
    | some both => exact .ok (alike.bind live live' eq first)

/-! ## Printing -/

/-- A text is printed by both machines, or refused by both. -/
theorem print (alike : m.Alike m') (text : String) :
    (m'.print text).1 = (m.print text).1 ∧ (m.print text).2.Alike (m'.print text).2 := by
  unfold Machine.print
  rw [alike.output]
  dsimp only
  refine ⟨rfl, ?_⟩
  split
  · refine alike.congr rfl rfl rfl rfl rfl rfl rfl ?_
    rw [printed_note, printed_note]
    exact congrArg (· ++ _) alike.printed
  · exact alike.congr rfl rfl rfl rfl rfl rfl rfl alike.printed

/-- A line is printed by both machines, or refused by both. -/
theorem printLine (alike : m.Alike m') (text : String) :
    (m'.printLine text).1 = (m.printLine text).1 ∧
      (m.printLine text).2.Alike (m'.printLine text).2 := by
  have first := alike.print text
  unfold Machine.printLine
  dsimp only
  rw [first.1]
  split
  · exact first.2.print "\n"
  · exact ⟨rfl, first.2⟩

end Alike

/-! ## Instructions -/

/-- Two steps end in the same way, with alike machines. -/
inductive Step.Alike : Step → Step → Prop where
  | next {m m' : Machine} : m.Alike m' → Step.Alike (.next m) (.next m')
  | finished {m m' : Machine} : m.Alike m' → Step.Alike (.finished m) (.finished m')
  | failed {m m' : Machine} (fault : RuntimeFault) : m.Alike m' →
      Step.Alike (.failed fault m) (.failed fault m')

namespace Alike

variable {constants constants' : List Value} {k k' : UInt8} {d : Datum} {i i' : Instruction}

/-- Results that match are alike steps. -/
theorem ofExcept {result result' : Except RuntimeFault Machine} (alike : m.Alike m')
    (both : Matches Alike result result') :
    Step.Alike (.ofExcept m result) (.ofExcept m' result') := by
  cases both with
  | ok both => exact .next both
  | error fault => exact .failed fault alike

/-- The top values are printed alike. -/
theorem printTop (alike : m.Alike m') : Step.Alike m.printTop m'.printTop := by
  have popped := alike.pop
  unfold Machine.printTop
  generalize m.pop = x, m'.pop = x' at popped
  cases popped with
  | error fault => exact .failed fault alike
  | @ok p p' both =>
    have printed := both.2.printLine (p.1.text p.2.pool)
    dsimp only
    rw [both.1.text_eq]
    generalize p.2.printLine _ = line, p'.2.printLine _ = line' at printed
    rcases line with ⟨refusal, after⟩
    rcases line' with ⟨refusal', after'⟩
    obtain ⟨rfl, alike⟩ := printed
    cases refusal' with
    | none => exact .next alike
    | some why => exact .failed _ alike

/-- The name that an operand names. -/
theorem exists_name (reads : Constants.Reads ⟨constants, m.pool⟩ k (.text name)) :
    ∃ h s, m.nameConstant constants k = .ok h ∧ m.pool.get? h = some s ∧ s.bytes = name := by
  obtain ⟨v, named, content⟩ := reads
  obtain ⟨h, s, rfl, live, eq⟩ := Value.eq_object_of_content? content
  exact ⟨h, s, nameConstant_of_resolves named (Option.isSome_iff_exists.2 ⟨s, live⟩), live, eq⟩

/-- What is done with the names that two operands name. -/
theorem named {act act' : Handle → Except RuntimeFault Machine}
    (reads : Constants.Reads ⟨constants, m.pool⟩ k (.text name))
    (reads' : Constants.Reads ⟨constants', m'.pool⟩ k' (.text name))
    (both : ∀ h h' s s', m.pool.get? h = some s → m'.pool.get? h' = some s' →
      s'.bytes = s.bytes → Matches Alike (act h) (act' h')) :
    Matches Alike (m.nameConstant constants k >>= act)
      (m'.nameConstant constants' k' >>= act') := by
  obtain ⟨h, s, read, live, eq⟩ := exists_name reads
  obtain ⟨h', s', read', live', eq'⟩ := exists_name reads'
  rw [read, read']
  exact both h h' s s' live live' (eq'.trans eq.symm)

/-- **Alike instructions on alike machines** end in the same way. -/
theorem step (alike : m.Alike m')
    (both : i.Alike ⟨constants, m.pool⟩ ⟨constants', m'.pool⟩ i') :
    Step.Alike (m.step constants i) (m'.step constants' i') := by
  cases both with
  | constant reads reads' =>
    obtain ⟨v, named, content⟩ := reads
    obtain ⟨v', named', content'⟩ := reads'
    refine alike.ofExcept ?_
    rw [constant, constant, named, named']
    exact alike.push ⟨_, content, content'⟩
  | getGlobal reads reads' =>
    exact alike.ofExcept (named reads reads' fun _ _ _ _ => alike.getGlobal)
  | defineGlobal reads reads' =>
    exact alike.ofExcept (named reads reads' fun _ _ _ _ => alike.defineGlobal)
  | setGlobal reads reads' =>
    exact alike.ofExcept (named reads reads' fun _ _ _ _ => alike.setGlobal)
  | plain whole =>
    cases i with
    | constant | getGlobal | defineGlobal | setGlobal => cases whole
    | pushNil => exact alike.ofExcept (alike.push ⟨.nil, rfl, rfl⟩)
    | pushTrue => exact alike.ofExcept (alike.push ⟨.bool true, rfl, rfl⟩)
    | pushFalse => exact alike.ofExcept (alike.push ⟨.bool false, rfl, rfl⟩)
    | pop =>
      have popped := alike.pop
      unfold Machine.step
      generalize m.pop = x, m'.pop = x' at popped
      cases popped with
      | ok both => exact .next both.2
      | error fault => exact .failed fault alike
    | equal => exact alike.ofExcept (alike.mapTop2 fun _ _ _ _ => Value.Alike.same)
    | greater => exact alike.ofExcept (alike.mapTop2 fun _ _ _ _ => Value.Alike.order .greater)
    | less => exact alike.ofExcept (alike.mapTop2 fun _ _ _ _ => Value.Alike.order .less)
    | add => exact alike.ofExcept alike.add
    | subtract =>
      exact alike.ofExcept (alike.mapTop2 fun _ _ _ _ => Value.Alike.arithmetic .subtract)
    | multiply =>
      exact alike.ofExcept (alike.mapTop2 fun _ _ _ _ => Value.Alike.arithmetic .multiply)
    | divide => exact alike.ofExcept (alike.mapTop2 fun _ _ _ _ => Value.Alike.arithmetic .divide)
    | not => exact alike.ofExcept (alike.mapTop fun _ _ => Value.Alike.isFalsey)
    | negate => exact alike.ofExcept (alike.mapTop fun _ _ => Value.Alike.negate)
    | print => exact alike.printTop
    | finish =>
      rw [Machine.step, Machine.step, alike.output]
      cases m.output.flush with
      | none => exact .finished alike
      | some why => exact .failed _ alike

end Alike

/-! ## Runs -/

/-- How a run ends whose code is `n` lines further down. -/
def Ending.shift (n : Nat) : Ending → Ending
  | finished => finished
  | failed fault line => failed fault (line + n)

/-- An ending on the same line is the same. -/
@[simp] theorem Ending.shift_zero (ending : Ending) : ending.shift 0 = ending := by
  cases ending <;> rfl

/-- Two runs stand at alike machines; the code of the second is `n` lines further down. -/
inductive Progress.Alike (n : Nat) : Progress → Progress → Prop where
  | running {m m' : Machine} : m.Alike m' → Progress.Alike n (.running m) (.running m')
  | ended {m m' : Machine} (ending : Ending) : m.Alike m' →
      Progress.Alike n (.ended ending m) (.ended (ending.shift n) m')

/-- Progress that is alike leads to machines that are. -/
theorem Progress.Alike.machine {n : Nat} {p p' : Progress} (alike : Progress.Alike n p p') :
    p.machine.Alike p'.machine := by
  cases alike with
  | running alike | ended _ alike => exact alike

/-- Runs of two chunks that stay side by side, and end in the code. -/
theorem Progress.Alike.run {n : Nat} {chunk chunk' : Chunk}
    (progress : Progress.Alike n (runSlots chunk chunk.slots m) (runSlots chunk' chunk'.slots m'))
    (ends : ∀ after, runSlots chunk chunk.slots m ≠ .running after) :
    (m'.run chunk').1 = (m.run chunk).1.shift n ∧ (m.run chunk).2.Alike (m'.run chunk').2 := by
  rw [Machine.run, Machine.run]
  generalize runSlots chunk chunk.slots m = result, runSlots chunk' chunk'.slots m' = result'
    at progress ends
  cases progress with
  | running => exact absurd rfl (ends _)
  | ended ending alike => exact ⟨rfl, alike⟩

namespace Alike

variable {n : Nat} {chunk chunk' : Chunk} {slot slot' : Slot} {slots slots' : List Slot}
  {i i' : TracedInstruction} {code code' : List TracedInstruction}

/-- Slots with alike instructions make alike progress. -/
theorem runSlot (alike : m.Alike m') (holds : slot.Holds i) (holds' : slot'.Holds i')
    (both : i.Alike n ⟨chunk.constants, m.pool⟩ ⟨chunk'.constants, m'.pool⟩ i') :
    Progress.Alike n (runSlot chunk slot m) (runSlot chunk' slot' m') := by
  have traced := alike.quiet (m.quiet_trace chunk slot) (m'.quiet_trace chunk' slot')
  have instruction := both.instruction
  rw [← m.pool_trace chunk slot, ← m'.pool_trace chunk' slot'] at instruction
  have stepped := traced.step instruction
  rw [runSlot_of_holds holds, runSlot_of_holds holds', both.line]
  generalize (m.trace chunk slot).step chunk.constants i.instruction = step,
    (m'.trace chunk' slot').step chunk'.constants i'.instruction = step' at stepped
  cases stepped with
  | next alike => exact .running alike
  | finished alike => exact .ended .finished alike
  | failed fault alike => exact .ended (.failed fault i.line) alike

/-- **Alike code on alike machines** runs side by side. -/
theorem runSlots (alike : m.Alike m') (holds : List.Forall₂ Slot.Holds slots code)
    (holds' : List.Forall₂ Slot.Holds slots' code')
    (both : List.Forall₂
      (TracedInstruction.Alike n ⟨chunk.constants, m.pool⟩ ⟨chunk'.constants, m'.pool⟩)
        code code') :
    Progress.Alike n (runSlots chunk slots m) (runSlots chunk' slots' m') := by
  induction holds generalizing m m' slots' code' with
  | nil =>
    cases both
    cases holds'
    exact .running alike
  | @cons slot i slots code first rest ih =>
    obtain ⟨i', code', bothFirst, bothRest, rfl⟩ := List.forall₂_cons_left_iff.1 both
    obtain ⟨slot', slots', first', rest', rfl⟩ := List.forall₂_cons_right_iff.1 holds'
    have progress := alike.runSlot first first' bothFirst
    have grows := (proceeds_runSlot chunk slot m).gathers.grows
    have grows' := (proceeds_runSlot chunk' slot' m').gathers.grows
    rw [Machine.runSlots, Machine.runSlots]
    generalize Machine.runSlot chunk slot m = result, Machine.runSlot chunk' slot' m' = result'
      at progress grows grows'
    cases progress with
    | running alike => exact ih alike rest' (bothRest.imp fun _ _ both => both.grow grows grows')
    | ended ending alike => exact .ended ending alike

/-- A whole run, of code that ends with `finish`. -/
theorem run {line : Nat} (alike : m.Alike m')
    (holds : List.Forall₂ Slot.Holds chunk.slots (code ++ [⟨.finish, line⟩]))
    (holds' : List.Forall₂ Slot.Holds chunk'.slots code')
    (both : List.Forall₂
      (TracedInstruction.Alike n ⟨chunk.constants, m.pool⟩ ⟨chunk'.constants, m'.pool⟩)
        (code ++ [⟨.finish, line⟩]) code') :
    (m'.run chunk').1 = (m.run chunk).1.shift n ∧ (m.run chunk).2.Alike (m'.run chunk').2 :=
  (alike.runSlots holds holds' both).run fun _ => runSlots_ne_running holds

end Alike
end Machine
end StackScript
