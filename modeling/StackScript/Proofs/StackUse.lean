/-
# Any bytes are safe to run

A chunk need not come from a compiler: its bytes, its constants and their handles can be
anything. What its instructions do to the number of values on the stack is still known from
their operations alone (`Instruction.effect`):

| effect | instructions |
| ---: | --- |
| 1 | constant, `nil`, `true`, `false`, read global |
| 0 | assign global, not, negate, finish |
| -1 | pop, define global, print, and whatever takes two values |

So as long as nothing fails, the height of the stack before an instruction is a sum over the
code before it. That height says if the instruction underflows the stack or overflows it, once
its operand names what it should (`Machine.underflow_iff`, `Machine.overflow_iff`). And a
processor comes to an end and stays within its bounds whatever it is given
(`Processor.interpretChunk_safe`).
-/
import Mathlib.Algebra.Ring.Int.Defs
import StackScript.Proofs.Machine.Processor

namespace StackScript

namespace Instruction

/-- How many more values an instruction leaves on the stack than it finds there. -/
def effect (i : Instruction) : Int :=
  i.leaves - i.takes

/-- A variable that is read has a value. -/
def Finds (constants : List Value) (globals : Globals) : Instruction → Prop
  | getGlobal k => ∃ h v, constants[k.toNat]? = some (.object h) ∧ globals.find? h = some v
  | _ => True

/-- No instruction leaves more than one value. -/
theorem leaves_le_one (i : Instruction) : i.leaves ≤ 1 := by
  cases i <;> simp [leaves]

end Instruction

/-! ## Faults of the stack -/

namespace Machine

variable {constants : List Value} {m : Machine} {i : Instruction}

/-- An operand that names nothing is a fault of its own. -/
theorem constant_of_not_resolves {k : UInt8} (dead : ¬ k.toNat < constants.length) :
    constant constants k = .error (.code (.constantOutOfRange k.toNat constants.length)) := by
  rw [constant, List.getElem?_eq_none (Nat.not_lt.1 dead)]

/-- Where a name is missing, a code fault says so, and not that the stack is empty. -/
theorem nameConstant_of_not_resolves {k : UInt8}
    (dead : ¬ ∃ h, constants[k.toNat]? = some (.object h) ∧ m.pool.isLive h) :
    ∃ c, c ≠ CodeFault.stackUnderflow ∧ m.nameConstant constants k = .error (.code c) := by
  rw [nameConstant]
  cases named : constants[k.toNat]? with
  | none =>
    rw [constant, named]
    exact ⟨.constantOutOfRange k.toNat constants.length, CodeFault.noConfusion, rfl⟩
  | some v =>
    rw [constant, named]
    refine ⟨.notAString k.toNat, CodeFault.noConfusion, ?_⟩
    cases v with
    | object h =>
      have dangling : m.pool.isLive h = false := by
        simpa using fun live => dead ⟨h, named, live⟩
      simp only [bind, Except.bind, dangling]
      rfl
    | _ => rfl

/-- Where a constant is missing, the step fails with a code fault, and not with an underflow. -/
theorem step_of_not_resolves (dead : ¬ i.Resolves constants m.pool) :
    ∃ c, c ≠ CodeFault.stackUnderflow ∧ m.step constants i = .failed (.code c) m := by
  cases i with
  | constant k =>
    refine ⟨.constantOutOfRange k.toNat constants.length, CodeFault.noConfusion, ?_⟩
    rw [step, constant_of_not_resolves dead]
    rfl
  | getGlobal k | defineGlobal k | setGlobal k =>
    obtain ⟨c, other, read⟩ := nameConstant_of_not_resolves dead
    refine ⟨c, other, ?_⟩
    rw [step, read]
    rfl
  | _ => exact absurd trivial dead

/-- An instruction that takes more values than there are underflows the stack. -/
theorem step_of_lt (resolves : i.Resolves constants m.pool)
    (few : m.stack.values.length < i.takes) :
    m.step constants i = .failed (.code .stackUnderflow) m := by
  have empty (one : i.takes = 1) : m.stack.values = [] :=
    List.eq_nil_of_length_eq_zero (by omega)
  cases i with
  | constant | pushNil | pushTrue | pushFalse | getGlobal | finish =>
    exact absurd few (Nat.not_lt_zero _)
  | pop =>
    rw [step, pop_of_nil (empty rfl)]
    rfl
  | defineGlobal k =>
    obtain ⟨h, named, live⟩ := resolves
    have underflow := defineGlobal_of_nil h (empty rfl)
    simp only [step, nameConstant_of_resolves named live, bind, Except.bind, underflow]
    rfl
  | setGlobal k =>
    obtain ⟨h, named, live⟩ := resolves
    have underflow := setGlobal_of_nil h (empty rfl)
    simp only [step, nameConstant_of_resolves named live, bind, Except.bind, underflow]
    rfl
  | not | negate =>
    rw [step, mapTop_of_nil (empty rfl)]
    rfl
  | print => rw [step, printTop, pop_of_nil (empty rfl)]
  | equal | greater | less | subtract | multiply | divide =>
    rw [step, mapTop2_of_lt few]
    rfl
  | add =>
    rw [step, add_of_lt few]
    rfl

/-- A variable without a value is a fault of its own. -/
theorem step_of_not_finds (resolves : i.Resolves constants m.pool)
    (missing : ¬ i.Finds constants m.globals) :
    ∃ name, m.step constants i = .failed (.undefinedVariable name) m := by
  cases i with
  | getGlobal k =>
    obtain ⟨h, named, live⟩ := resolves
    have unbound : m.globals.find? h = none := by
      by_contra bound
      obtain ⟨v, value⟩ := Option.ne_none_iff_exists'.1 bound
      exact missing ⟨h, v, named, value⟩
    refine ⟨((m.pool.get? h).map (String.ofList ·.text)).getD "", ?_⟩
    simp only [step, nameConstant_of_resolves named live, bind, Except.bind, getGlobal, unbound]
    rfl
  | _ => exact absurd trivial missing

/-- An instruction that leaves one value more than there may be overflows the stack. -/
theorem step_of_full (resolves : i.Resolves constants m.pool) (finds : i.Finds constants m.globals)
    (adds : i.effect = 1) (full : m.stack.limit ≤ m.stack.values.length) :
    m.step constants i = .failed (.stackOverflow m.stack.limit) m := by
  cases i with
  | constant k =>
    obtain ⟨v, read⟩ := constant_of_resolves resolves
    simp only [step, read, bind, Except.bind, push_of_le v full]
    rfl
  | pushNil | pushTrue | pushFalse =>
    rw [step, push_of_le _ full]
    rfl
  | getGlobal k =>
    obtain ⟨h, named, live⟩ := resolves
    obtain ⟨h', v, named', value⟩ := finds
    obtain rfl : h = h' := by simpa [named] using named'
    simp only [step, nameConstant_of_resolves named live, bind, Except.bind, getGlobal, value,
      push_of_le v full]
    rfl
  | _ => simp [Instruction.effect, Instruction.takes, Instruction.leaves] at adds

/-- **When an instruction underflows the stack.** -/
theorem underflow_iff : (∃ after, m.step constants i = .failed (.code .stackUnderflow) after) ↔
    i.Resolves constants m.pool ∧ m.stack.size < i.takes := by
  constructor
  · rintro ⟨after, failed⟩
    by_cases resolves : i.Resolves constants m.pool
    · have outcome := outcome_step constants m i
      rw [failed] at outcome
      rcases outcome with _ | _ | ⟨_, _, _, cause⟩
      cases cause with
      | dynamic dynamic => cases dynamic
      | underflow few => exact ⟨resolves, few⟩
      | operand _ dead => exact absurd resolves dead
    · obtain ⟨c, other, failed'⟩ := step_of_not_resolves resolves
      rw [failed] at failed'
      cases failed'
      exact absurd rfl other
  · rintro ⟨resolves, few⟩
    exact ⟨m, step_of_lt resolves few⟩

/-- **When an instruction overflows the stack.** -/
theorem overflow_iff {limit : Nat} :
    (∃ after, m.step constants i = .failed (.stackOverflow limit) after) ↔
      limit = m.stack.limit ∧ i.effect = 1 ∧ i.Resolves constants m.pool ∧
        i.Finds constants m.globals ∧ m.stack.size = m.stack.limit := by
  constructor
  · rintro ⟨after, failed⟩
    have resolves : i.Resolves constants m.pool := by
      by_contra dead
      obtain ⟨c, -, failed'⟩ := step_of_not_resolves dead
      rw [failed] at failed'
      cases failed'
    have finds : i.Finds constants m.globals := by
      by_contra missing
      obtain ⟨name, failed'⟩ := step_of_not_finds resolves missing
      rw [failed] at failed'
      cases failed'
    have enough : i.takes ≤ m.stack.size := by
      by_contra few
      have failed' := step_of_lt resolves (Nat.not_le.1 few)
      rw [failed] at failed'
      cases failed'
    have outcome := outcome_step constants m i
    rw [failed] at outcome
    rcases outcome with _ | _ | ⟨_, _, _, cause⟩
    cases cause with
    | dynamic dynamic => cases dynamic
    | overflow full =>
      have one := i.leaves_le_one
      have le := m.stack.length_le
      have size : m.stack.size = m.stack.values.length := rfl
      refine ⟨rfl, ?_, resolves, finds, ?_⟩
      · rw [Instruction.effect]
        omega
      · omega
  · rintro ⟨rfl, adds, resolves, finds, full⟩
    exact ⟨m, step_of_full resolves finds adds (Nat.le_of_eq full.symm)⟩

/-! ## The limit -/

/-- A step with its result keeps the limit of the stack. -/
theorem limit_ofExcept {result : Except RuntimeFault Machine}
    (outcome : Outcome constants m i (.ofExcept m result)) :
    (Step.ofExcept m result).machine.stack.limit = m.stack.limit := by
  cases result with
  | error fault => rfl
  | ok after =>
    cases outcome with
    | next moved => exact moved.limit

/-- Printing keeps the limit of the stack. -/
theorem limit_printTop (m : Machine) : m.printTop.machine.stack.limit = m.stack.limit := by
  unfold printTop
  cases top : m.stack.values with
  | nil =>
    rw [pop_of_nil top]
    rfl
  | cons v below =>
    obtain ⟨h, popped⟩ := pop_of_cons top
    have stack := stack_printLine (m.withValues below h) (v.text (m.withValues below h).pool)
    have limit := congrArg Stack.limit stack
    rw [popped]
    dsimp only
    split <;> rename_i printed <;> rw [printed] at limit <;> exact limit

/-- No instruction changes how many values there may be. -/
theorem limit_step (constants : List Value) (m : Machine) (i : Instruction) :
    (m.step constants i).machine.stack.limit = m.stack.limit := by
  have outcome := outcome_step constants m i
  cases i with
  | print => exact limit_printTop m
  | finish =>
    rw [step]
    split <;> rfl
  | _ => exact limit_ofExcept outcome

/-- Running a slot keeps the limit of the stack. -/
theorem limit_runSlot (chunk : Chunk) (slot : Slot) (m : Machine) :
    (runSlot chunk slot m).machine.stack.limit = m.stack.limit := by
  rw [runSlot_eq]
  cases slot.reading with
  | error fault =>
    dsimp only
    rw [Progress.machine, stack_trace]
  | ok i =>
    have limit := limit_step chunk.constants (m.trace chunk slot) i
    rw [stack_trace] at limit
    rw [← limit]
    dsimp only
    cases (m.trace chunk slot).step chunk.constants i <;> rfl

end Machine

/-! ## Fetches -/

namespace Processor

/-- A processor that another one can become: it has the same chunk, stands inside it, and has
the same limit on its stack, which it keeps. -/
structure Within (p q : Processor) : Prop where
  chunk : q.chunk = p.chunk
  position_le : q.position ≤ p.chunk.size
  limit : q.machine.stack.limit = p.machine.stack.limit
  size_le : q.machine.stack.size ≤ p.machine.stack.limit

/-- What keeps the chunk and the limit keeps within them. -/
theorem Within.of_limit {p q : Processor} (chunk : q.chunk = p.chunk)
    (position_le : q.position ≤ p.chunk.size)
    (limit : q.machine.stack.limit = p.machine.stack.limit) : p.Within q :=
  ⟨chunk, position_le, limit, limit ▸ q.machine.stack.length_le⟩

/-- What keeps within twice keeps within. -/
theorem Within.trans {p q r : Processor} (first : p.Within q) (second : q.Within r) :
    p.Within r := by
  refine .of_limit (second.chunk.trans first.chunk) ?_ (second.limit.trans first.limit)
  rw [← first.chunk]
  exact second.position_le

/-- A processor that has executed some code, and nothing has failed or ended yet. -/
structure Executed (p : Processor) (code : List Instruction) (q : Processor) : Prop where
  within : p.Within q
  slots : ∃ done, p.slots = done ++ q.slots ∧ done.map (·.content) = code.map .instruction
  height : (q.machine.stack.size : Int) = p.machine.stack.size + (code.map (·.effect)).sum

/-- A processor inside its chunk has executed no code yet. -/
theorem Executed.refl {p : Processor} (inside : p.position ≤ p.chunk.size) : p.Executed [] p where
  within := .of_limit rfl inside rfl
  slots := ⟨[], rfl, rfl⟩
  height := by simp

/-- Code that is executed in two parts is executed. -/
theorem Executed.trans {p q r : Processor} {code more : List Instruction}
    (first : p.Executed code q) (second : q.Executed more r) : p.Executed (code ++ more) r := by
  refine ⟨first.within.trans second.within, ?_, ?_⟩
  · obtain ⟨done, slots, contents⟩ := first.slots
    obtain ⟨done', slots', contents'⟩ := second.slots
    refine ⟨done ++ done', ?_, ?_⟩
    · rw [slots, slots', List.append_assoc]
    · rw [List.map_append, List.map_append, contents, contents']
  · rw [second.height, first.height, List.map_append, List.sum_append, Int.add_assoc]

/-- A slot that is read as an instruction holds it. -/
theorem content_of_reading {slot : Slot} {i : Instruction} (reading : slot.reading = .ok i) :
    slot.content = .instruction i := by
  unfold Slot.reading at reading
  split at reading <;> cases reading
  assumption

variable {p q : Processor}

/-- **What a fetch can do:** it executes an instruction, or the run ends. -/
theorem exists_fetch_eq (inside : p.position ≤ p.chunk.size) :
    ∃ q, p.Within q ∧
      ((∃ i, p.fetch = .running q ∧ p.Executed [i] q) ∨ ∃ result, p.fetch = .ended result q) := by
  obtain ⟨m, chunk, offset⟩ := p
  cases slots : chunk.slotsAt offset with
  | nil =>
    have same : m.traceStack.stack.limit = m.stack.limit := by
      unfold Machine.traceStack
      split <;> rfl
    have fetch := fetch_of_slots_nil m inside slots
    exact ⟨⟨m.traceStack, chunk, chunk.size⟩, .of_limit rfl (Nat.le_refl _) same, .inr ⟨_, fetch⟩⟩
  | cons slot others =>
    have found := Slot.found slots
    have fetch := fetch_of_slots_cons m slots
    have limit := Machine.limit_runSlot chunk slot m
    have within (after : Machine) (limit : after.stack.limit = m.stack.limit) :
        (Processor.mk m chunk offset).Within ⟨after, chunk, slot.stop⟩ :=
      .of_limit rfl found.stop_le limit
    cases eq : Machine.runSlot chunk slot m with
    | ended ending after =>
      rw [eq] at fetch limit
      refine ⟨⟨after, chunk, slot.stop⟩, within after limit, .inr ?_⟩
      cases ending <;> exact ⟨_, fetch⟩
    | running after =>
      rw [eq] at fetch limit
      have within := within after limit
      obtain ⟨i, reading, step⟩ := Machine.exists_step_of_running eq
      refine ⟨_, within, .inl ⟨i, fetch, within, ⟨[slot], ?_, ?_⟩, ?_⟩⟩
      · exact slots.trans (congrArg (slot :: ·) (found.others reading))
      · rw [List.map_singleton, content_of_reading reading, List.map_singleton]
      · have outcome := Machine.outcome_step chunk.constants (m.trace chunk slot) i
        rw [step] at outcome
        cases outcome with
        | next moved =>
          obtain ⟨left, length, values⟩ := moved.values
          have enough := moved.enough
          have sizes := congrArg List.length values
          rw [List.length_append, List.length_drop, length, Machine.stack_trace] at sizes
          rw [Machine.stack_trace] at enough
          simp only [Stack.size, List.map_singleton, List.sum_singleton, Instruction.effect]
          omega

/-- **What a run has executed so far,** fetch by fetch. -/
theorem exists_fetches (n : Nat) (inside : p.position ≤ p.chunk.size) :
    ∃ q, p.Within q ∧
      ((∃ code, p.fetches n = .running q ∧ code.length = n ∧ p.Executed code q) ∨
        ∃ result, p.fetches n = .ended result q) := by
  induction n generalizing p with
  | zero => exact ⟨p, .of_limit rfl inside rfl, .inl ⟨[], rfl, rfl, .refl inside⟩⟩
  | succ n ih =>
    obtain ⟨q, within, ⟨i, running, first⟩ | ⟨result, ended⟩⟩ := exists_fetch_eq inside
    · have inside' : q.position ≤ q.chunk.size := by
        rw [within.chunk]
        exact within.position_le
      obtain ⟨r, within', rest⟩ := ih inside'
      refine ⟨r, within.trans within', ?_⟩
      rw [fetches, running]
      obtain ⟨code, running', length, others⟩ | ⟨result, ended⟩ := rest
      · exact .inl ⟨i :: code, running', by rw [List.length_cons, length], first.trans others⟩
      · exact .inr ⟨result, ended⟩
    · refine ⟨q, within, .inr ⟨result, ?_⟩⟩
      rw [fetches, ended]

/-- A fault that is not about reading code comes from the instruction that is read: here one
that fails in this way if `P` holds of it. -/
theorem fetch_failed_iff {fault : RuntimeFault} {P : Instruction → Prop}
    (ended : ∀ n, fault ≠ .code (.unexpectedEnd n))
    (unknown : ∀ b n, fault ≠ .code (.unknownOpcode b n)) (inside : q.position ≤ q.chunk.size)
    (fails : ∀ slot i, (∃ after, (q.machine.trace q.chunk slot).step q.chunk.constants i =
      .failed fault after) ↔ P i) :
    (∃ r, q.fetch = .ended (.error fault) r) ↔
      ∃ i, q.slots.head?.map (·.content) = some (.instruction i) ∧ P i := by
  obtain ⟨m, chunk, offset⟩ := q
  have here : slots ⟨m, chunk, offset⟩ = chunk.slotsAt offset := rfl
  rw [here]
  cases slots : chunk.slotsAt offset with
  | nil =>
    rw [fetch_of_slots_nil m inside slots]
    constructor
    · rintro ⟨r, eq⟩
      cases eq
      exact absurd rfl (ended _)
    · rintro ⟨i, first, -⟩
      cases first
  | cons slot others =>
    rw [fetch_of_slots_cons m slots, Machine.runSlot_eq, Slot.reading]
    simp only [List.head?_cons, Option.map_some, Option.some.injEq]
    cases slot.content with
    | unknown byte =>
      constructor
      · rintro ⟨r, eq⟩
        cases eq
        exact absurd rfl (unknown _ _)
      · rintro ⟨i, first, -⟩
        cases first
    | truncated op =>
      constructor
      · rintro ⟨r, eq⟩
        cases eq
        exact absurd rfl (ended _)
      · rintro ⟨i, first, -⟩
        cases first
    | instruction i =>
      have fails := fails slot i
      dsimp only at fails ⊢
      constructor
      · rintro ⟨r, eq⟩
        refine ⟨i, rfl, fails.1 ?_⟩
        generalize (m.trace chunk slot).step chunk.constants i = result at eq ⊢
        cases result <;> cases eq
        exact ⟨_, rfl⟩
      · rintro ⟨_, first, holds⟩
        cases first
        obtain ⟨after, failed⟩ := fails.2 holds
        rw [failed]
        exact ⟨_, rfl⟩

/-- What the code of a chunk and the height `p.machine.stack.size` before its run say of the
processor `now` that has come as far as the instruction `k`. -/
structure Foreseen (p : Processor) (chunk : Chunk) (k : Nat) (now : Processor) : Prop where
  height : ∃ code : List Instruction,
    (chunk.slots.take k).map (·.content) = code.map .instruction ∧ code.length = k ∧
      (now.machine.stack.size : Int) = p.machine.stack.size + (code.map (·.effect)).sum
  underflow : (∃ q, (p.load chunk).fetches (k + 1) = .ended (.error (.code .stackUnderflow)) q) ↔
    ∃ i, chunk.slots[k]?.map (·.content) = some (.instruction i) ∧
      i.Resolves chunk.constants now.machine.pool ∧ now.machine.stack.size < i.takes
  overflow (limit : Nat) :
    (∃ q, (p.load chunk).fetches (k + 1) = .ended (.error (.stackOverflow limit)) q) ↔
      ∃ i, chunk.slots[k]?.map (·.content) = some (.instruction i) ∧
        limit = p.machine.stack.limit ∧ i.effect = 1 ∧
        i.Resolves chunk.constants now.machine.pool ∧
        i.Finds chunk.constants now.machine.globals ∧
        now.machine.stack.size = p.machine.stack.limit

/-- One fetch is a fetch. -/
theorem fetches_one (p : Processor) : p.fetches 1 = p.fetch := by
  rw [fetches]
  cases p.fetch <;> rfl

/-- What was executed is what the code foresaw. -/
theorem Executed.foreseen {chunk : Chunk} {k : Nat} {code : List Instruction} {now : Processor}
    (running : (p.load chunk).fetches k = .running now) (length : code.length = k)
    (executed : (p.load chunk).Executed code now) : p.Foreseen chunk k now := by
  obtain ⟨done, slots, contents⟩ := executed.slots
  have slots : chunk.slots = done ++ now.slots := slots
  have count : done.length = k := by
    have lengths := congrArg List.length contents
    rw [List.length_map, List.length_map, length] at lengths
    exact lengths
  have here : chunk.slots[k]? = now.slots.head? := by
    rw [slots, List.getElem?_append_right (Nat.le_of_eq count), count, Nat.sub_self,
      List.head?_eq_getElem?]
  have next : (p.load chunk).fetches (k + 1) = now.fetch := by
    rw [fetches_add, running]
    exact now.fetches_one
  have same : now.chunk = chunk := executed.within.chunk
  have limit : now.machine.stack.limit = p.machine.stack.limit := executed.within.limit
  have inside : now.position ≤ now.chunk.size := by
    rw [same]
    exact executed.within.position_le
  refine ⟨⟨code, ?_, length, executed.height⟩, ?_, fun _ => ?_⟩
  · rw [slots, ← count, List.take_left, contents]
  · rw [next, here]
    refine fetch_failed_iff nofun nofun inside fun slot i => ?_
    rw [Machine.underflow_iff, Machine.pool_trace, Machine.stack_trace, same]
  · rw [next, here]
    refine fetch_failed_iff nofun nofun inside fun slot i => ?_
    rw [Machine.overflow_iff, Machine.pool_trace, Machine.stack_trace, Machine.globals_trace, same,
      limit]

/-- What has ended stays as it is. -/
theorem fetches_of_ended {m n : Nat} {result : Except RuntimeFault Unit}
    (ended : p.fetches m = .ended result q) (le : m ≤ n) : p.fetches n = .ended result q := by
  obtain ⟨further, rfl⟩ := Nat.exists_eq_add_of_le le
  rw [fetches_add, ended]

/-- A chunk is answered when the fetches have ended, with how they ended. -/
theorem exists_ended_of_interpretChunk {n : Nat} {chunk : Chunk} {outcome : RunResult × Processor}
    (h : p.interpretChunk n chunk = some outcome) :
    ∃ result q, (p.load chunk).fetches n = .ended result q ∧ outcome = q.close result := by
  unfold interpretChunk at h
  cases progress : (p.load chunk).fetches n with
  | running | stuck =>
    rw [progress] at h
    cases h
  | ended result q =>
    rw [progress] at h
    exact ⟨result, q, rfl, (Option.some.inj h).symm⟩

/-- **Any chunk is safe to run.** The run ends like that of the machine, after a fetch for each
byte and one more at most, and leaves no chunk behind. Until then the processor is never stuck,
stands inside the code, never holds more values than its limit, and is as the code foresees;
and once a fetch has ended the run, that is how it ends. -/
theorem interpretChunk_safe (p : Processor) (chunk : Chunk) :
    p.interpretChunk (chunk.size + 1) chunk =
      some ((p.machine.interpretChunk chunk).1,
        ⟨(p.machine.interpretChunk chunk).2, .empty, 0⟩) ∧
    ∀ k, ∃ now, (p.load chunk).Within now ∧
      ((p.load chunk).fetches k = .running now ∧ p.Foreseen chunk k now ∨
        ∃ result, (p.load chunk).fetches k = .ended result now ∧
          p.interpretChunk (chunk.size + 1) chunk = some (now.close result)) := by
  refine ⟨p.interpretChunk_eq_machine chunk, fun k => ?_⟩
  obtain ⟨now, within, ⟨code, running, length, executed⟩ | ⟨result, ended⟩⟩ :=
    exists_fetches (p := p.load chunk) k (Nat.zero_le _)
  · exact ⟨now, within, .inl ⟨running, executed.foreseen running length⟩⟩
  · refine ⟨now, within, .inr ⟨result, ended, ?_⟩⟩
    have halts := p.interpretChunk_eq_machine chunk
    obtain ⟨result', last, ended', -⟩ := exists_ended_of_interpretChunk halts
    have both : (p.load chunk).fetches (chunk.size + 1) = .ended result now := by
      rcases Nat.le_total k (chunk.size + 1) with le | le
      · exact fetches_of_ended ended le
      · rw [ended', ← ended, fetches_of_ended ended' le]
    rw [interpretChunk, both]

/-- `nil` and then an addition: the second fetch underflows the stack, on line 2. -/
example :
    let p : Processor := ⟨.create ⟨1, false⟩ .unlimited .unlimited, .empty, 0⟩
    let chunk : Chunk := ⟨[⟨Opcode.pushNil.toByte, 1⟩, ⟨Opcode.add.toByte, 2⟩], []⟩
    (p.interpretChunk 1 chunk).isNone ∧
      (p.interpretChunk 2 chunk).map (fun (result, q) => (result, q.machine.reported)) =
        some (.runtimeError,
          "Corrupt bytecode: stack underflow\n[line 2] in script\n".toUTF8.data.toList) := by
  decide +kernel

end Processor
end StackScript
