/-
# Fetching from code

A machine runs a chunk slot by slot. A processor knows nothing of slots: it has a chunk and a
position in its code, and each fetch reads the operation code there and the operand behind it,
and executes what they are. Where a byte is missing that is looked for,

| byte | there is |
| --- | --- |
| operation code, operand | a fault |
| the last byte that was read, for the line of a fault | line `0` |
| the operation code in the log | nothing that a processor could do (`stuck`) |

Every processor between two fetches stands where a slot begins, or at the end of the code.
So it is never stuck, does what the machine does (`interpretChunk_eq_machine`), and needs no more
fetches than there are bytes, and one for the end of the code.
-/
import StackScript.Proofs.Machine.Report

namespace StackScript

/-! ## Slots at a position -/

/-- The slots of a chunk from a position on. -/
def Chunk.slotsAt (chunk : Chunk) (offset : Nat) : List Slot :=
  let before := if offset = 0 then none else chunk.code[offset - 1]?.map (·.line)
  Slot.slotsFrom offset before (chunk.code.drop offset)

/-- The position behind the last byte of a slot that is there. -/
def Slot.stop (slot : Slot) : Nat :=
  match slot.content with
  | .truncated _ => slot.offset + 1
  | _ => slot.next

/-- What a processor reads where a slot begins: an instruction, or the fault that keeps it
from being one. -/
def Slot.reading (slot : Slot) : Except RuntimeFault Instruction :=
  match slot.content with
  | .instruction i => .ok i
  | .unknown byte => .error (.code (.unknownOpcode byte slot.offset))
  | .truncated _ => .error (.code (.unexpectedEnd (slot.offset + 1)))

/-- There are no more slots than bytes. -/
theorem Slot.length_slotsFrom_le (offset : Nat) (before : Option Nat) (code : List CodeByte) :
    (slotsFrom offset before code).length ≤ code.length := by
  fun_induction slotsFrom offset before code with
  | case1 => exact Nat.le_refl _
  | case2 _ _ _ _ _ ih | case3 _ _ _ _ _ _ _ _ ih =>
    simp only [List.length_cons]
    omega
  | case4 => exact Nat.le_refl _
  | case5 _ _ _ _ _ _ _ _ _ ih =>
    simp only [List.length_cons]
    omega

/-! ## Processors -/

/-- A machine with a chunk and the position of the byte that is read next. -/
structure Processor where
  machine : Machine
  chunk : Chunk
  position : Nat

namespace Processor

/-- How far a processor has come. It is stuck if it needs a byte that is not there. -/
inductive Progress where
  | running (p : Processor)
  | ended (result : Except RuntimeFault Unit) (p : Processor)
  | stuck

/-- Logs the stack and, unless the code is at its end, the instruction that comes next. -/
def trace (p : Processor) : Option Processor :=
  if p.position < p.chunk.size then do
    let slot ← p.chunk.slotAt? p.position
    return { p with machine := p.machine.trace p.chunk slot }
  else some { p with machine := p.machine.traceStack }

/-- Reads a byte. -/
def readByte (p : Processor) : Except RuntimeFault UInt8 × Processor :=
  match p.chunk.code[p.position]? with
  | some b => (.ok b.byte, { p with position := p.position + 1 })
  | none => (.error (.code (.unexpectedEnd p.position)), p)

/-- Reads an operation code and its operand, if it takes one. -/
def readInstruction (p : Processor) : Except RuntimeFault Instruction × Processor :=
  match p.readByte with
  | (.error fault, q) => (.error fault, q)
  | (.ok byte, q) =>
    match Opcode.ofByte? byte with
    | none => (.error (.code (.unknownOpcode byte p.position)), q)
    | some op =>
      match op.form with
      | .whole i => (.ok i, q)
      | .awaits complete =>
        match q.readByte with
        | (.error fault, r) => (.error fault, r)
        | (.ok k, r) => (.ok (complete k), r)

/-- Executes an instruction. -/
def execute (p : Processor) (i : Instruction) : Progress :=
  match p.machine.step p.chunk.constants i with
  | .next machine => .running { p with machine }
  | .finished machine => .ended (.ok ()) { p with machine }
  | .failed fault machine => .ended (.error fault) { p with machine }

/-- Fetches an instruction and executes it. -/
def fetch (p : Processor) : Progress :=
  match p.trace with
  | none => .stuck
  | some p =>
    match p.readInstruction with
    | (.error fault, p) => .ended (.error fault) p
    | (.ok i, p) => p.execute i

/-- At most `n` fetches in turn. -/
def fetches : Nat → Processor → Progress
  | 0, p => .running p
  | n + 1, p =>
    match p.fetch with
    | .running p => fetches n p
    | .ended result p => .ended result p
    | .stuck => .stuck

/-- The processor with a chunk to run. -/
def load (p : Processor) (chunk : Chunk) : Processor :=
  ⟨p.machine.begun chunk, chunk, 0⟩

/-- How a run ends. A fault is on the line of the last byte that was read. -/
def ending (p : Processor) : Except RuntimeFault Unit → Machine.Ending
  | .ok () => .finished
  | .error fault => .failed fault (p.chunk.lineAt (p.position - 1))

/-- The end of a run: a fault is reported, and the chunk is dropped. -/
def close (p : Processor) (result : Except RuntimeFault Unit) : RunResult × Processor :=
  ((p.ending result).result, ⟨p.machine.concluded (p.ending result), .empty, 0⟩)

/-- Runs a chunk, if that takes no more than `n` fetches. -/
def interpretChunk (n : Nat) (p : Processor) (chunk : Chunk) : Option (RunResult × Processor) :=
  match (p.load chunk).fetches n with
  | .ended result p => some (p.close result)
  | _ => none

/-- The slots that a processor has still before it. -/
def slots (p : Processor) : List Slot :=
  p.chunk.slotsAt p.position

/-! ## Reading slots -/

end Processor

section Reading

variable {chunk : Chunk} {offset : Nat} {slot : Slot} {others : List Slot}

/-- A whole instruction is its operation, without an operand. -/
theorem Opcode.of_whole {op : Opcode} {i : Instruction} (form : op.form = .whole i) :
    i.opcode = op ∧ i.operand? = none ∧ op.operandLength = 0 := by
  cases op <;> cases form <;> exact ⟨rfl, rfl, rfl⟩

/-- An instruction that awaits its operand has it once it is complete. -/
theorem Opcode.of_awaits {op : Opcode} {complete : UInt8 → Instruction}
    (form : op.form = .awaits complete) (k : UInt8) :
    (complete k).opcode = op ∧ (complete k).operand? = some k ∧ op.operandLength = 1 := by
  cases op <;> cases form <;> exact ⟨rfl, rfl, rfl⟩

/-- The slots from the beginning are all slots. -/
theorem Chunk.slotsAt_zero (chunk : Chunk) : chunk.slotsAt 0 = chunk.slots := rfl

section Byte

variable {b : CodeByte} {rest : List CodeByte}

/-- What is left of the code begins with the byte at the offset. -/
theorem Chunk.getElem?_of_drop (drop : chunk.code.drop offset = b :: rest) :
    chunk.code[offset]? = some b := by
  rw [← List.head?_drop, drop]
  rfl

/-- One byte further, one byte less is left. -/
theorem Chunk.drop_succ_of_drop (drop : chunk.code.drop offset = b :: rest) :
    chunk.code.drop (offset + 1) = rest := by
  rw [← List.tail_drop, drop]
  rfl

/-- Where a byte is left, the code has not ended. -/
theorem Chunk.lt_size_of_drop (drop : chunk.code.drop offset = b :: rest) : offset < chunk.size :=
  (List.getElem?_eq_some_iff.1 (getElem?_of_drop drop)).1

/-- The line at an offset is that of the first byte left. -/
theorem Chunk.lineAt_of_drop (drop : chunk.code.drop offset = b :: rest) :
    chunk.lineAt offset = b.line := by
  rw [lineAt, getElem?_of_drop drop]
  rfl

/-- Behind a byte, slots begin with its line. -/
theorem Chunk.slotsAt_succ (drop : chunk.code.drop offset = b :: rest) :
    chunk.slotsAt (offset + 1) = Slot.slotsFrom (offset + 1) (some b.line) rest := by
  rw [slotsAt, if_neg (Nat.succ_ne_zero offset), Nat.add_sub_cancel, getElem?_of_drop drop,
    drop_succ_of_drop drop]
  rfl

/-- The next byte is read where one is left. -/
theorem Processor.readByte_of_drop (m : Machine) (drop : chunk.code.drop offset = b :: rest) :
    (Processor.mk m chunk offset).readByte = (.ok b.byte, ⟨m, chunk, offset + 1⟩) := by
  rw [readByte, Chunk.getElem?_of_drop drop]

/-- Where none is left, reading fails with the offset. -/
theorem Processor.readByte_of_drop_nil (m : Machine) (drop : chunk.code.drop offset = []) :
    (Processor.mk m chunk offset).readByte =
      (.error (.code (.unexpectedEnd offset)), ⟨m, chunk, offset⟩) := by
  have byte : chunk.code[offset]? = none := by
    rw [← List.head?_drop, drop]
    rfl
  rw [readByte, byte]

end Byte

/-- A slot with the slots behind it, as a processor finds them at a position. -/
structure Slot.Found (chunk : Chunk) (offset : Nat) (slot : Slot) (others : List Slot) : Prop where
  inside : offset < chunk.size
  stop_le : slot.stop ≤ chunk.size
  lastLine : slot.lastLine = chunk.lineAt (slot.stop - 1)
  reading (m : Machine) :
    (Processor.mk m chunk offset).readInstruction = (slot.reading, ⟨m, chunk, slot.stop⟩)
  others {i : Instruction} : slot.reading = .ok i → others = chunk.slotsAt slot.stop

/-- What is found at a slot follows from the last byte that is read of it. -/
theorem Slot.Found.of_last {last : Nat} {c : CodeByte} {rest : List CodeByte}
    (inside : offset < chunk.size) (drop : chunk.code.drop last = c :: rest)
    (stop : slot.stop = last + 1) (line : slot.lastLine = c.line)
    (behind : others = slotsFrom (last + 1) (some c.line) rest)
    (reading : ∀ m, (Processor.mk m chunk offset).readInstruction =
      (slot.reading, ⟨m, chunk, last + 1⟩)) : slot.Found chunk offset others := by
  refine ⟨inside, ?_, ?_, ?_, fun _ => ?_⟩
  · rw [stop]
    exact Chunk.lt_size_of_drop drop
  · rw [stop, line, Nat.add_sub_cancel, Chunk.lineAt_of_drop drop]
  · rw [stop]
    exact reading
  · rw [stop, Chunk.slotsAt_succ drop]
    exact behind

/-- A slot with an instruction ends behind its operand. -/
theorem Slot.stop_of_instruction (slot : Slot) {i : Instruction}
    (content : slot.content = .instruction i) :
    slot.stop = slot.offset + (1 + i.opcode.operandLength) := by
  rw [stop, next, content]
  rfl

/-- **A processor reads what slots hold.** -/
theorem Slot.found (h : chunk.slotsAt offset = slot :: others) :
    slot.Found chunk offset others := by
  unfold Chunk.slotsAt at h
  generalize (if offset = 0 then none else _) = before at h
  cases drop : chunk.code.drop offset with
  | nil =>
    rw [drop] at h
    cases h
  | cons b rest =>
    have inside := Chunk.lt_size_of_drop drop
    have read (m : Machine) := Processor.readByte_of_drop m drop
    rw [drop, slotsFrom] at h
    cases op : Opcode.ofByte? b.byte with
    | none =>
      rw [op] at h
      obtain ⟨rfl, rfl⟩ := List.cons.inj h
      refine .of_last inside drop rfl rfl rfl fun m => ?_
      simp only [Processor.readInstruction, read, op]
      rfl
    | some op' =>
      cases form : op'.form with
      | whole i =>
        simp only [op, form] at h
        obtain ⟨rfl, rfl⟩ := List.cons.inj h
        have stop := stop_of_instruction ⟨offset, before, b.line, b.line, .instruction i⟩ rfl
        obtain ⟨opcode, -, none⟩ := Opcode.of_whole form
        rw [opcode, none] at stop
        refine .of_last inside drop stop rfl rfl fun m => ?_
        simp only [Processor.readInstruction, read, op, form]
        rfl
      | awaits complete =>
        have behind := Chunk.drop_succ_of_drop drop
        cases rest with
        | nil =>
          have missing (m : Machine) := Processor.readByte_of_drop_nil m behind
          simp only [op, form] at h
          obtain ⟨rfl, rfl⟩ := List.cons.inj h
          refine .of_last inside drop rfl rfl rfl fun m => ?_
          simp only [Processor.readInstruction, read, op, form, missing]
          rfl
        | cons k rest =>
          have readOperand (m : Machine) := Processor.readByte_of_drop m behind
          simp only [op, form] at h
          obtain ⟨rfl, rfl⟩ := List.cons.inj h
          have stop := stop_of_instruction
            ⟨offset, before, b.line, k.line, .instruction (complete k.byte)⟩ rfl
          obtain ⟨opcode, -, one⟩ := Opcode.of_awaits form k.byte
          rw [opcode, one] at stop
          refine .of_last inside behind stop rfl rfl fun m => ?_
          simp only [Processor.readInstruction, read, op, form, readOperand]
          rfl

/-- Where no slots are left, no bytes are. -/
theorem Chunk.drop_of_slotsAt_nil (none : chunk.slotsAt offset = []) :
    chunk.code.drop offset = [] := by
  unfold slotsAt at none
  cases drop : chunk.code.drop offset with
  | nil => rfl
  | cons b rest =>
    rw [drop, Slot.slotsFrom] at none
    split at none
    · cases none
    · split at none
      · cases none
      · split at none <;> cases none

end Reading

/-! ## Fetches -/

namespace Machine

variable {chunk : Chunk} {slot : Slot} {m after : Machine}

/-- Running a slot is reading its instruction and then a step with it. -/
theorem runSlot_eq (chunk : Chunk) (slot : Slot) (m : Machine) :
    runSlot chunk slot m =
      match slot.reading with
      | .error fault => .ended (.failed fault slot.lastLine) (m.trace chunk slot)
      | .ok i => ((m.trace chunk slot).step chunk.constants i).progress slot.lastLine := by
  unfold Slot.reading
  cases content : slot.content with
  | unknown | truncated => rw [runSlot, content]
  | instruction i => exact runSlot_of_instruction content chunk m

/-- Only an instruction lets a run go on. -/
theorem exists_step_of_running (h : runSlot chunk slot m = .running after) :
    ∃ i, slot.reading = .ok i ∧ (m.trace chunk slot).step chunk.constants i = .next after := by
  rw [runSlot_eq] at h
  cases read : slot.reading with
  | error fault =>
    rw [read] at h
    cases h
  | ok i =>
    rw [read] at h
    refine ⟨i, rfl, ?_⟩
    dsimp only at h
    generalize (m.trace chunk slot).step chunk.constants i = result at h ⊢
    cases result <;> cases h
    rfl

/-- What fails in a slot fails on its last line. -/
theorem line_of_failed {fault : RuntimeFault} {line : Nat}
    (h : runSlot chunk slot m = .ended (.failed fault line) after) : line = slot.lastLine := by
  rw [runSlot_eq] at h
  cases read : slot.reading with
  | error fault =>
    rw [read] at h
    cases h
    rfl
  | ok i =>
    rw [read] at h
    dsimp only at h
    generalize (m.trace chunk slot).step chunk.constants i = result at h
    cases result <;> cases h
    rfl

end Machine

namespace Processor

/-- What a run of a slot has come to, with the position behind the slot. -/
def Progress.ofMachine (chunk : Chunk) (position : Nat) : Machine.Progress → Progress
  | .running m => .running ⟨m, chunk, position⟩
  | .ended .finished m => .ended (.ok ()) ⟨m, chunk, position⟩
  | .ended (.failed fault _) m => .ended (.error fault) ⟨m, chunk, position⟩

variable {chunk : Chunk} {offset : Nat} {slot : Slot} {others : List Slot}

/-- **A fetch runs a slot.** -/
theorem fetch_of_slots_cons (m : Machine) (h : chunk.slotsAt offset = slot :: others) :
    (Processor.mk m chunk offset).fetch =
      .ofMachine chunk slot.stop (Machine.runSlot chunk slot m) := by
  have found := Slot.found h
  have slotAt : chunk.slotAt? offset = some slot := by
    have head : chunk.slotAt? offset = (chunk.slotsAt offset).head? := rfl
    rw [head, h]
    rfl
  have traced : (Processor.mk m chunk offset).trace = some ⟨m.trace chunk slot, chunk, offset⟩ := by
    rw [trace, if_pos found.inside, slotAt]
    rfl
  simp only [fetch, traced, found.reading, Machine.runSlot_eq]
  cases slot.reading with
  | error fault => rfl
  | ok i =>
    dsimp only [execute]
    cases (m.trace chunk slot).step chunk.constants i <;> rfl

/-- A fetch at the end of the code fails. -/
theorem fetch_of_slots_nil (m : Machine) (le : offset ≤ chunk.size)
    (h : chunk.slotsAt offset = []) :
    (Processor.mk m chunk offset).fetch =
      .ended (.error (.code (.unexpectedEnd chunk.size))) ⟨m.traceStack, chunk, chunk.size⟩ := by
  have drop := Chunk.drop_of_slotsAt_nil h
  obtain rfl : offset = chunk.size := Nat.le_antisymm le (List.drop_eq_nil_iff.1 drop)
  have traced : (Processor.mk m chunk chunk.size).trace =
      some ⟨m.traceStack, chunk, chunk.size⟩ := if_neg (Nat.lt_irrefl _)
  simp only [fetch, traced, readInstruction, readByte_of_drop_nil _ drop]

/-! ## Runs -/

/-- Fetches that follow one another are taken in turn. -/
theorem fetches_add (m n : Nat) (p : Processor) :
    p.fetches (m + n) =
      match p.fetches m with
      | .running q => q.fetches n
      | .ended result q => .ended result q
      | .stuck => .stuck := by
  induction m generalizing p with
  | zero => rw [Nat.zero_add, fetches]
  | succ m ih =>
    rw [Nat.succ_add, fetches, fetches]
    cases p.fetch with
    | running q => exact ih q
    | ended | stuck => rfl

/-- Where a run of slots ends, if not before, it ends with a fault. -/
def endOf (chunk : Chunk) : Machine.Progress → Machine.Ending × Machine
  | .ended ending m => (ending, m)
  | .running m =>
    (.failed (.code (.unexpectedEnd chunk.size)) (chunk.lineAt (chunk.size - 1)), m.traceStack)

/-- **Enough fetches run all slots.** -/
theorem exists_fetches_eq {n : Nat} (m : Machine) (le : offset ≤ chunk.size)
    (enough : (chunk.slotsAt offset).length < n) :
    ∃ result q, (Processor.mk m chunk offset).fetches n = .ended result q ∧
      (q.ending result, q.machine) =
        endOf chunk (Machine.runSlots chunk (chunk.slotsAt offset) m) := by
  induction n generalizing m offset with
  | zero => omega
  | succ n ih =>
    rw [fetches]
    cases slots : chunk.slotsAt offset with
    | nil =>
      rw [fetch_of_slots_nil m le slots]
      exact ⟨_, _, rfl, rfl⟩
    | cons slot others =>
      have found := Slot.found slots
      rw [fetch_of_slots_cons m slots, Machine.runSlots]
      rw [slots, List.length_cons] at enough
      cases eq : Machine.runSlot chunk slot m with
      | running after =>
        obtain ⟨i, reading, -⟩ := Machine.exists_step_of_running eq
        have behind := found.others reading
        rw [behind] at enough ⊢
        exact ih after found.stop_le (by omega)
      | ended ending after =>
        cases ending with
        | finished => exact ⟨_, _, rfl, rfl⟩
        | failed fault line =>
          refine ⟨_, _, rfl, ?_⟩
          rw [Machine.line_of_failed eq, found.lastLine]
          rfl

/-- **A processor runs a chunk like a machine,** with no more fetches than the chunk has bytes
and one. Afterwards it has no chunk. -/
theorem interpretChunk_eq_machine (p : Processor) (chunk : Chunk) :
    p.interpretChunk (chunk.size + 1) chunk =
      some ((p.machine.interpretChunk chunk).1,
        ⟨(p.machine.interpretChunk chunk).2, .empty, 0⟩) := by
  have enough : (chunk.slotsAt 0).length < chunk.size + 1 :=
    Nat.lt_succ_of_le (Slot.length_slotsFrom_le 0 none chunk.code)
  obtain ⟨result, q, ended, eq⟩ :=
    exists_fetches_eq (p.machine.begun chunk) (Nat.zero_le _) enough
  have run : (p.machine.begun chunk).run chunk = (q.ending result, q.machine) := by
    rw [eq, Chunk.slotsAt_zero, Machine.run]
    cases Machine.runSlots chunk chunk.slots (p.machine.begun chunk) <;> rfl
  rw [interpretChunk, load, ended, Machine.interpretChunk_eq, run]
  rfl

end Processor
end StackScript
