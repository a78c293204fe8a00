/-
# Where instructions start, for listings and for runs

The code of a chunk is bytes only. Where an instruction starts is found by two readers that
know nothing of each other:

| reader | goes on |
| --- | --- |
| listing (`Chunk.entriesFrom`) | by the operand length of the operation, or one byte |
| run (`Processor.fetch`) | behind what it has read, if that has not ended the run |

Both find the slots of the chunk. They agree on all code, if it has been compiled or not: a run
comes to the positions of a listing in turn, up to where it ends; and only if it does not end
before, it looks for an operation code behind the last byte (`Processor.positions_eq`).

A traced run logs the instructions that it comes to. Their texts are those that a listing
before the run has, even if strings were added since.
-/
import StackScript.Proofs.Liveness
import StackScript.Proofs.Machine.Processor
import StackScript.Proofs.Machine.Trace

namespace StackScript

open Columns (padLeft padRight)

/-! ## Listings by operand lengths -/

/-- An entry of a listing: where it starts, what it shows, and where the next one starts. -/
structure Entry where
  offset : Nat
  text : String
  next : Nat
  deriving DecidableEq, Repr

namespace Chunk

/-- The columns in front of the operation at a position. -/
def placeText (chunk : Chunk) (offset : Nat) : String :=
  padLeft 4 '0' (toString offset) ++ " " ++
    (if 0 < offset ∧ chunk.lineAt offset = chunk.lineAt (offset - 1) then "   |"
      else padLeft 4 ' ' (toString (chunk.lineAt offset))) ++ " "

/-- The entry at a position where there is a byte. -/
def entryAt (chunk : Chunk) (pool : StringPool) (offset : Nat) (byte : UInt8) : Entry :=
  match Opcode.ofByte? byte with
  | none => ⟨offset, chunk.placeText offset ++ s!"<unknown 0x{Hex.byte byte}>", offset + 1⟩
  | some op =>
    if op.operandLength = 0 then ⟨offset, chunk.placeText offset ++ op.mnemonic, offset + 1⟩
    else
      let operand :=
        match chunk.code[offset + 1]? with
        | some k => Slot.operandText pool chunk.constants op k.byte
        | none => s!"{padRight 16 op.mnemonic} <truncated>"
      ⟨offset, chunk.placeText offset ++ operand, offset + 1 + op.operandLength⟩

/-- An entry stands at the offset that was asked for. -/
theorem offset_entryAt (chunk : Chunk) (pool : StringPool) (offset : Nat) (byte : UInt8) :
    (chunk.entryAt pool offset byte).offset = offset := by
  unfold entryAt
  dsimp only
  split
  · rfl
  · split <;> rfl

/-- The next entry stands further down. -/
theorem lt_next_entryAt (chunk : Chunk) (pool : StringPool) (offset : Nat) (byte : UInt8) :
    offset < (chunk.entryAt pool offset byte).next := by
  unfold entryAt
  dsimp only
  split
  · exact Nat.lt_succ_self offset
  · split <;> dsimp only <;> omega

/-- The entries from a position on. -/
def entriesFrom (chunk : Chunk) (pool : StringPool) (offset : Nat) : List Entry :=
  match _inside : chunk.code[offset]? with
  | none => []
  | some b =>
    chunk.entryAt pool offset b.byte ::
      entriesFrom chunk pool (chunk.entryAt pool offset b.byte).next
termination_by chunk.size - offset
decreasing_by
  have lt : offset < chunk.size := (List.getElem?_eq_some_iff.1 _inside).1
  have := chunk.lt_next_entryAt pool offset b.byte
  omega

/-- The entries of a listing. -/
def entries (chunk : Chunk) (pool : StringPool) : List Entry :=
  chunk.entriesFrom pool 0

section Entries

variable {chunk : Chunk} {pool : StringPool} {offset : Nat} {e : Entry}

/-- The first entry is that of the position. -/
theorem offset_of_mem_head? (mem : e ∈ (chunk.entriesFrom pool offset).head?) :
    e.offset = offset := by
  rw [entriesFrom] at mem
  split at mem
  · cases mem
  · obtain rfl := Option.some.inj mem
    exact chunk.offset_entryAt ..

/-- No entry starts in front of where the listing starts. -/
theorem le_offset_of_mem (mem : e ∈ chunk.entriesFrom pool offset) : offset ≤ e.offset := by
  fun_induction entriesFrom chunk pool offset with
  | case1 => cases mem
  | case2 offset b _ ih =>
    rcases List.mem_cons.1 mem with rfl | mem
    · exact (chunk.offset_entryAt ..).ge
    · exact Nat.le_trans (Nat.le_of_lt (chunk.lt_next_entryAt ..)) (ih mem)

/-- Every entry has a byte. -/
theorem offset_lt_of_mem (mem : e ∈ chunk.entriesFrom pool offset) : e.offset < chunk.size := by
  fun_induction entriesFrom chunk pool offset with
  | case1 => cases mem
  | case2 offset b inside ih =>
    rcases List.mem_cons.1 mem with rfl | mem
    · rw [offset_entryAt]
      exact (List.getElem?_eq_some_iff.1 inside).1
    · exact ih mem

/-- **Entries start further and further behind.** -/
theorem pairwise_offset (chunk : Chunk) (pool : StringPool) (offset : Nat) :
    ((chunk.entriesFrom pool offset).map (·.offset)).Pairwise (· < ·) := by
  fun_induction entriesFrom chunk pool offset with
  | case1 => exact .nil
  | case2 offset b _ ih =>
    rw [List.map_cons, List.pairwise_cons, List.forall_mem_map, offset_entryAt]
    exact ⟨fun e mem => Nat.lt_of_lt_of_le (chunk.lt_next_entryAt ..) (le_offset_of_mem mem), ih⟩

/-- **The bytes of the entries in turn are the bytes of the code.** -/
theorem flatMap_entriesFrom (chunk : Chunk) (pool : StringPool) (offset : Nat) :
    (chunk.entriesFrom pool offset).flatMap
        (fun e => List.range' e.offset (min e.next chunk.size - e.offset)) =
      List.range' offset (chunk.size - offset) := by
  fun_induction entriesFrom chunk pool offset with
  | case1 offset outside =>
    have le : chunk.size ≤ offset := List.getElem?_eq_none_iff.1 outside
    rw [Nat.sub_eq_zero_of_le le]
    rfl
  | case2 offset b inside ih =>
    have lt : offset < chunk.size := (List.getElem?_eq_some_iff.1 inside).1
    have next := chunk.lt_next_entryAt pool offset b.byte
    rw [List.flatMap_cons, ih, offset_entryAt]
    generalize (chunk.entryAt pool offset b.byte).next = next' at next
    rcases Nat.le_total next' chunk.size with le | le
    · have whole : chunk.size - offset = (next' - offset) + (chunk.size - next') := by omega
      have behind : next' = offset + (next' - offset) := by omega
      rw [Nat.min_eq_left le, whole, ← List.range'_append_1, ← behind]
    · rw [Nat.min_eq_right le, Nat.sub_eq_zero_of_le le, List.range'_zero, List.append_nil]

end Entries
end Chunk

/-! ## Slots as entries -/

/-- A slot as an entry of a listing. -/
def Slot.entry (pool : StringPool) (constants : List Value) (slot : Slot) : Entry :=
  ⟨slot.offset, slot.text pool constants, slot.next⟩

section Slots

variable {chunk : Chunk} {pool : StringPool} {offset : Nat} {slot : Slot} {others : List Slot}
  {b : CodeByte}

/-- Behind the last byte there are no slots. -/
theorem Chunk.slotsAt_of_size_le (le : chunk.size ≤ offset) : chunk.slotsAt offset = [] := by
  rw [slotsAt, List.drop_eq_nil_of_le le]
  rfl

/-- The columns in front of a slot. -/
theorem Slot.text_eq (inside : chunk.code[offset]? = some b) (content : Content)
    (lastLine : Nat) :
    (Slot.mk offset (if offset = 0 then none else chunk.code[offset - 1]?.map (·.line)) b.line
      lastLine content).text pool chunk.constants =
        chunk.placeText offset ++ content.text pool chunk.constants := by
  have line : chunk.lineAt offset = b.line := by rw [Chunk.lineAt, inside]; rfl
  rw [text, Chunk.placeText, lineText, line]
  dsimp only
  congr 3
  refine if_congr ?_ rfl rfl
  rcases Nat.eq_zero_or_pos offset with rfl | pos
  · simp
  · have lt : offset - 1 < chunk.code.length := by
      have := (List.getElem?_eq_some_iff.1 inside).1
      omega
    have before : chunk.lineAt (offset - 1) = chunk.code[offset - 1].line := by
      rw [Chunk.lineAt, List.getElem?_eq_getElem lt]
      rfl
    rw [if_neg (Nat.ne_of_gt pos), List.getElem?_eq_getElem lt, before]
    simp [pos, eq_comm]

section EntryAt

variable {byte : UInt8} {op : Opcode}

/-- The entry of a byte that is no operation says so, and is one byte long. -/
theorem Chunk.entryAt_unknown (pool : StringPool) (offset : Nat)
    (unknown : Opcode.ofByte? byte = none) :
    chunk.entryAt pool offset byte =
      ⟨offset, chunk.placeText offset ++ (Slot.Content.unknown byte).text pool chunk.constants,
        offset + 1⟩ := by
  rw [entryAt, unknown]
  rfl

/-- The entry of an operation without operand is one byte long. -/
theorem Chunk.entryAt_whole (pool : StringPool) (offset : Nat) {i : Instruction}
    (known : Opcode.ofByte? byte = some op) (form : op.form = .whole i) :
    chunk.entryAt pool offset byte =
      ⟨offset, chunk.placeText offset ++ (Slot.Content.instruction i).text pool chunk.constants,
        offset + 1⟩ := by
  obtain ⟨rfl, plain, none⟩ := Opcode.of_whole form
  rw [entryAt, known]
  dsimp only
  rw [if_pos none, Slot.Content.text, plain]

/-- The entry of an operation that lacks its operand goes one byte past the code. -/
theorem Chunk.entryAt_truncated (pool : StringPool) {complete : UInt8 → Instruction}
    (known : Opcode.ofByte? byte = some op) (form : op.form = .awaits complete)
    (missing : chunk.code[offset + 1]? = none) :
    chunk.entryAt pool offset byte =
      ⟨offset, chunk.placeText offset ++ (Slot.Content.truncated op).text pool chunk.constants,
        offset + 2⟩ := by
  obtain ⟨-, -, one⟩ := Opcode.of_awaits form 0
  rw [entryAt, known]
  dsimp only
  rw [if_neg (by omega), missing, one]
  rfl

/-- The entry of an operation with an operand is two bytes long. -/
theorem Chunk.entryAt_awaits (pool : StringPool) {complete : UInt8 → Instruction} {k : CodeByte}
    (known : Opcode.ofByte? byte = some op) (form : op.form = .awaits complete)
    (next : chunk.code[offset + 1]? = some k) :
    chunk.entryAt pool offset byte =
      ⟨offset, chunk.placeText offset ++
        (Slot.Content.instruction (complete k.byte)).text pool chunk.constants, offset + 2⟩ := by
  obtain ⟨opcode, operand, one⟩ := Opcode.of_awaits form k.byte
  rw [entryAt, known]
  dsimp only
  rw [if_neg (by omega), next, one, Slot.Content.text, operand, opcode]

end EntryAt

/-- The first slot at a position, as a listing by operand lengths finds it, and the slots
behind it. -/
structure Slot.Listed (chunk : Chunk) (pool : StringPool) (offset : Nat) (slot : Slot)
    (others : List Slot) (b : CodeByte) : Prop where
  inside : chunk.code[offset]? = some b
  entry : chunk.entryAt pool offset b.byte = slot.entry pool chunk.constants
  others : others = chunk.slotsAt slot.next

/-- A slot is listed if its content is, and if both readers go on at the same place. -/
theorem Slot.listed_of_entryAt {content : Content} {lastLine width : Nat}
    (inside : chunk.code[offset]? = some b)
    (entry : chunk.entryAt pool offset b.byte =
      ⟨offset, chunk.placeText offset ++ content.text pool chunk.constants, offset + width⟩)
    (wide : content.width = width) (behind : others = chunk.slotsAt (offset + width)) :
    (Slot.mk offset (if offset = 0 then none else chunk.code[offset - 1]?.map (·.line)) b.line
      lastLine content).Listed chunk pool offset others b := by
  subst wide
  refine ⟨inside, ?_, behind⟩
  rw [entry, Slot.entry, text_eq inside]
  rfl

/-- **A listing by operand lengths finds the slots.** -/
theorem Chunk.exists_listed (pool : StringPool) (h : chunk.slotsAt offset = slot :: others) :
    ∃ b, slot.Listed chunk pool offset others b := by
  cases drop : chunk.code.drop offset with
  | nil =>
    rw [slotsAt, drop] at h
    cases h
  | cons b rest =>
    have inside := getElem?_of_drop drop
    have behind := slotsAt_succ drop
    refine ⟨b, ?_⟩
    rw [slotsAt, drop, Slot.slotsFrom] at h
    cases known : Opcode.ofByte? b.byte with
    | none =>
      simp only [known] at h
      obtain ⟨rfl, rfl⟩ := List.cons.inj h
      exact Slot.listed_of_entryAt inside (entryAt_unknown pool offset known) rfl behind.symm
    | some op =>
      cases form : op.form with
      | whole i =>
        obtain ⟨rfl, -, none⟩ := Opcode.of_whole form
        have wide : (Slot.Content.instruction i).width = 1 := by rw [Slot.Content.width, none]
        simp only [known, form] at h
        obtain ⟨rfl, rfl⟩ := List.cons.inj h
        exact Slot.listed_of_entryAt inside (entryAt_whole pool offset known form) wide behind.symm
      | awaits complete =>
        have after := drop_succ_of_drop drop
        cases rest with
        | nil =>
          -- The operand is missing, and nothing is behind the operation.
          obtain ⟨-, -, one⟩ := Opcode.of_awaits form 0
          have missing : chunk.code[offset + 1]? = none := by
            rw [← List.head?_drop, after]
            rfl
          have size : chunk.size ≤ offset + 1 := List.drop_eq_nil_iff.1 after
          have wide : (Slot.Content.truncated op).width = 2 := by rw [Slot.Content.width, one]
          simp only [known, form] at h
          obtain ⟨rfl, rfl⟩ := List.cons.inj h
          exact Slot.listed_of_entryAt inside (entryAt_truncated pool known form missing) wide
            (slotsAt_of_size_le (Nat.le_succ_of_le size)).symm
        | cons k rest =>
          obtain ⟨opcode, -, one⟩ := Opcode.of_awaits form k.byte
          have next := getElem?_of_drop after
          have wide : (Slot.Content.instruction (complete k.byte)).width = 2 := by
            rw [Slot.Content.width, opcode, one]
          simp only [known, form] at h
          obtain ⟨rfl, rfl⟩ := List.cons.inj h
          exact Slot.listed_of_entryAt inside (entryAt_awaits pool known form next) wide
            (slotsAt_succ after).symm

/-- A listed slot stands where the listing is. -/
theorem Slot.Listed.offset_eq {b : CodeByte} (listed : slot.Listed chunk pool offset others b) :
    slot.offset = offset := by
  have entry := congrArg Entry.offset listed.entry
  rw [Chunk.offset_entryAt] at entry
  exact entry.symm

/-- **The entries of a listing are the slots.** -/
theorem Chunk.entriesFrom_eq (chunk : Chunk) (pool : StringPool) (offset : Nat) :
    chunk.entriesFrom pool offset =
      (chunk.slotsAt offset).map (·.entry pool chunk.constants) := by
  fun_induction entriesFrom chunk pool offset with
  | case1 offset outside =>
    rw [slotsAt_of_size_le (List.getElem?_eq_none_iff.1 outside)]
    rfl
  | case2 offset b inside ih =>
    cases slots : chunk.slotsAt offset with
    | nil =>
      have drop := drop_of_slotsAt_nil slots
      rw [← List.head?_drop, drop] at inside
      cases inside
    | cons slot others =>
      obtain ⟨b', listed⟩ := exists_listed pool slots
      obtain rfl : b = b' := Option.some.inj (inside.symm.trans listed.inside)
      rw [ih, listed.entry, listed.others]
      rfl

/-- The entries of a listing are those of the slots, in their order. -/
theorem Chunk.entries_eq (chunk : Chunk) (pool : StringPool) :
    chunk.entries pool = chunk.slots.map (·.entry pool chunk.constants) :=
  chunk.entriesFrom_eq pool 0

end Slots

/-- A listing shows its entries, one a line. -/
theorem Chunk.listing_eq (chunk : Chunk) (pool : StringPool) (title : String) :
    chunk.listing pool title = s!"== {title} ==\n" ++
      String.join ((chunk.entries pool).map (·.text ++ "\n")) := by
  rw [listing, entries_eq, List.map_map]
  rfl

/-! ## Positions of a run -/

namespace Processor

/-- The positions at which at most `n` fetches in turn look for an operation code. -/
def positions : Nat → Processor → List Nat
  | 0, _ => []
  | n + 1, p =>
    p.position :: match p.fetch with
      | .running q => positions n q
      | .ended _ _ | .stuck => []

variable {chunk : Chunk} {offset : Nat}

/-- The position behind the last byte, if a run comes to that. -/
def endPositions (chunk : Chunk) : Machine.Progress → List Nat
  | .running _ => [chunk.size]
  | .ended _ _ => []

/-- **A run looks where slots start,** and then, if it does not end before, behind the last
byte. -/
theorem positions_eq {n : Nat} (m : Machine) (le : offset ≤ chunk.size)
    (enough : (chunk.slotsAt offset).length < n) :
    (Processor.mk m chunk offset).positions n =
      (Machine.fetched chunk (chunk.slotsAt offset) m).map (·.offset) ++
        endPositions chunk (Machine.runSlots chunk (chunk.slotsAt offset) m) := by
  induction n generalizing m offset with
  | zero => omega
  | succ n ih =>
    rw [positions]
    cases slots : chunk.slotsAt offset with
    | nil =>
      have drop := Chunk.drop_of_slotsAt_nil slots
      obtain rfl : offset = chunk.size := Nat.le_antisymm le (List.drop_eq_nil_iff.1 drop)
      rw [fetch_of_slots_nil m le slots]
      rfl
    | cons slot others =>
      obtain ⟨b, listed⟩ := Chunk.exists_listed .empty slots
      have found := Slot.found slots
      rw [fetch_of_slots_cons m slots, Machine.runSlots, Machine.fetched, List.map_cons,
        listed.offset_eq]
      rw [slots, List.length_cons] at enough
      cases eq : Machine.runSlot chunk slot m with
      | running after =>
        obtain ⟨i, reading, -⟩ := Machine.exists_step_of_running eq
        have behind := found.others reading
        rw [behind] at enough ⊢
        exact congrArg (offset :: ·) (ih after found.stop_le (by omega))
      | ended ending after => cases ending <;> rfl

end Processor

/-! ## Main statement -/

namespace Processor

variable {chunk : Chunk} {pool : StringPool}

/-- A processor fetches at the offsets of the slots that are run, and then where the run ends. -/
theorem positions_load (p : Processor) (chunk : Chunk) :
    (p.load chunk).positions (chunk.size + 1) =
      (Machine.fetched chunk chunk.slots (p.machine.begun chunk)).map (·.offset) ++
        endPositions chunk (Machine.runSlots chunk chunk.slots (p.machine.begun chunk)) :=
  positions_eq _ (Nat.zero_le _) (Nat.lt_succ_of_le (Slot.length_slotsFrom_le 0 none chunk.code))

/-- A run looks at a part of the positions of a listing, and behind them only after all. -/
theorem positions_prefix (p : Processor) (chunk : Chunk) (pool : StringPool) :
    (p.load chunk).positions (chunk.size + 1) <+:
        (chunk.entries pool).map (·.offset) ++ [chunk.size] ∧
      (chunk.size ∈ (p.load chunk).positions (chunk.size + 1) ↔
        ∃ after, Machine.runSlots chunk chunk.slots (p.machine.begun chunk) = .running after) := by
  have offsets : (chunk.entries pool).map (·.offset) = chunk.slots.map (·.offset) := by
    rw [chunk.entries_eq, List.map_map]
    rfl
  have part := (Machine.fetched_prefix chunk chunk.slots (p.machine.begun chunk)).map (·.offset)
  rw [positions_load, offsets]
  cases run : Machine.runSlots chunk chunk.slots (p.machine.begun chunk) with
  | running after =>
    rw [Machine.fetched_of_running run]
    exact ⟨List.prefix_rfl, fun _ => ⟨after, rfl⟩, fun _ => by simp [endPositions]⟩
  | ended ending after =>
    rw [endPositions, List.append_nil]
    refine ⟨part.trans (List.prefix_append ..), fun mem => ?_, by simp⟩
    rw [← offsets] at part
    obtain ⟨e, mem, eq⟩ := List.mem_map.1 (part.subset mem)
    exact absurd eq (Nat.ne_of_lt (Chunk.offset_lt_of_mem mem))

end Processor

/-- A traced run of an accepted source logs as many entries of a listing as it looks at
positions. -/
theorem Machine.instructions_interpret {m : Machine} {source : String} {chunk : Chunk}
    {pool : StringPool} (traced : m.settings.traceExecution = true)
    (compiled : StackScript.compile source m.pool = (.ok chunk, pool)) :
    (((Processor.mk { m with pool } .empty 0).load chunk).positions (chunk.size + 1)).length ≤
        (chunk.entries pool).length ∧
      (m.interpret source).2.instructions = m.instructions ++
        ((chunk.entries pool).map (·.text)).take
          (((Processor.mk { m with pool } .empty 0).load chunk).positions (chunk.size + 1)).length
      := by
  let start : Machine := { m with pool }
  let run := fetched chunk chunk.slots (start.begun chunk)
  obtain ⟨holds, -⟩ := holds_of_compile compiled
  -- Compiled code ends with `finish`, so its run does not come to the end of the code.
  have length : (((Processor.mk start .empty 0).load chunk).positions (chunk.size + 1)).length =
      run.length := by
    rw [Processor.positions_load]
    cases eq : runSlots chunk chunk.slots (start.begun chunk) with
    | running after => exact absurd eq (runSlots_ne_running holds)
    | ended ending after => rw [Processor.endPositions, List.append_nil, List.length_map]
  have part : run <+: chunk.slots := fetched_prefix ..
  have interpreted : m.interpret source = start.interpretChunk chunk := by
    rw [interpret, compile, compiled]
  have texts : (chunk.entries pool).map (·.text) =
      chunk.slots.map (·.text pool chunk.constants) := by
    rw [chunk.entries_eq, List.map_map]
    rfl
  rw [length, interpreted, texts, ← List.map_take, ← List.prefix_iff_eq_take.1 part,
    chunk.entries_eq, List.length_map]
  exact ⟨part.length_le,
    instructions_interpretChunk (m := start) traced (exists_content?_of_compile compiled)⟩

/-- **Listings and runs agree where instructions start.** Of any chunk, a listing starts at the
first byte, goes on further behind, and covers every byte once. In any state of the machine, a
run ends within as many fetches as there are bytes, and one. It looks for operation codes at the
positions of a listing in turn, up to where it ends; only if it does not end before, it looks
behind the last byte. And a traced run of an accepted source logs the texts of a listing made
before it, as many as it looks at positions. -/
theorem listing_and_run_agree :
    (∀ (chunk : Chunk) (pool : StringPool) (title : String),
      chunk.listing pool title = s!"== {title} ==\n" ++
        String.join ((chunk.entries pool).map (·.text ++ "\n")) ∧
      (∀ e ∈ (chunk.entries pool).head?, e.offset = 0) ∧
      ((chunk.entries pool).map (·.offset)).Pairwise (· < ·) ∧
      (chunk.entries pool).flatMap
        (fun e => List.range' e.offset (min e.next chunk.size - e.offset)) =
          List.range chunk.size) ∧
    (∀ (p : Processor) (chunk : Chunk) (pool : StringPool),
      let looked := (p.load chunk).positions (chunk.size + 1)
      p.interpretChunk (chunk.size + 1) chunk = some ((p.machine.interpretChunk chunk).1,
        ⟨(p.machine.interpretChunk chunk).2, .empty, 0⟩) ∧
      looked <+: (chunk.entries pool).map (·.offset) ++ [chunk.size] ∧
      (chunk.size ∈ looked ↔ ∃ after,
        Machine.runSlots chunk chunk.slots (p.machine.begun chunk) = .running after)) ∧
    ∀ (m : Machine) (source : String) (chunk : Chunk) (pool : StringPool),
      m.settings.traceExecution = true → compile source m.pool = (.ok chunk, pool) →
      let looked := ((Processor.mk { m with pool } .empty 0).load chunk).positions (chunk.size + 1)
      looked.length ≤ (chunk.entries pool).length ∧
      (m.interpret source).2.instructions =
        m.instructions ++ ((chunk.entries pool).map (·.text)).take looked.length := by
  refine ⟨fun chunk pool title => ⟨chunk.listing_eq pool title, ?_, chunk.pairwise_offset pool 0,
    ?_⟩, fun p chunk pool => ⟨p.interpretChunk_eq_machine chunk, p.positions_prefix chunk pool⟩,
    fun m source chunk pool traced compiled => Machine.instructions_interpret traced compiled⟩
  · exact fun e mem => Chunk.offset_of_mem_head? mem
  · rw [List.range_eq_range']
    exact chunk.flatMap_entriesFrom pool 0

/-- Of ten instructions a run that joins two strings comes to six. -/
theorem listing_and_run_agree_fault :
    let m := Machine.create ⟨256, true⟩ .unlimited .unlimited
    let source := "var a = \"x\" + \"y\"; print -nil; print a;"
    m.settings.traceExecution = true ∧ ∃ chunk pool, compile source m.pool = (.ok chunk, pool) ∧
      (chunk.entries pool).map (·.offset) = [0, 2, 4, 5, 7, 8, 9, 10, 12, 13] ∧
      ((Processor.mk { m with pool } .empty 0).load chunk).positions (chunk.size + 1) =
        [0, 2, 4, 5, 7, 8] ∧
      (m.interpret source).2.instructions = ((chunk.entries pool).map (·.text)).take 6 := by
  intro m source
  let chunk := (ParsedSource.ofSource source).program.chunk
    (Literal.linkAll m.pool (ParsedSource.ofSource source).constants).1
  let pool := (compile source m.pool).2
  have compiled : compile source m.pool = (.ok chunk, pool) :=
    Prod.ext (compile_eq_ok_iff.2 ⟨by decide +kernel, rfl⟩) rfl
  have looked : ((Processor.mk { m with pool } .empty 0).load chunk).positions (chunk.size + 1) =
      [0, 2, 4, 5, 7, 8] := by decide +kernel
  obtain ⟨-, -, traces⟩ := listing_and_run_agree
  have traced := (traces m source chunk pool rfl compiled).2
  rw [looked] at traced
  exact ⟨rfl, chunk, pool, compiled, by decide +kernel, looked, traced⟩

end StackScript
