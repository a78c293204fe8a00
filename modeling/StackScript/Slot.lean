/-
# Where instructions start

Reading a chunk from its first byte divides the code into slots. A slot holds a whole
instruction, a byte that is no operation code, or an operation code whose operand is
cut off by the end of the code.

`slotsFrom` is the one reader: listings show its slots, the machine runs them.
`slotsFrom_encode` says that it reads back what was written.
-/
import StackScript.Chunk
import StackScript.Instruction

namespace StackScript

/-- What a slot holds. -/
inductive Slot.Content where
  | instruction (i : Instruction)
  | unknown (byte : UInt8)
  | truncated (op : Opcode)
  deriving DecidableEq, Repr

/-- The number of code bytes from one slot to the next. A cut-off operand counts. -/
def Slot.Content.width : Content → Nat
  | instruction i => 1 + i.opcode.operandLength
  | unknown _ => 1
  | truncated op => 1 + op.operandLength

/-- A place in the code where an instruction is looked for. -/
structure Slot where
  /-- The position of the first byte. -/
  offset : Nat
  /-- The line of the byte before, if there is one. -/
  lineBefore : Option Nat
  /-- The line of the first byte. -/
  line : Nat
  /-- The line of the last byte that is there. -/
  lastLine : Nat
  content : Slot.Content
  deriving DecidableEq, Repr

namespace Slot

/-- The position of the slot after. -/
def next (slot : Slot) : Nat :=
  slot.offset + slot.content.width

/-- The slots of some code at `offset`, after a byte of the line `before`. -/
def slotsFrom (offset : Nat) (before : Option Nat) : List CodeByte → List Slot
  | [] => []
  | b :: rest =>
    match Opcode.ofByte? b.byte with
    | none =>
      ⟨offset, before, b.line, b.line, .unknown b.byte⟩ :: slotsFrom (offset + 1) (some b.line) rest
    | some op =>
      match op.form with
      | .whole i =>
        ⟨offset, before, b.line, b.line, .instruction i⟩ ::
          slotsFrom (offset + 1) (some b.line) rest
      | .awaits complete =>
        match rest with
        | [] => [⟨offset, before, b.line, b.line, .truncated op⟩]
        | k :: rest =>
          ⟨offset, before, b.line, k.line, .instruction (complete k.byte)⟩ ::
            slotsFrom (offset + 2) (some k.line) rest

/-- An instruction on one line is read back, whatever follows it. -/
theorem slotsFrom_encode (offset : Nat) (before : Option Nat) (i : Instruction) (line : Nat)
    (rest : List CodeByte) :
    slotsFrom offset before (i.encode.map (⟨·, line⟩) ++ rest) =
      ⟨offset, before, line, line, .instruction i⟩ ::
        slotsFrom (offset + i.encode.length) (some line) rest := by
  rcases i.form_opcode with ⟨k, complete, hk, hf, rfl⟩ | ⟨hk, hf⟩
  · simp [Instruction.encode, slotsFrom, hk, hf]
  · simp [Instruction.encode, slotsFrom, hk, hf]

end Slot

/-- The slots of a chunk. -/
def Chunk.slots (chunk : Chunk) : List Slot :=
  Slot.slotsFrom 0 none chunk.code

/-- The slot at any position of the code, a slot of the chunk or not. -/
def Chunk.slotAt? (chunk : Chunk) (offset : Nat) : Option Slot :=
  let before := if offset = 0 then none else chunk.code[offset - 1]?.map (·.line)
  (Slot.slotsFrom offset before (chunk.code.drop offset)).head?

end StackScript
