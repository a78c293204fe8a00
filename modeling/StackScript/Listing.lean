/-
# Listings

A listing shows a chunk under a title, one slot a line:

| column | width | shown |
| --- | ---: | --- |
| position | 4 | filled up with zeros |
| line | 4 | `|` where it is the line of the byte before |
| operation | 16 | its name; filled up if an operand follows |
| operand | 4 | index and constant in quotes |

A byte that is no operation code, an operand that is cut off and an index without
constant are shown as such.
-/
import StackScript.Columns
import StackScript.Hex
import StackScript.Slot
import StackScript.Value.Text

namespace StackScript

open Columns (padLeft padRight)

/-- An operation with its operand and the constant that it names. -/
def Slot.operandText (pool : StringPool) (constants : List Value) (op : Opcode) (index : UInt8) :
    String :=
  let constant :=
    match constants[index.toNat]? with
    | some v => s!"'{v.text pool}'"
    | none => "<bad constant>"
  padRight 16 op.mnemonic ++ " " ++ padLeft 4 ' ' (toString index.toNat) ++ " " ++ constant

/-- What a slot holds, as a listing shows it. -/
def Slot.Content.text (pool : StringPool) (constants : List Value) : Content → String
  | unknown byte => s!"<unknown 0x{Hex.byte byte}>"
  | truncated op => s!"{padRight 16 op.mnemonic} <truncated>"
  | instruction i =>
    match i.operand? with
    | none => i.opcode.mnemonic
    | some index => operandText pool constants i.opcode index

/-- The line column of a slot. -/
def Slot.lineText (slot : Slot) : String :=
  if slot.lineBefore = some slot.line then "   |" else padLeft 4 ' ' (toString slot.line)

/-- A slot, as a listing shows it. -/
def Slot.text (pool : StringPool) (constants : List Value) (slot : Slot) : String :=
  padLeft 4 '0' (toString slot.offset) ++ " " ++ slot.lineText ++ " " ++
    slot.content.text pool constants

/-- The listing of a chunk under a title. -/
def Chunk.listing (chunk : Chunk) (pool : StringPool) (title : String) : String :=
  let lines := chunk.slots.map fun slot => slot.text pool chunk.constants ++ "\n"
  s!"== {title} ==\n" ++ String.join lines

end StackScript
