/-
# Listings are unambiguous

Nothing in a listing is quoted, and no column has a fixed width: positions, lines and operands
take more where they need it. The text of a constant is shown as it is, so it may have line
breaks and quotes in it, or look like other entries. The code can be told from a listing and the
constants all the same, since an entry can be read from its front:

| column | ends in front of |
| --- | --- |
| position | the first character that is no digit |
| line, operand | the first blank behind something else |
| name of the operation | the first blank or line break |
| constant | where the text of the constant of that index ends |

So where two entries are the same up to what follows them, their contents are the same, and what
follows is, too (`Slot.text_append_inj`). By induction over the slots, equal listings have equal
contents, and these make up the bytes of the code.
-/
import StackScript.Proofs.Boundaries
import StackScript.Proofs.Scanning.Lexicon

namespace StackScript

open Columns (padLeft padRight)

/-! ## Columns -/

namespace Columns

variable {s s' rest rest' : List Char}

/-- A number that is filled up with zeros ends at the next blank. -/
theorem zeros_append_inj {n n' : Nat}
    (eq : (padLeft 4 '0' (toString n)).toList ++ ' ' :: rest =
      (padLeft 4 '0' (toString n')).toList ++ ' ' :: rest') : rest = rest' := by
  obtain ⟨-, behind⟩ := append_inj_of_stop (fun _ mem => isDigit_of_mem_padLeft mem)
    (fun _ mem => isDigit_of_mem_padLeft mem) (by simp) (by simp) eq
  exact (List.cons.inj behind).2

/-- Blanks end where something else begins. -/
theorem blanks_append_inj {k k' : Nat} (ends : s.head? ≠ some ' ') (ends' : s'.head? ≠ some ' ')
    (eq : List.replicate k ' ' ++ s = List.replicate k' ' ' ++ s') : s = s' := by
  have blanks (k : Nat) : ∀ a ∈ List.replicate k ' ', (a == ' ') = true := by
    intro a mem
    rw [List.eq_of_mem_replicate mem]
    rfl
  refine (append_inj_of_stop (p := (· == ' ')) (blanks k) (blanks k') ?_ ?_ eq).2
  · rintro a mem
    exact beq_false_of_ne fun eq => ends (eq ▸ mem)
  · rintro a mem
    exact beq_false_of_ne fun eq => ends' (eq ▸ mem)

/-- Characters, at least one, and no blank. -/
structure IsWord (s : List Char) : Prop where
  ne_nil : s ≠ []
  blank : ' ' ∉ s

/-- What starts with a word does not start with a blank. -/
theorem IsWord.head?_append (word : IsWord s) (rest : List Char) :
    (s ++ rest).head? ≠ some ' ' := by
  obtain ⟨c, others, rfl⟩ := List.exists_cons_of_ne_nil word.ne_nil
  rintro ⟨⟩
  exact word.blank (List.mem_cons_self ..)

/-- A word that is filled up with blanks on the left ends at the next blank. -/
theorem IsWord.append_inj {k k' : Nat} (word : IsWord s) (word' : IsWord s')
    (eq : List.replicate k ' ' ++ (s ++ ' ' :: rest) =
      List.replicate k' ' ' ++ (s' ++ ' ' :: rest')) : s = s' ∧ rest = rest' := by
  have words := blanks_append_inj (word.head?_append _) (word'.head?_append _) eq
  obtain ⟨same, behind⟩ := append_inj_of_stop (p := (· != ' '))
    (fun a mem => bne_iff_ne.2 fun eq => word.blank (eq ▸ mem))
    (fun a mem => bne_iff_ne.2 fun eq => word'.blank (eq ▸ mem)) (by simp) (by simp) words
  exact ⟨same, (List.cons.inj behind).2⟩

/-- A number is written as a word. -/
theorem isWord_toString (n : Nat) : IsWord (toString n).toList := by
  refine ⟨?_, fun mem => ?_⟩
  · rw [Nat.toString_eq_repr, Nat.toList_repr]
    exact Nat.toDigits_ne_nil
  · cases isDigit_of_mem_toString mem

/-- A number can be read off its text. -/
theorem toString_injective {m n : Nat} (eq : toString m = toString n) : m = n := by
  rw [← String.toList_inj, Nat.toString_eq_repr, Nat.toString_eq_repr, Nat.toList_repr,
    Nat.toList_repr] at eq
  rw [← Nat.ofDigitChars_ten_toDigits (n := m), eq, Nat.ofDigitChars_ten_toDigits]

/-- Padding on the left puts characters in front. -/
theorem toList_padLeft (width : Nat) (fill : Char) (text : String) :
    (padLeft width fill text).toList =
      List.replicate (width - text.length) fill ++ text.toList := by
  rw [padLeft, String.toList_append, String.toList_ofList]

/-- Padding on the right puts blanks behind. -/
theorem toList_padRight (width : Nat) (text : String) :
    (padRight width text).toList =
      text.toList ++ List.replicate (width - text.length) ' ' := by
  rw [padRight, String.toList_append, String.toList_ofList]

end Columns

/-- A byte is known from its digits. -/
theorem Hex.eq_of_digits {b b' : UInt8} (high : digit (b.toNat / 16) = digit (b'.toNat / 16))
    (low : digit (b.toNat % 16) = digit (b'.toNat % 16)) : b = b' := by
  have lt := b.toNat_lt
  have lt' := b'.toNat_lt
  have high := digit_inj _ (by omega) _ (by omega) high
  have low := digit_inj _ (by omega) _ (by omega) low
  exact UInt8.toNat_inj.1 (by omega)

/-- The two digits of a byte. -/
theorem Hex.toList_byte (b : UInt8) :
    (byte b).toList = [digit (b.toNat / 16), digit (b.toNat % 16)] :=
  String.toList_ofList

/-- An instruction is its operation with its operand. -/
theorem Instruction.eq_of_opcode_eq {i i' : Instruction} (opcode : i.opcode = i'.opcode)
    (operand : i.operand? = i'.operand?) : i = i' := by
  rcases i.form_opcode with ⟨k, complete, hk, form, rfl⟩ | ⟨hk, form⟩ <;>
    rcases i'.form_opcode with ⟨k', complete', hk', form', rfl⟩ | ⟨hk', form'⟩ <;>
    rw [hk, hk'] at operand <;> cases operand <;> rw [opcode, form'] at form <;> cases form <;> rfl

namespace Slot

open Columns

/-- The line column is a word that is filled up. -/
theorem exists_lineText (slot : Slot) :
    ∃ k word, IsWord word ∧ slot.lineText.toList = List.replicate k ' ' ++ word := by
  unfold lineText
  split
  · exact ⟨3, ['|'], ⟨by decide, by decide⟩, by decide⟩
  · exact ⟨_, _, isWord_toString slot.line, toList_padLeft ..⟩

/-! ## Contents -/

variable {pool : StringPool} {constants : List Value} {rest rest' : List Char}

/-- The constant of an index, as it stands behind its operand. -/
def constantText (pool : StringPool) (constants : List Value) (index : UInt8) : String :=
  match constants[index.toNat]? with
  | some v => s!"'{v.text pool}'"
  | none => "<bad constant>"

/-- The text of an operand is the mnemonic, the index and the constant, in columns. -/
theorem operandText_eq (pool : StringPool) (constants : List Value) (op : Opcode)
    (index : UInt8) :
    operandText pool constants op index =
      padRight 16 op.mnemonic ++ " " ++ padLeft 4 ' ' (toString index.toNat) ++ " " ++
        constantText pool constants index := rfl

namespace Content

/-- The operation in a slot. -/
def opcode? : Content → Option Opcode
  | unknown _ => none
  | truncated op => some op
  | instruction i => some i.opcode

/-- The first word of what a slot shows. -/
def firstWord : Option Opcode → String
  | none => "<unknown"
  | some op => op.mnemonic

/-- What a slot shows behind that word. Blanks of a column and between columns are counted
together. -/
def details (pool : StringPool) (constants : List Value) : Content → List Char
  | unknown byte => ' ' :: '0' :: 'x' :: (Hex.byte byte).toList ++ ['>']
  | truncated op => List.replicate (16 - op.mnemonic.length + 1) ' ' ++ "<truncated>".toList
  | instruction i =>
    match i.operand? with
    | none => []
    | some index =>
      let operand := toString index.toNat
      List.replicate (16 - i.opcode.mnemonic.length + (4 - operand.length) + 1) ' ' ++
        (operand.toList ++ ' ' :: (constantText pool constants index).toList)

/-- A byte that is no operation is listed as unknown, with its value. -/
theorem text_unknown (pool : StringPool) (constants : List Value) (byte : UInt8) :
    (unknown byte).text pool constants = "<unknown 0x" ++ Hex.byte byte ++ ">" := rfl

/-- An operation that lacks its operand is listed as truncated. -/
theorem text_truncated (pool : StringPool) (constants : List Value) (op : Opcode) :
    (truncated op).text pool constants = padRight 16 op.mnemonic ++ " <truncated>" := rfl

/-- The text of a slot starts with a word that tells its operation. -/
theorem toList_text (content : Content) :
    (content.text pool constants).toList =
      (firstWord content.opcode?).toList ++ content.details pool constants := by
  cases content with
  | unknown byte => simp [text_unknown, firstWord, opcode?, details]
  | truncated op =>
    simp [text_truncated, firstWord, opcode?, details, toList_padRight, List.replicate_succ']
  | instruction i =>
    cases operand : i.operand? with
    | none => simp [text, firstWord, opcode?, details, operand]
    | some index =>
      simp [text, firstWord, opcode?, details, operand, operandText_eq, toList_padRight,
        toList_padLeft, ← List.replicate_append_replicate, Nat.add_assoc, List.replicate_succ]

/-- A first word is one. -/
theorem ne_of_mem_firstWord {op : Option Opcode} :
    ∀ c ∈ (firstWord op).toList, (c != ' ' && c != '\n') = true := by
  refine List.all_eq_true.1 ?_
  rcases op with _ | op
  · decide
  · cases op <;> decide

/-- First words tell operations apart. -/
theorem firstWord_injective {op op' : Option Opcode} (eq : firstWord op = firstWord op') :
    op = op' := by
  have all : ∀ op : Option Opcode, op ∈ none :: Opcode.all.map some := by
    rintro (_ | op)
    · exact List.mem_cons_self ..
    · cases op <;> decide
  have distinct : ∀ op ∈ none :: Opcode.all.map some, ∀ op' ∈ none :: Opcode.all.map some,
      firstWord op = firstWord op' → op = op' := by decide +kernel
  exact distinct op (all op) op' (all op') eq

/-- Behind its first word, what a slot shows ends or goes on with a blank. -/
theorem head?_details (content : Content) :
    ∀ a ∈ (content.details pool constants ++ '\n' :: rest).head?,
      (a != ' ' && a != '\n') = false := by
  intro a mem
  obtain rfl | rfl : a = ' ' ∨ a = '\n' := by
    cases content with
    | unknown byte => exact .inl (Option.some.inj mem).symm
    | truncated op => exact .inl (Option.some.inj mem).symm
    | instruction i =>
      rw [details] at mem
      split at mem
      · exact .inr (Option.some.inj mem).symm
      · exact .inl (Option.some.inj mem).symm
  · rfl
  · rfl

/-- Different bytes are shown differently. -/
theorem details_unknown_append_inj {byte byte' : UInt8}
    (eq : (unknown byte).details pool constants ++ '\n' :: rest =
      (unknown byte').details pool constants ++ '\n' :: rest') :
    byte = byte' ∧ rest = rest' := by
  rw [details, details, Hex.toList_byte, Hex.toList_byte] at eq
  simp only [List.cons_append, List.nil_append, List.cons.injEq, true_and] at eq
  obtain ⟨high, low, behind⟩ := eq
  exact ⟨Hex.eq_of_digits high low, behind⟩

/-- A cut-off operand is shown as no operand is. -/
theorem details_truncated_ne (op : Opcode) (i : Instruction) :
    (truncated op).details pool constants ++ '\n' :: rest ≠
      (instruction i).details pool constants ++ '\n' :: rest' := by
  intro eq
  cases operand : i.operand? with
  | none =>
    rw [details, details, operand] at eq
    cases eq
  | some index =>
    have word := isWord_toString index.toNat
    rw [details, details, operand, List.append_assoc, List.append_assoc, List.append_assoc] at eq
    have same := congrArg List.head? (blanks_append_inj (by simp) (word.head?_append _) eq)
    rw [List.head?_append_of_ne_nil _ word.ne_nil] at same
    cases isDigit_of_mem_toString (List.mem_of_mem_head? same.symm)

/-- Instructions are shown with the same operand only if they have it. -/
theorem details_append_inj {i i' : Instruction}
    (eq : (instruction i).details pool constants ++ '\n' :: rest =
      (instruction i').details pool constants ++ '\n' :: rest') :
    i.operand? = i'.operand? ∧ rest = rest' := by
  rw [details, details] at eq
  cases operand : i.operand? with
  | none =>
    cases operand' : i'.operand? with
    | none =>
      rw [operand, operand'] at eq
      exact ⟨rfl, (List.cons.inj eq).2⟩
    | some index' =>
      rw [operand, operand'] at eq
      cases eq
  | some index =>
    cases operand' : i'.operand? with
    | none =>
      rw [operand, operand'] at eq
      cases eq
    | some index' =>
      rw [operand, operand'] at eq
      simp only [List.append_assoc, List.cons_append] at eq
      obtain ⟨shown, behind⟩ :=
        (isWord_toString index.toNat).append_inj (isWord_toString index'.toNat) eq
      obtain rfl : index = index' :=
        UInt8.toNat_inj.1 (toString_injective (String.toList_injective shown))
      -- The index is the same, so the constant is, whatever its text looks like.
      exact ⟨rfl, (List.cons.inj (List.append_cancel_left behind)).2⟩

/-- **Contents can be read from the front.** -/
theorem text_append_inj {content content' : Content}
    (eq : (content.text pool constants).toList ++ '\n' :: rest =
      (content'.text pool constants).toList ++ '\n' :: rest') :
    content = content' ∧ rest = rest' := by
  rw [toList_text, toList_text, List.append_assoc, List.append_assoc] at eq
  obtain ⟨first, behind⟩ := append_inj_of_stop ne_of_mem_firstWord ne_of_mem_firstWord
    content.head?_details content'.head?_details eq
  have opcode := firstWord_injective (String.toList_injective first)
  cases content with
  | unknown byte =>
    cases content' with
    | unknown byte' =>
      obtain ⟨rfl, same⟩ := details_unknown_append_inj behind
      exact ⟨rfl, same⟩
    | truncated op' => cases opcode
    | instruction i' => cases opcode
  | truncated op =>
    cases content' with
    | unknown byte' => cases opcode
    | truncated op' =>
      cases opcode
      exact ⟨rfl, (List.cons.inj (List.append_cancel_left behind)).2⟩
    | instruction i' => exact absurd behind (details_truncated_ne op i')
  | instruction i =>
    cases content' with
    | unknown byte' => cases opcode
    | truncated op' => exact absurd behind.symm (details_truncated_ne op' i)
    | instruction i' =>
      obtain ⟨operand, behind⟩ := details_append_inj behind
      exact ⟨congrArg _ (Instruction.eq_of_opcode_eq (Option.some.inj opcode) operand), behind⟩

end Content

/-! ## Slots -/

/-- **Slots can be read from the front.** -/
theorem text_append_inj {slot slot' : Slot}
    (eq : (slot.text pool constants).toList ++ '\n' :: rest =
      (slot'.text pool constants).toList ++ '\n' :: rest') :
    slot.content = slot'.content ∧ rest = rest' := by
  obtain ⟨k, line, word, column⟩ := slot.exists_lineText
  obtain ⟨k', line', word', column'⟩ := slot'.exists_lineText
  rw [text, text] at eq
  simp only [String.toList_append, column, column', List.append_assoc] at eq
  have behind := zeros_append_inj eq
  obtain ⟨-, contents⟩ := word.append_inj word' behind
  exact Content.text_append_inj contents

/-- What stands in a line each can be read slot by slot. -/
theorem contents_eq_of_lines_eq {slots slots' : List Slot}
    (eq : slots.flatMap (fun slot => (slot.text pool constants).toList ++ ['\n']) =
      slots'.flatMap (fun slot => (slot.text pool constants).toList ++ ['\n'])) :
    slots.map (·.content) = slots'.map (·.content) := by
  induction slots generalizing slots' with
  | nil =>
    cases slots' with
    | nil => rfl
    | cons slot' others' => simp at eq
  | cons slot others ih =>
    cases slots' with
    | nil => simp at eq
    | cons slot' others' =>
      simp only [List.flatMap_cons, List.append_assoc, List.singleton_append] at eq
      obtain ⟨content, behind⟩ := text_append_inj eq
      rw [List.map_cons, List.map_cons, content, ih behind]

/-- The code bytes that are there of a slot. -/
def Content.bytes : Content → List UInt8
  | instruction i => i.encode
  | unknown byte => [byte]
  | truncated op => [op.toByte]

/-- **The bytes of the slots in turn are the code.** -/
theorem flatMap_bytes_slotsFrom (offset : Nat) (before : Option Nat) (code : List CodeByte) :
    (slotsFrom offset before code).flatMap (·.content.bytes) = code.map (·.byte) := by
  fun_induction slotsFrom offset before code with
  | case1 => rfl
  | case2 offset before b rest unknown ih =>
    rw [List.flatMap_cons, ih]
    rfl
  | case3 offset before b rest op known i form ih =>
    obtain ⟨rfl, plain, -⟩ := Opcode.of_whole form
    rw [List.flatMap_cons, ih, Content.bytes, Instruction.encode, plain,
      Opcode.toByte_of_ofByte? known]
    rfl
  | case4 offset before b op known complete form =>
    rw [List.flatMap_cons, Content.bytes, Opcode.toByte_of_ofByte? known]
    rfl
  | case5 offset before b op known complete form k rest ih =>
    obtain ⟨rfl, operand, -⟩ := Opcode.of_awaits form k.byte
    rw [List.flatMap_cons, ih, Content.bytes, Instruction.encode, operand,
      Opcode.toByte_of_ofByte? known]
    rfl

end Slot

/-! ## Main statement -/

/-- A listing is its title and then a line for every slot. -/
theorem Chunk.toList_listing (chunk : Chunk) (pool : StringPool) (title : String) :
    (chunk.listing pool title).toList = s!"== {title} ==\n".toList ++
      chunk.slots.flatMap fun slot => (slot.text pool chunk.constants).toList ++ ['\n'] := by
  rw [listing, String.toList_append, String.toList_join, List.flatMap_map]
  simp only [String.toList_append]
  rfl

/-- **Listings are unambiguous.** Two chunks with the same constants and the same listing have
the same code bytes, whatever their lines, whatever is in the pool or left of it, and whatever
the texts of the constants look like. -/
theorem bytes_eq_of_listing_eq {pool : StringPool} {title : String} {chunk chunk' : Chunk}
    (constants : chunk.constants = chunk'.constants)
    (listing : chunk.listing pool title = chunk'.listing pool title) :
    chunk.code.map (·.byte) = chunk'.code.map (·.byte) := by
  have lines := congrArg String.toList listing
  rw [Chunk.toList_listing, Chunk.toList_listing, ← constants] at lines
  have contents := Slot.contents_eq_of_lines_eq (List.append_cancel_left lines)
  have bytes (chunk : Chunk) : chunk.code.map (·.byte) =
      (chunk.slots.map (·.content)).flatMap (·.bytes) := by
    rw [List.flatMap_map, Chunk.slots, Slot.flatMap_bytes_slotsFrom]
  rw [bytes, bytes, contents]

/-- The text of a constant may look like further entries, and a line that is not shown makes no
difference. -/
theorem bytes_eq_of_listing_eq_break :
    let pool := (StringPool.empty.intern (Utf8.encode "a'\n0002    5 RETURN".toList)).2
    let chunk : Chunk := ⟨[⟨0, 1⟩, ⟨0, 1⟩, ⟨0, 5⟩], [.object ⟨0⟩]⟩
    let chunk' : Chunk := ⟨[⟨0, 1⟩, ⟨0, 7⟩, ⟨0, 5⟩], [.object ⟨0⟩]⟩
    chunk.listing pool "a" =
        "== a ==\n" ++
        "0000    1 CONSTANT            0 'a'\n" ++
        "0002    5 RETURN'\n" ++
        "0002    5 CONSTANT         <truncated>\n" ∧
      chunk.constants = chunk'.constants ∧ chunk.listing pool "a" = chunk'.listing pool "a" ∧
      chunk.code.map (·.byte) = chunk'.code.map (·.byte) := by
  intro pool chunk chunk'
  have same : chunk.listing pool "a" = chunk'.listing pool "a" := by decide +kernel
  exact ⟨by decide +kernel, rfl, same, bytes_eq_of_listing_eq rfl same⟩

end StackScript
