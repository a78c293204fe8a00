/-
# The line table

Every byte of the code has the line of a token that was read when it was written: the token itself
for an operand, the last token of an operand for an operation on it, the semicolon for a statement.
Since the tokens of a source come line by line, so does the code:

| part of the code | lines |
| --- | --- |
| bytes of an instruction | one |
| code of an expression | of its tokens, from that of its first operand to that of its last token |
| code of a statement | of its tokens, ending with that of its semicolon |
| code of a source | from 1 to the number of its line ends and one |

`LinesFrom` says of some code that its lines are in order and come from some tokens. It is kept
when code is put behind code of tokens further up, and when the operations at the end of an
expression are put behind its operands.
-/
import StackScript.Proofs.Acceptance
import StackScript.Proofs.Lines
import StackScript.Slot

namespace StackScript

/-! ## Tokens -/

/-- Some tokens come line by line. -/
def Token.InOrder (tokens : List Token) : Prop :=
  tokens.Pairwise (·.line ≤ ·.line)

/-- No token of a list in order stands below the last one. -/
theorem Token.InOrder.le_last {tokens : List Token} {last : Token} (order : InOrder tokens)
    (ends : tokens.getLast? = some last) : ∀ t ∈ tokens, t.line ≤ last.line := by
  obtain ⟨init, rfl⟩ := List.getLast?_eq_some_iff.1 ends
  obtain ⟨-, -, across⟩ := List.pairwise_append.1 order
  intro t mem
  rcases List.mem_append.1 mem with mem | mem
  · exact across t mem last (List.mem_singleton_self last)
  · rw [List.mem_singleton.1 mem]

namespace TokenStream

/-- Tokens stand between the first line and the last one. -/
theorem forall_line_scanFrom (line : Nat) (source : List Char) :
    ∀ t ∈ (scanFrom line source).tokens,
      line ≤ t.line ∧ t.line ≤ (scanFrom line source).lastLine := by
  fun_induction scanFrom line source with
  | case1 => simp
  | case2 line source gap c rest split lexeme line' after ih =>
    have ends : (scanFrom line' lexeme.rest).lastLine = line' + lineEnds lexeme.rest :=
      lastLine_scanFrom ..
    dsimp only [after] at ih ⊢
    rw [List.forall_mem_cons]
    refine ⟨by dsimp only; omega, fun t mem => ?_⟩
    have := ih t mem
    omega

/-- The tokens of a source come line by line. -/
theorem inOrder_scanFrom (line : Nat) (source : List Char) :
    Token.InOrder (scanFrom line source).tokens := by
  fun_induction scanFrom line source with
  | case1 => exact .nil
  | case2 line source gap c rest split lexeme line' after ih =>
    exact .cons (fun t mem => (forall_line_scanFrom _ _ t mem).1) ih

end TokenStream

/-! ## Code -/

/-- The lines of some code are in order, and each is that of one of some tokens. -/
structure LinesFrom (tokens : List Token) (code : List TracedInstruction) : Prop where
  ordered : code.Pairwise (·.line ≤ ·.line)
  traced : ∀ i ∈ code, ∃ t ∈ tokens, t.line = i.line

namespace LinesFrom

variable {tokens more : List Token} {code others : List TracedInstruction} {t : Token}

/-- No code needs no tokens. -/
theorem nil (tokens : List Token) : LinesFrom tokens [] :=
  ⟨.nil, nofun⟩

/-- An instruction may be traced to a token's line. -/
theorem single (mem : t ∈ tokens) (i : Instruction) : LinesFrom tokens [⟨i, t.line⟩] :=
  ⟨List.pairwise_singleton .., fun j eq => by
    obtain rfl := List.mem_singleton.1 eq
    exact ⟨t, mem, rfl⟩⟩

/-- Code that is traced to some tokens is traced to more of them. -/
theorem mono (sub : tokens ⊆ more) (lines : LinesFrom tokens code) : LinesFrom more code := by
  refine ⟨lines.ordered, fun i mem => ?_⟩
  obtain ⟨t, found, eq⟩ := lines.traced i mem
  exact ⟨t, sub found, eq⟩

/-- Code of tokens further down is put behind. -/
theorem append (order : Token.InOrder (tokens ++ more)) (first : LinesFrom tokens code)
    (second : LinesFrom more others) : LinesFrom (tokens ++ more) (code ++ others) := by
  obtain ⟨-, -, across⟩ := List.pairwise_append.1 order
  refine ⟨List.pairwise_append.2 ⟨first.ordered, second.ordered, fun i hi j hj => ?_⟩, ?_⟩
  · obtain ⟨t, ht, eq⟩ := first.traced i hi
    obtain ⟨u, hu, eq'⟩ := second.traced j hj
    rw [← eq, ← eq']
    exact across t ht u hu
  · intro i mem
    rcases List.mem_append.1 mem with mem | mem
    · exact (first.mono (List.subset_append_left ..)).traced i mem
    · exact (second.mono (List.subset_append_right ..)).traced i mem

/-- Operations on the line of the last token are put behind. -/
theorem conclude (order : Token.InOrder tokens) (lines : LinesFrom tokens code)
    (ends : tokens.getLast? = some t) (operations : List Instruction) :
    LinesFrom tokens (code ++ operations.map (⟨·, t.line⟩)) := by
  refine ⟨List.pairwise_append.2 ⟨lines.ordered, ?_, fun i hi j hj => ?_⟩, fun i mem => ?_⟩
  · rw [List.pairwise_map]
    exact List.pairwise_of_forall fun _ _ => Nat.le_refl _
  · obtain ⟨o, -, rfl⟩ := List.mem_map.1 hj
    obtain ⟨u, hu, eq⟩ := lines.traced i hi
    exact eq ▸ order.le_last ends u hu
  · rcases List.mem_append.1 mem with mem | mem
    · exact lines.traced i mem
    · obtain ⟨o, -, rfl⟩ := List.mem_map.1 mem
      exact ⟨t, List.mem_of_getLast? ends, rfl⟩

end LinesFrom

namespace Expr

/-- The last line of a token by itself is its line. -/
theorem Primary.lastLine {t : Token} {e : Expr} (h : Primary t e) : e.lastLine = t.line := by
  cases h with
  | number =>
    unfold ofNumber
    split <;> rfl
  | _ => rfl

/-- The code of a token by itself is traced to it. -/
theorem Primary.linesFrom {t : Token} {e : Expr} (h : Primary t e) (next : Nat) :
    LinesFrom [t] (e.code next) := by
  have own := List.mem_singleton_self t
  cases h with
  | number =>
    unfold ofNumber
    split <;> exact .single own _
  | _ => exact .single own _

variable {k : Precedence} {tokens : List Token} {e : Expr}

/-- The last token of an expression has the line that the tree keeps. -/
theorem Derives.exists_lastLine (h : e.Derives k tokens) :
    ∃ t, tokens.getLast? = some t ∧ e.lastLine = t.line := by
  induction h with
  | @primary t e h => exact ⟨t, rfl, h.lastLine⟩
  | @group left right => exact ⟨right, by simp [List.getLast?_cons, List.getLast?_append], rfl⟩
  | unary _ _ ih | assign _ _ _ ih | binary _ _ _ _ _ ih =>
    obtain ⟨last, ends, eq⟩ := ih
    exact ⟨last, by simp [List.getLast?_cons, List.getLast?_append, ends], eq⟩
  | tighter _ ih => exact ih

/-- **The code of an expression has the lines of its tokens.** -/
theorem Derives.linesFrom (h : e.Derives k tokens) (order : Token.InOrder tokens) (next : Nat) :
    LinesFrom tokens (e.code next) := by
  induction h generalizing next with
  | primary h => exact h.linesFrom next
  | @group left right tokens e _ _ _ ih =>
    have inner : Token.InOrder tokens := (List.pairwise_append.1 order.of_cons).1
    exact (ih inner next).mono fun t mem => by simp [mem]
  | @unary t op tokens e kind operand ih =>
    obtain ⟨last, ends, eq⟩ := (Derives.unary kind operand).exists_lastLine
    have inner := (ih order.of_cons next).mono (List.subset_cons_self t tokens)
    rw [code, show e.lastLine = last.line from eq]
    exact inner.conclude order ends [op.code]
  | @binary k t op left right l r kind precedence first second ihl ihr =>
    obtain ⟨last, ends, eq⟩ := (Derives.binary kind precedence first second).exists_lastLine
    obtain ⟨orderl, orderr, -⟩ := List.pairwise_append.1 order
    have inner := LinesFrom.append order (ihl orderl next)
      ((ihr orderr.of_cons (next + l.constants.length)).mono (List.subset_cons_self t right))
    rw [code, show r.lastLine = last.line from eq]
    exact inner.conclude order ends op.code
  | @assign name sign tokens e named equal value ih =>
    obtain ⟨last, ends, eq⟩ := (Derives.assign named equal value).exists_lastLine
    have inner := (ih order.of_cons.of_cons (next + 1)).mono
      (List.subset_cons_of_subset name (List.subset_cons_self sign tokens))
    rw [code, show e.lastLine = last.line from eq]
    exact inner.conclude order ends [.setGlobal (.ofNat next)]
  | tighter _ ih => exact ih order next

end Expr

/-- **The code of a declaration has the lines of its tokens.** -/
theorem Declaration.Derives.linesFrom {tokens : List Token} {d : Declaration}
    (h : d.Derives tokens) (order : Token.InOrder tokens) (next : Nat) :
    LinesFrom tokens (d.code next) := by
  cases h with
  | @define word name semicolon =>
    have named : LinesFrom [word, name, semicolon] [⟨.pushNil, name.line⟩] :=
      .single (by simp) .pushNil
    exact named.conclude order rfl [.defineGlobal (.ofNat next)]
  | @initialise word name sign semicolon tokens e _ _ _ value =>
    have inner : Token.InOrder tokens := (List.pairwise_append.1 order.of_cons.of_cons.of_cons).1
    have lines := (value.linesFrom inner (next + 1)).mono
      (show tokens ⊆ word :: name :: sign :: tokens ++ [semicolon] from fun t mem => by simp [mem])
    exact lines.conclude order List.getLast?_concat [.defineGlobal (.ofNat next)]
  | @print word semicolon tokens e _ value =>
    have inner : Token.InOrder tokens := (List.pairwise_append.1 order.of_cons).1
    have lines := (value.linesFrom inner next).mono
      (show tokens ⊆ word :: tokens ++ [semicolon] from fun t mem => by simp [mem])
    exact lines.conclude order List.getLast?_concat [.print]
  | @expression semicolon tokens e value =>
    have inner : Token.InOrder tokens := (List.pairwise_append.1 order).1
    have lines := (value.linesFrom inner next).mono (List.subset_append_left tokens [semicolon])
    exact lines.conclude order List.getLast?_concat [.pop]

/-! ## Statements -/

/-- A statement of a source: its tokens, and the code that it gets. -/
structure Statement where
  tokens : List Token
  code : List TracedInstruction

namespace Statement

/-- Some statements are declarations in turn. The constants of the first one are numbered from
`next` on. -/
def InTurn (next : Nat) : List Statement → Prop
  | [] => True
  | s :: others =>
    (∃ d : Declaration, d.Derives s.tokens ∧ s.code = d.code next) ∧
      InTurn (next + s.tokens.countP Token.isConstant) others

/-- The code of some statements, and the end of the run on a last line. -/
def codeAll (statements : List Statement) (lastLine : Nat) : List TracedInstruction :=
  statements.flatMap (·.code) ++ [⟨.finish, lastLine⟩]

/-- The statements of a source, with its tokens and its code. -/
structure Divide (statements : List Statement) (source : String) (chunk : Chunk) : Prop where
  inTurn : InTurn 0 statements
  tokens : (TokenStream.scan source.toList).tokens = statements.flatMap (·.tokens)
  code : chunk.code =
    (codeAll statements (TokenStream.scan source.toList).lastLine).flatMap (·.bytes)

/-- The instruction with a number, counted from 0 on, belongs to a statement. -/
def Owns (statements : List Statement) (n : Nat) (s : Statement) : Prop :=
  ∃ above below, statements = above ++ s :: below ∧ (above.flatMap (·.code)).length ≤ n ∧
    n < (above.flatMap (·.code)).length + s.code.length

variable {statements above below : List Statement} {s : Statement} {next n : Nat}

/-- Every statement in turn is a declaration, with the code that its place gives it. -/
theorem InTurn.split (inTurn : InTurn next (above ++ s :: below)) :
    ∃ d : Declaration, d.Derives s.tokens ∧
      s.code = d.code (next + (above.flatMap (·.tokens)).countP Token.isConstant) := by
  induction above generalizing next with
  | nil => exact inTurn.1
  | cons first above ih =>
    rw [List.flatMap_cons, List.countP_append, ← Nat.add_assoc]
    exact ih inTurn.2

/-- **The code of some statements has the lines of their tokens.** -/
theorem InTurn.linesFrom (inTurn : InTurn next statements)
    (order : Token.InOrder (statements.flatMap (·.tokens))) :
    LinesFrom (statements.flatMap (·.tokens)) (statements.flatMap (·.code)) := by
  induction statements generalizing next with
  | nil => exact .nil _
  | cons s others ih =>
    obtain ⟨⟨d, derives, code⟩, rest⟩ := inTurn
    rw [List.flatMap_cons] at order
    obtain ⟨own, below, -⟩ := List.pairwise_append.1 order
    have first : LinesFrom s.tokens s.code := code ▸ derives.linesFrom own next
    exact first.append order (ih rest below)

/-- Every instruction of some statements belongs to one of them. -/
theorem exists_owns (lt : n < (statements.flatMap (·.code)).length) :
    ∃ s, Owns statements n s := by
  induction statements generalizing n with
  | nil => exact absurd lt (Nat.not_lt_zero n)
  | cons first others ih =>
    rw [List.flatMap_cons, List.length_append] at lt
    by_cases own : n < first.code.length
    · exact ⟨first, [], others, rfl, Nat.zero_le n, by simpa using own⟩
    · obtain ⟨s, above, below, rfl, le, lt⟩ := ih (show n - first.code.length < _ by omega)
      refine ⟨s, first :: above, below, rfl, ?_, ?_⟩ <;>
        rw [List.flatMap_cons, List.length_append] <;> omega

/-- The statement that an instruction belongs to is one of the statements. -/
theorem Owns.mem (owns : Owns statements n s) : s ∈ statements := by
  obtain ⟨above, below, rfl, -⟩ := owns
  exact List.mem_append_right _ (List.mem_cons_self ..)

/-- An instruction belongs to the statement that has it in its code. -/
theorem Owns.mem_code (owns : Owns statements n s) {i : TracedInstruction}
    (at_ : (statements.flatMap (·.code))[n]? = some i) : i ∈ s.code := by
  obtain ⟨above, below, rfl, le, lt⟩ := owns
  rw [List.flatMap_append, List.getElem?_append_right le, List.flatMap_cons,
    List.getElem?_append_left (by omega)] at at_
  exact List.mem_of_getElem? at_

end Statement

/-- Declarations and their tokens are statements in turn. -/
theorem Declaration.DerivesAll.exists_statements {tokens : List Token} {ds : List Declaration}
    (h : DerivesAll tokens ds) (range : ∀ t ∈ tokens, t.InRange) (next : Nat) :
    ∃ statements : List Statement, Statement.InTurn next statements ∧
      tokens = statements.flatMap (·.tokens) ∧
      codeOfList next ds = statements.flatMap (·.code) := by
  induction h generalizing next with
  | nil => exact ⟨[], trivial, rfl, rfl⟩
  | @cons first others d ds derives _ ih =>
    have agree := derives.countP_eq fun t mem => range t (List.mem_append_left _ mem)
    obtain ⟨statements, inTurn, tokens, code⟩ :=
      ih (fun t mem => range t (List.mem_append_right _ mem)) (next + d.constants.length)
    refine ⟨⟨first, d.code next⟩ :: statements, ⟨⟨d, derives, rfl⟩, ?_⟩, by simp [tokens],
      by simp [codeOfList, code]⟩
    rw [agree]
    exact inTurn

/-! ## Bytes -/

/-- An instruction takes one byte, and one more if it has an operand. -/
theorem Instruction.length_encode (i : Instruction) :
    i.encode.length = 1 + i.opcode.operandLength := by
  cases i <;> rfl

/-- The bytes of an instruction are on its line. -/
theorem TracedInstruction.line_of_mem_bytes {i : TracedInstruction} {b : CodeByte}
    (mem : b ∈ i.bytes) : b.line = i.line := by
  obtain ⟨_, -, rfl⟩ := List.mem_map.1 mem
  rfl

/-- The lines of bytes are those of their instructions. -/
theorem LinesFrom.bytes {tokens : List Token} {code : List TracedInstruction}
    (lines : LinesFrom tokens code) :
    (code.flatMap (·.bytes)).Pairwise (·.line ≤ ·.line) ∧
      ∀ b ∈ code.flatMap (·.bytes), ∃ t ∈ tokens, t.line = b.line := by
  constructor
  · rw [List.pairwise_flatMap]
    refine ⟨fun i mem => ?_, lines.ordered.imp fun le b hb c hc => ?_⟩
    · rw [TracedInstruction.bytes, List.pairwise_map]
      exact List.pairwise_of_forall fun _ _ => Nat.le_refl _
    · rw [TracedInstruction.line_of_mem_bytes hb, TracedInstruction.line_of_mem_bytes hc]
      exact le
  · intro b mem
    obtain ⟨i, found, mem⟩ := List.mem_flatMap.1 mem
    rw [TracedInstruction.line_of_mem_bytes mem]
    exact lines.traced i found

/-- No slot stands above the place from which they are read. -/
theorem Slot.offset_le_of_mem {offset : Nat} {before : Option Nat} {code : List CodeByte}
    {slot : Slot} (mem : slot ∈ slotsFrom offset before code) : offset ≤ slot.offset := by
  fun_induction slotsFrom offset before code with
  | case1 => cases mem
  | case2 _ _ _ _ _ ih | case3 _ _ _ _ _ _ _ _ ih | case5 _ _ _ _ _ _ _ _ _ ih =>
    rcases List.mem_cons.1 mem with rfl | mem
    · exact Nat.le_refl _
    · have := ih mem
      omega
  | case4 =>
    rw [List.mem_singleton.1 mem]

/-- A slot has a byte. -/
theorem Slot.offset_lt_next (slot : Slot) : slot.offset < slot.next := by
  unfold next Content.width
  split <;> omega

/-- All bytes of an instruction have the line of its slot. -/
theorem Slot.line_of_mem {code : List TracedInstruction} {offset : Nat} {before : Option Nat}
    {slot : Slot} (mem : slot ∈ slotsFrom offset before (code.flatMap (·.bytes))) {j : Nat}
    (le : slot.offset ≤ offset + j) (lt : offset + j < slot.next) :
    (code.flatMap (·.bytes))[j]?.map (·.line) = some slot.line := by
  induction code generalizing offset before j with
  | nil => cases mem
  | cons i code ih =>
    have length : i.bytes.length = i.instruction.encode.length := List.length_map ..
    rw [List.flatMap_cons] at mem ⊢
    rw [TracedInstruction.bytes, slotsFrom_encode] at mem
    rcases List.mem_cons.1 mem with rfl | mem
    · have inside : j < i.bytes.length := by
        rw [length, Instruction.length_encode]
        simp only [next, Content.width] at lt
        omega
      rw [List.getElem?_append_left inside, List.getElem?_eq_getElem inside]
      exact congrArg some (TracedInstruction.line_of_mem_bytes (List.getElem_mem inside))
    · have below := offset_le_of_mem mem
      rw [List.getElem?_append_right (by omega)]
      exact ih mem (by omega) (by omega)

/-- The first and the last byte of an instruction have one line. -/
theorem Slot.lastLine_of_mem {code : List TracedInstruction} {offset : Nat} {before : Option Nat}
    {slot : Slot} (mem : slot ∈ slotsFrom offset before (code.flatMap (·.bytes))) :
    slot.lastLine = slot.line := by
  induction code generalizing offset before with
  | nil => cases mem
  | cons i code ih =>
    rw [List.flatMap_cons, TracedInstruction.bytes, slotsFrom_encode] at mem
    rcases List.mem_cons.1 mem with rfl | mem
    · rfl
    · exact ih mem

/-! ## The table of a source -/

namespace Statement.Divide

variable {statements : List Statement} {source : String} {chunk : Chunk} {s : Statement}

/-- The tokens of the statements are in order. -/
theorem inOrder (divide : Divide statements source chunk) :
    Token.InOrder (statements.flatMap (·.tokens)) :=
  divide.tokens ▸ TokenStream.inOrder_scanFrom 1 source.toList

/-- The code of a statement has the lines of its tokens. -/
theorem linesFrom_of_mem (divide : Divide statements source chunk) (mem : s ∈ statements) :
    Token.InOrder s.tokens ∧ LinesFrom s.tokens s.code := by
  obtain ⟨above, below, rfl⟩ := List.append_of_mem mem
  obtain ⟨d, derives, code⟩ := divide.inTurn.split
  have order := divide.inOrder
  rw [List.flatMap_append, List.flatMap_cons] at order
  have own := (List.pairwise_append.1 (List.pairwise_append.1 order).2.1).1
  exact ⟨own, code ▸ derives.linesFrom own _⟩

/-- **The lines of the code are in order,** and are lines of the source. -/
theorem lines (divide : Divide statements source chunk) :
    chunk.code.Pairwise (·.line ≤ ·.line) ∧
      ∀ b ∈ chunk.code, 1 ≤ b.line ∧ b.line ≤ 1 + lineEnds source.toList := by
  have last : (TokenStream.scan source.toList).lastLine = 1 + lineEnds source.toList :=
    TokenStream.lastLine_scanFrom 1 source.toList
  obtain ⟨ordered, traced⟩ := (divide.inTurn.linesFrom divide.inOrder).bytes
  have inside : ∀ b ∈ (statements.flatMap (·.code)).flatMap (·.bytes),
      1 ≤ b.line ∧ b.line ≤ (TokenStream.scan source.toList).lastLine := by
    intro b mem
    obtain ⟨t, found, eq⟩ := traced b mem
    rw [← divide.tokens] at found
    exact eq ▸ TokenStream.forall_line_scanFrom 1 source.toList t found
  have end_ : ∀ b ∈ TracedInstruction.bytes ⟨.finish, (TokenStream.scan source.toList).lastLine⟩,
      b.line = (TokenStream.scan source.toList).lastLine :=
    fun b mem => TracedInstruction.line_of_mem_bytes mem
  rw [← last, divide.code, codeAll, List.flatMap_append, List.flatMap_singleton]
  constructor
  · refine List.pairwise_append.2 ⟨ordered, List.pairwise_singleton .., fun b hb c hc => ?_⟩
    rw [end_ c hc]
    exact (inside b hb).2
  · intro b mem
    rcases List.mem_append.1 mem with mem | mem
    · exact inside b mem
    · rw [end_ b mem]
      omega

/-- All bytes of an instruction have the line of its slot. -/
theorem lineAt_of_mem (divide : Divide statements source chunk) {slot : Slot}
    (mem : slot ∈ chunk.slots) {offset : Nat} (le : slot.offset ≤ offset)
    (lt : offset < slot.next) : chunk.lineAt offset = slot.line := by
  rw [Chunk.slots, divide.code] at mem
  have byte := Slot.line_of_mem mem (j := offset) (by omega) (by omega)
  rw [Chunk.lineAt, divide.code, byte]
  rfl

end Statement.Divide
end StackScript
