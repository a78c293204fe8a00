/-
# Constants mirror the tokens

A constant is added where its token is read, and named by an operand where code is written.
The two orders differ: the name on the left of an assignment or a declaration is read before
the value and used after it.

| | order |
| --- | --- |
| constants | that of the number, string and name tokens |
| new strings of the pool | that of their first tokens |
| operands | every constant once, in the order of the operations |

Each tree takes a range of constants, one after the other, and its code names that range in
some order (`Expr.operandNumbers_code`).
-/
import StackScript.Proofs.Interning
import StackScript.Proofs.Literals
import StackScript.Proofs.Scanning.Scanner

namespace StackScript

/-! ## What tokens denote -/

/-- What a number, a string or a name stands for among the constants. -/
inductive Token.Denotes (t : Token) : Datum → Prop where
  | int {n : Int32} : t.kind = .number → '.' ∉ t.text →
      n.toInt = Nat.ofDigitChars 10 t.text 0 → Denotes t (.int n)
  | double {whole fraction : List Char} : t.kind = .number → t.text = whole ++ '.' :: fraction →
      '.' ∉ whole → Denotes t (.double (Float.ofScientific
        (Nat.ofDigitChars 10 (whole ++ fraction) 0) true fraction.length))
  | string {body : List Char} : t.kind = .string → t.text = '"' :: (body ++ ['"']) →
      Denotes t (.text (Utf8.encode body))
  | name : t.kind = .identifier → Denotes t (.text (Utf8.encode t.text))

/-- The bytes of a text. -/
def Datum.bytes? : Datum → Option (List UInt8)
  | text bytes => some bytes
  | _ => none

/-- A number with a point is a double. -/
theorem Literal.ofNumber?_of_fraction {whole : List Char} (inside : '.' ∉ whole)
    (fraction : List Char) :
    ofNumber? (whole ++ '.' :: fraction) = some (.double (Float.ofScientific
      (Nat.ofDigitChars 10 (whole ++ fraction) 0) true fraction.length)) := by
  have visible : ∀ c ∈ whole, (c != '.') = true := by
    intro c mem
    simpa using fun eq : c = '.' => inside (eq ▸ mem)
  have stop : ∀ c ∈ ('.' :: fraction).head?, (c != '.') = false := by rintro c ⟨⟩; rfl
  rw [ofNumber?, List.span_eq_takeWhile_dropWhile, takeWhile_append_of_stop visible stop,
    dropWhile_append_of_stop visible stop]

/-- A token that stands for something: it is no number that is too large, and if it is a
string, it has both quotes. -/
structure Token.Legible (t : Token) : Prop where
  range : t.InRange
  closed : t.kind = .string → Token.Kind.Spells .string t.text

/-- The strings of a source have both quotes. -/
theorem TokenStream.spells_string_of_mem {source : List Char} {t : Token}
    (mem : t ∈ (scan source).tokens) (kind : t.kind = .string) :
    Token.Kind.Spells .string t.text := by
  obtain ⟨rest, fits⟩ := (tiles_iff.2 rfl : Tiles [] source (scan source).tokens).exists_fits t mem
  cases fits with
  | token spells => exact kind ▸ spells
  | unexpected fault | unterminated fault =>
    rw [kind] at fault
    cases fault

/-- The tokens that hold a constant, and what they stand for. -/
def Mirrors (tokens : List Token) (literals : List Literal) : Prop :=
  List.Forall₂ Token.Denotes (tokens.filter Token.isConstant) (literals.map Literal.datum)

namespace Mirrors

variable {tokens more : List Token} {literals others : List Literal} {t : Token}

/-- Tokens that follow one another have the constants that follow one another. -/
theorem append (h : Mirrors tokens literals) (h' : Mirrors more others) :
    Mirrors (tokens ++ more) (literals ++ others) := by
  rw [Mirrors, List.filter_append, List.map_append]
  exact List.rel_append h h'

/-- A token that holds no constant changes nothing. -/
theorem cons_of_neg (plain : t.isConstant = false) (h : Mirrors tokens literals) :
    Mirrors (t :: tokens) literals := by
  rwa [Mirrors, List.filter_cons_of_neg (by simp [plain])]

/-- A token without a constant adds none at the end. -/
theorem concat_of_neg (plain : t.isConstant = false) (h : Mirrors tokens literals) :
    Mirrors (tokens ++ [t]) literals := by
  rwa [Mirrors, List.filter_append, List.filter_cons_of_neg (by simp [plain]), List.filter_nil,
    List.append_nil]

/-- A token with a constant has it in front of the others. -/
theorem cons_of_pos {l : Literal} (holds : t.isConstant = true) (denotes : t.Denotes l.datum)
    (h : Mirrors tokens literals) : Mirrors (t :: tokens) (l :: literals) := by
  rw [Mirrors, List.filter_cons_of_pos holds]
  exact .cons denotes h

/-- Without tokens there are no constants. -/
theorem nil : Mirrors [] [] :=
  List.Forall₂.nil

end Mirrors

/-- A number token in range denotes the literal that it is read as. -/
theorem Expr.mirrors_ofNumber {t : Token} (number : t.kind = .number) (range : t.InRange) :
    Mirrors [t] (ofNumber t).constants := by
  have holds : t.isConstant = Bool.true := by simp [Token.isConstant, number]
  by_cases point : '.' ∈ t.text
  · obtain ⟨whole, fraction, text, inside⟩ := List.eq_append_cons_of_mem point
    rw [ofNumber, text, Literal.ofNumber?_of_fraction inside]
    exact .cons_of_pos holds (.double number text inside) .nil
  · have small := range number point
    rw [ofNumber, Literal.ofNumber?_of_whole point, if_pos small]
    rw [Literal.maxInt] at small
    exact .cons_of_pos holds (.int number point (Int32.toInt_ofNat_of_lt (by omega))) .nil

/-- A token that is an expression has the constant of its tree, if it is one in range. -/
theorem Expr.Primary.mirrors {t : Token} {e : Expr} (h : Primary t e) (legible : t.Legible) :
    Mirrors [t] e.constants := by
  cases h with
  | number kind => exact mirrors_ofNumber kind legible.range
  | string kind =>
    have spells := legible.closed kind
    generalize text : t.text = spelled at spells
    cases spells with
    | sign sign => cases sign
    | @string body _ =>
      have literal : Literal.ofQuoted ('"' :: (body ++ ['"'])) = .text body := by
        simp [Literal.ofQuoted]
      rw [constants, literal]
      exact .cons_of_pos (by simp [Token.isConstant, kind]) (.string kind text) .nil
  | name kind => exact .cons_of_pos (by simp [Token.isConstant, kind]) (.name kind) .nil
  | nil kind | true kind | false kind =>
    exact .cons_of_neg (by simp [Token.isConstant, kind]) .nil

/-- **The constants of an expression mirror its tokens.** -/
theorem Expr.Derives.mirrors {k : Precedence} {tokens : List Token} {e : Expr}
    (h : e.Derives k tokens) (legible : ∀ t ∈ tokens, t.Legible) : Mirrors tokens e.constants := by
  induction h with
  | primary h => exact h.mirrors (legible _ (List.mem_singleton_self _))
  | group opened _ ended ih =>
    have inner := ih fun t mem => legible t (by simp [mem])
    exact (inner.cons_of_neg (by simp [Token.isConstant, opened])).concat_of_neg
      (by simp [Token.isConstant, ended])
  | unary kind _ ih =>
    have inner := ih fun u mem => legible u (List.mem_cons_of_mem _ mem)
    exact inner.cons_of_neg (UnaryOp.isConstant kind)
  | @binary _ t _ _ _ _ _ kind _ _ _ ihl ihr =>
    have first := ihl fun u mem => legible u (List.mem_append_left _ mem)
    have second := ihr fun u mem => legible u (List.mem_append_right _ (List.mem_cons_of_mem t mem))
    exact first.append (second.cons_of_neg (BinaryOp.isConstant kind))
  | assign named equal _ ih =>
    have inner := ih fun t mem => legible t (by simp [mem])
    exact .cons_of_pos (by simp [Token.isConstant, named]) (.name named)
      (inner.cons_of_neg (by simp [Token.isConstant, equal]))
  | tighter _ ih => exact ih legible

/-- The tokens of a declaration have its constants. -/
theorem Declaration.Derives.mirrors {tokens : List Token} {d : Declaration} (h : d.Derives tokens)
    (legible : ∀ t ∈ tokens, t.Legible) : Mirrors tokens d.constants := by
  have ends {t : Token} (ended : t.kind = .semicolon) : t.isConstant = Bool.false := by
    simp [Token.isConstant, ended]
  cases h with
  | define word name ended =>
    exact .cons_of_neg (by simp [Token.isConstant, word])
      (.cons_of_pos (by simp [Token.isConstant, name]) (.name name)
        (.cons_of_neg (ends ended) .nil))
  | initialise word name sign value ended =>
    have inner := value.mirrors fun t mem => legible t (by simp [mem])
    have rest := inner.concat_of_neg (ends ended)
    exact .cons_of_neg (by simp [Token.isConstant, word])
      (.cons_of_pos (by simp [Token.isConstant, name]) (.name name)
        (rest.cons_of_neg (by simp [Token.isConstant, sign])))
  | print word value ended =>
    have inner := value.mirrors fun t mem => legible t (by simp [mem])
    have rest := inner.concat_of_neg (ends ended)
    exact rest.cons_of_neg (by simp [Token.isConstant, word])
  | expression value ended =>
    have inner := value.mirrors fun t mem => legible t (by simp [mem])
    exact inner.concat_of_neg (ends ended)

/-- The tokens of some declarations have their constants, in turn. -/
theorem Declaration.DerivesAll.mirrors {tokens : List Token} {ds : List Declaration}
    (h : DerivesAll tokens ds) (legible : ∀ t ∈ tokens, t.Legible) :
    Mirrors tokens (ds.flatMap constants) := by
  induction h with
  | nil => exact .nil
  | cons first _ ih =>
    rw [List.flatMap_cons]
    exact (first.mirrors fun t mem => legible t (List.mem_append_left _ mem)).append
      (ih fun t mem => legible t (List.mem_append_right _ mem))

/-! ## Operands -/

/-- The operands of some code, in its order. -/
def operandNumbers (code : List TracedInstruction) : List Nat :=
  (code.filterMap (·.instruction.operand?)).map UInt8.toNat

/-- The operands of two pieces of code follow one another. -/
theorem operandNumbers_append (code more : List TracedInstruction) :
    operandNumbers (code ++ more) = operandNumbers code ++ operandNumbers more := by
  rw [operandNumbers, List.filterMap_append, List.map_append]
  rfl

/-- An operation without an operand at the end. -/
theorem operandNumbers_concat (code : List TracedInstruction) {i : TracedInstruction}
    (plain : i.instruction.operand? = none) :
    operandNumbers (code ++ [i]) = operandNumbers code := by
  have last : operandNumbers [i] = [] := by simp [operandNumbers, plain]
  rw [operandNumbers_append, last, List.append_nil]

/-- The operations of an operator have no operands. -/
theorem BinaryOp.operandNumbers_code (op : BinaryOp) (line : Nat) :
    operandNumbers (op.code.map (⟨·, line⟩)) = [] := by
  cases op <;> rfl

/-- A number of a constant fits into a byte. -/
theorem toNat_ofNat_of_few {next : Nat} {l : Literal} {literals : List Literal}
    (few : next + (l :: literals).length ≤ Chunk.maxConstants) :
    (UInt8.ofNat next).toNat = next := by
  rw [List.length_cons, Chunk.maxConstants] at few
  exact UInt8.toNat_ofNat_of_lt' (show next < 256 by omega)

/-- The name of an assignment or a declaration comes before the constants of the value, and is
used after them. -/
theorem perm_range'_of_name {code : List TracedInstruction} {i : TracedInstruction} {next : Nat}
    {l : Literal} {literals : List Literal}
    (few : next + (l :: literals).length ≤ Chunk.maxConstants)
    (value : (operandNumbers code).Perm (List.range' (next + 1) literals.length))
    (named : i.instruction.operand? = some (.ofNat next)) :
    (operandNumbers (code ++ [i])).Perm (List.range' next (l :: literals).length) := by
  have last : operandNumbers [i] = [next] := by
    simp [operandNumbers, named, toNat_ofNat_of_few few]
  rw [operandNumbers_append, last, List.length_cons, List.range'_succ]
  exact (List.perm_append_singleton next _).trans (value.cons next)

/-- **The code of an expression names every constant of its range once.** -/
theorem Expr.operandNumbers_code (e : Expr) {next : Nat}
    (few : next + e.constants.length ≤ Chunk.maxConstants) :
    (operandNumbers (e.code next)).Perm (List.range' next e.constants.length) := by
  induction e generalizing next with
  | literal value line | global name line =>
    exact .of_eq (congrArg (fun n => [n]) (toNat_ofNat_of_few few))
  | nil line => exact .nil
  | bool b line => cases b <;> exact .nil
  | assign name line value ih =>
    refine perm_range'_of_name few (ih ?_) rfl
    rw [constants, List.length_cons] at few
    omega
  | group inner line ih => exact ih few
  | unary op operand ih =>
    rw [code, operandNumbers_concat _ (by cases op <;> rfl)]
    exact ih few
  | binary op left right ihl ihr =>
    rw [constants, List.length_append] at few
    have first : (operandNumbers (left.code next)).Perm
        (List.range' next left.constants.length) := ihl (by omega)
    have second : (operandNumbers (right.code (next + left.constants.length))).Perm
        (List.range' (next + left.constants.length) right.constants.length) := ihr (by omega)
    rw [code, operandNumbers_append, operandNumbers_append, op.operandNumbers_code, List.append_nil,
      constants, List.length_append, ← List.range'_append_1]
    exact first.append second

/-- The operands of a declaration are the numbers of its constants, each of them once. -/
theorem Declaration.operandNumbers_code (d : Declaration) {next : Nat}
    (few : next + d.constants.length ≤ Chunk.maxConstants) :
    (operandNumbers (d.code next)).Perm (List.range' next d.constants.length) := by
  cases d with
  | define name nameLine initial endLine =>
    cases initial with
    | none =>
      have nothing : (operandNumbers [⟨.pushNil, nameLine⟩]).Perm [] := .nil
      exact perm_range'_of_name few nothing rfl
    | some value =>
      refine perm_range'_of_name few (value.operandNumbers_code ?_) rfl
      rw [constants, List.length_cons] at few
      exact Nat.le_trans (by simp; omega) few
  | print value endLine | expression value endLine =>
    rw [code, operandNumbers_concat _ rfl]
    exact value.operandNumbers_code few

/-- The operands of some declarations are the numbers of their constants, each of them once. -/
theorem Declaration.operandNumbers_codeOfList (ds : List Declaration) {next : Nat}
    (few : next + (ds.flatMap constants).length ≤ Chunk.maxConstants) :
    (operandNumbers (codeOfList next ds)).Perm
      (List.range' next (ds.flatMap constants).length) := by
  induction ds generalizing next with
  | nil => exact .nil
  | cons d ds ih =>
    rw [List.flatMap_cons, List.length_append] at few ⊢
    have first : (operandNumbers (d.code next)).Perm (List.range' next d.constants.length) :=
      d.operandNumbers_code (by omega)
    have second : (operandNumbers (codeOfList (next + d.constants.length) ds)).Perm
        (List.range' (next + d.constants.length) (ds.flatMap constants).length) := ih (by omega)
    rw [codeOfList, operandNumbers_append, ← List.range'_append_1]
    exact first.append second

/-- The code of a program names every constant once. -/
theorem Program.operandNumbers_code (p : Program)
    (few : (p.declarations.flatMap Declaration.constants).length ≤ Chunk.maxConstants) :
    (operandNumbers p.code).Perm
      (List.range (p.declarations.flatMap Declaration.constants).length) := by
  rw [code, operandNumbers_concat _ rfl, List.range_eq_range']
  exact Declaration.operandNumbers_codeOfList p.declarations (by omega)

/-! ## Strings of the pool -/

/-- A string that is new, and those after it that are. -/
theorem eraseDups_filter_cons {old names : List (List UInt8)} {name : List UInt8}
    (new : name ∉ old) : ((name :: names).filter (· ∉ old)).eraseDups =
      name :: (names.filter (· ∉ old ++ [name])).eraseDups := by
  have others (bytes : List UInt8) :
      (!bytes == name && decide (bytes ∉ old)) = decide (bytes ∉ old ++ [name]) := by
    rw [Bool.eq_iff_iff]
    simp [not_or, and_comm]
  rw [List.filter_cons_of_pos (by simpa using new), List.eraseDups_cons, List.filter_filter]
  simp only [others]

/-- **Linking appends the texts that are new,** each at its first place. -/
theorem Literal.contents_linkAll (pool : StringPool) (literals : List Literal) :
    (linkAll pool literals).2.contents = pool.contents ++
      (((literals.map datum).filterMap Datum.bytes?).filter (· ∉ pool.contents)).eraseDups := by
  induction literals generalizing pool with
  | nil => simp [linkAll, List.eraseDups]
  | cons l others ih =>
    cases l with
    | int | double => exact ih pool
    | text s =>
      have contents := pool.contents_intern (Utf8.encode s)
      have rest := ih (pool.intern (Utf8.encode s)).2
      show (linkAll (pool.intern (Utf8.encode s)).2 others).2.contents = _
      rw [rest, List.map_cons, List.filterMap_cons_some (show Datum.bytes? (datum (.text s)) =
        some (Utf8.encode s) from rfl)]
      by_cases mem : Utf8.encode s ∈ pool.contents
      · rw [if_pos mem] at contents
        rw [contents, List.filter_cons_of_neg (by simpa using mem)]
      · rw [if_neg mem] at contents
        rw [contents, eraseDups_filter_cons mem, List.append_assoc, List.singleton_append]

/-! ## Main statement -/

variable {source : String} {pool after : StringPool} {chunk : Chunk}

/-- **Constants and strings mirror the tokens.** The constants of a chunk are what the numbers,
strings and names of the source denote, in their order. The code is instructions only, and
their operands are the numbers of the constants, each once. The pool is the one of before and
then the texts among the constants that are new, each at its first place; no string comes
twice. -/
theorem constants_mirror_tokens (compiled : compile source pool = (.ok chunk, after)) :
    ∃ data : List Datum,
      List.Forall₂ Token.Denotes
        ((TokenStream.scan source.toList).tokens.filter Token.isConstant) data ∧
      chunk.constants.map (·.content? after) = data.map some ∧
      (∃ instructions : List Instruction,
        chunk.slots.map (·.content) = instructions.map .instruction ∧
        ((instructions.filterMap (·.operand?)).map UInt8.toNat).Perm
          (List.range chunk.constants.length)) ∧
      after.contents = pool.contents ++
        ((data.filterMap Datum.bytes?).filter (· ∉ pool.contents)).eraseDups ∧
      after.contents.Nodup := by
  have faultless := (compile_eq_ok_iff.1 (congrArg Prod.fst compiled)).1
  have read : ∀ t ∈ (TokenStream.scan source.toList).tokens, t.kind ≠ .finish :=
    TokenStream.kind_ne_finish 1 source.toList
  obtain ⟨derives, -, range, few, noted⟩ :=
    ParsedSource.derives_of_diagnostics_eq_nil read faultless
  rw [compile_of_faultless faultless, Prod.mk.injEq, Except.ok.injEq] at compiled
  obtain ⟨rfl, rfl⟩ := compiled
  have noted : (ParsedSource.ofSource source).constants =
      (ParsedSource.ofSource source).program.declarations.flatMap Declaration.constants := noted
  have mirrors : Mirrors _ (ParsedSource.ofSource source).constants :=
    noted ▸ derives.declarations.mirrors fun t mem =>
      ⟨range t mem, TokenStream.spells_string_of_mem mem⟩
  have named := (ParsedSource.ofSource source).program.operandNumbers_code (noted ▸ few)
  rw [← noted] at named
  refine ⟨(ParsedSource.ofSource source).constants.map Literal.datum, mirrors, ?_,
    ⟨(ParsedSource.ofSource source).program.code.map (·.instruction), ?_, ?_⟩,
    Literal.contents_linkAll .., StringPool.nodup_contents _⟩
  · rw [← List.forall₂_eq_eq_eq, List.map_map, List.forall₂_map_left_iff,
      List.forall₂_map_right_iff]
    exact Literal.forall₂_content?_linkAll pool _
  · rw [← List.forall₂_eq_eq_eq, List.map_map, List.forall₂_map_left_iff,
      List.forall₂_map_right_iff]
    exact (Program.forall₂_holds_slots _ _).imp fun _ _ holds => holds.content
  · rw [List.filterMap_map]
    exact named.trans (.of_eq (congrArg List.range (Literal.length_linkAll ..).symm))

/-- A name that is assigned to, in a pool that has one of the texts: of seven constants each is
named once, and one text is new. -/
theorem constants_mirror_tokens_assign :
    let source := "var a = \"b\"; a = 1.5 + 2; print a + \"b\";"
    let pool := (StringPool.empty.intern (Utf8.encode ['b'])).2
    ∃ chunk after, compile source pool = (.ok chunk, after) ∧
      ∃ (data : List Datum) (instructions : List Instruction),
      List.Forall₂ Token.Denotes
        ((TokenStream.scan source.toList).tokens.filter Token.isConstant) data ∧
      chunk.constants.map (·.content? after) = data.map some ∧
      chunk.slots.map (·.content) = instructions.map .instruction ∧
      ((instructions.filterMap (·.operand?)).map UInt8.toNat).Perm (List.range 7) ∧
      after.contents = [Utf8.encode ['b'], Utf8.encode ['a']] := by
  intro source pool
  have compiled : compile source pool = (.ok _, (compile source pool).2) :=
    Prod.ext (compile_eq_ok_iff.2 ⟨by decide +kernel, rfl⟩) rfl
  obtain ⟨data, denotes, content, ⟨instructions, slots, operands⟩, -, -⟩ :=
    constants_mirror_tokens compiled
  have seven : (Literal.linkAll pool (ParsedSource.ofSource source).constants).1.length = 7 := by
    rw [Literal.length_linkAll]
    decide +kernel
  exact ⟨_, _, compiled, data, instructions, denotes, content, slots, seven ▸ operands,
    by decide +kernel⟩

end StackScript
