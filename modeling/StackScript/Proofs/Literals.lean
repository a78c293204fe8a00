/-
# Literals mean what they spell

A literal is a piece of the source, and its value is what is written there:

| literal | printed |
| --- | --- |
| `"` `s` `"` | `s`, whatever characters it has |
| digits, at most 2147483647 | the number, without the zeros in front |
| digits, more than that | nothing; the source is refused at the literal |

There are no negative literals. The text of a negative number, put into a source, is an
operator and a literal, so it is read back as the number: `-5` is `5`, negated. The least
number is the exception: its magnitude is no literal.
-/
import StackScript.Proofs.Scanning.Printing
import StackScript.Proofs.Statement

namespace StackScript

/-! ## Scanning in front of a semicolon -/

section Scanning

variable {k : Token.Kind} {c : Char} {s digits text rest : List Char}

/-- A slice at the beginning of a source. -/
theorem TokenStream.tokens_of_read {after : List Char} (line : Nat)
    (code : ¬ BeginsGap (c :: rest)) (read : Lexeme.read c rest = ⟨k, text, after⟩) :
    (scanFrom line (c :: rest)).tokens =
      ⟨k, text, line + lineEnds text⟩ :: (scanFrom (line + lineEnds text) after).tokens := by
  have visible : splitGap false (c :: rest) = ([], c :: rest) := IsGap.nil.splitGap_eq code
  rw [scanFrom_of_cons visible, read]
  rfl

/-- A space between two tokens is nothing of its own. -/
theorem TokenStream.tokens_space (line : Nat) (rest : List Char) :
    (scanFrom line (' ' :: rest)).tokens = (scanFrom line rest).tokens := by
  have blank : splitGap false (' ' :: rest) =
      (' ' :: (splitGap false rest).1, (splitGap false rest).2) := rfl
  have ends (gap : List Char) : lineEnds (' ' :: gap) = lineEnds gap := rfl
  cases split : splitGap false rest with
  | mk gap behind =>
    rw [split] at blank
    cases behind with
    | nil => rw [scanFrom_of_nil blank, scanFrom_of_nil split]
    | cons c behind => rw [scanFrom_of_cons blank, scanFrom_of_cons split, ends]

/-- A token of one line in front of a space. -/
theorem TokenStream.tokens_of_spells (spells : k.Spells text) (line : Nat)
    (flat : lineEnds text = 0) (rest : List Char) :
    (scanFrom line (text ++ ' ' :: rest)).tokens =
      ⟨k, text, line⟩ :: (scanFrom line rest).tokens := by
  have stops : Stops (' ' :: rest) := by rintro b ⟨⟩; rfl
  obtain ⟨c, s, rfl⟩ := List.exists_cons_of_ne_nil spells.ne_nil
  have code : ¬ BeginsGap (c :: (s ++ ' ' :: rest)) := spells.not_beginsGap stops
  rw [List.cons_append, tokens_of_read line code (Lexeme.read_of_spells spells stops), flat,
    Nat.add_zero, tokens_space]

/-- The semicolon at the end of a source. -/
theorem TokenStream.tokens_semicolon (line : Nat) :
    (scanFrom line [';']).tokens = [⟨.semicolon, [';'], line⟩] := by
  have read : Lexeme.read ';' [] = ⟨.semicolon, [';'], []⟩ := rfl
  have ends : splitGap false [] = ([], []) := rfl
  rw [tokens_of_read line (by simp [BeginsGap, isBlank]) read, scanFrom_of_nil ends]
  rfl

/-- A string in front of a semicolon. -/
theorem TokenStream.tokens_string (closed : '"' ∉ s) (line : Nat) :
    (scanFrom line ('"' :: (s ++ ['"', ';']))).tokens =
      [⟨.string, '"' :: (s ++ ['"']), line + lineEnds s⟩,
        ⟨.semicolon, [';'], line + lineEnds s⟩] := by
  have read : Lexeme.read '"' (s ++ ['"', ';']) = ⟨.string, '"' :: (s ++ ['"']), [';']⟩ :=
    Lexeme.string_of_closed closed [';']
  have ends : lineEnds ('"' :: (s ++ ['"'])) = lineEnds s := by simp [lineEnds]
  rw [tokens_of_read line (by simp [BeginsGap, isBlank]) read, ends, tokens_semicolon]

/-- Digits in front of a semicolon. -/
theorem TokenStream.tokens_digits (number : IsDigits digits) (line : Nat) :
    (scanFrom line (digits ++ [';'])).tokens =
      [⟨.number, digits, line⟩, ⟨.semicolon, [';'], line⟩] := by
  obtain ⟨c, s, rfl⟩ := List.exists_cons_of_ne_nil number.ne_nil
  obtain ⟨digit, inside⟩ := List.forall_mem_cons.1 number.all
  have stop : ∀ a ∈ [';'].head?, a.isDigit = false := by rintro a ⟨⟩; rfl
  have read : Lexeme.read c (s ++ [';']) = ⟨.number, c :: s, [';']⟩ := by
    rw [Lexeme.read_of_isDigit digit, Lexeme.number_of_not_fraction,
      takeWhile_append_of_stop inside stop, dropWhile_append_of_stop inside stop]
    rw [dropWhile_append_of_stop inside stop]
    nofun
  have code : ¬ BeginsGap (c :: (s ++ [';'])) := by
    rintro (blank | ⟨rfl, -⟩)
    · rw [isDigit_of_isBlank c blank] at digit
      cases digit
    · cases digit
  have flat : lineEnds (c :: s) = 0 := by
    rw [lineEnds, List.count_eq_zero]
    intro mem
    cases number.all '\n' mem
  rw [List.cons_append, tokens_of_read line code read, flat, Nat.add_zero, tokens_semicolon]

/-- A sign and digits in front of a semicolon. -/
theorem TokenStream.tokens_negative (number : IsDigits digits) (line : Nat) :
    (scanFrom line ('-' :: (digits ++ [';']))).tokens =
      [⟨.minus, ['-'], line⟩, ⟨.number, digits, line⟩, ⟨.semicolon, [';'], line⟩] := by
  have read : Lexeme.read '-' (digits ++ [';']) = ⟨.minus, ['-'], digits ++ [';']⟩ := rfl
  have flat : lineEnds ['-'] = 0 := rfl
  rw [tokens_of_read line (by simp [BeginsGap, isBlank]) read, flat, Nat.add_zero,
    tokens_digits number]

end Scanning

/-! ## Number tokens -/

/-- A number without a point is an integer, if it is not too large. -/
theorem Literal.ofNumber?_of_whole {text : List Char} (whole : '.' ∉ text) :
    ofNumber? text =
      if Nat.ofDigitChars 10 text 0 ≤ maxInt then some (.int (.ofNat (Nat.ofDigitChars 10 text 0)))
      else none := by
  have visible : ∀ c ∈ text, (c != '.') = true := by
    intro c mem
    simpa using fun eq : c = '.' => whole (eq ▸ mem)
  rw [ofNumber?, List.span_eq_takeWhile_dropWhile, List.takeWhile_eq_self_iff.2 visible,
    List.dropWhile_eq_nil_iff.2 visible]

/-- Digits have no point among them. -/
theorem IsDigits.not_mem_point {digits : List Char} (number : IsDigits digits) : '.' ∉ digits := by
  intro mem
  cases number.all '.' mem

/-- The digits of a number are digits. -/
theorem isDigits_toDigits (n : Nat) : IsDigits (Nat.toDigits 10 n) :=
  ⟨Nat.toDigits_ne_nil, fun _ mem => Nat.isDigit_of_mem_toDigits (by decide) (by decide) mem⟩

/-- A literal has its value, if there is a place for it. -/
theorem Expr.eval_literal {limit height : Nat} (room : height < limit) (value : Literal)
    (line : Nat) (w : World) : (literal value line).eval limit height w = .ok value.datum w := by
  rw [eval, Evaluation.hold, if_pos room]
  rfl

/-- An operator with one operand is applied to the value of that operand. -/
theorem Expr.eval_unary {limit height : Nat} {op : UnaryOp} {operand : Expr} {d result : Datum}
    {w after : World} (value : operand.eval limit height w = .ok d after)
    (computed : op.compute d = .ok result) :
    (unary op operand).eval limit height w = .ok result after := by
  simp only [eval, bind, EStateM.bind, value, computed]
  rfl

/-- Digits that are not too large are the literal of their value. -/
theorem Expr.ofNumber_of_le {digits : List Char} (number : IsDigits digits) (line : Nat)
    (small : Nat.ofDigitChars 10 digits 0 ≤ Literal.maxInt) :
    ofNumber ⟨.number, digits, line⟩ =
      .literal (.int (.ofNat (Nat.ofDigitChars 10 digits 0))) line := by
  rw [ofNumber, Literal.ofNumber?_of_whole number.not_mem_point, if_pos small]

/-- An operand with a semicolon behind it is the whole expression. -/
theorem Parser.expression_of_operand? (inner : Nested) (k : Precedence) (p : Parser) {q : Parser}
    {left : Expr} (read : operand? inner k p.current p.advance = (some left, q))
    (ends : q.current.kind = .semicolon) : expression inner k p = (left, q) := by
  have none : BinaryOp.ofKind? q.current.kind = none := by rw [ends]; rfl
  have unassigned : q.sees .equal = false := by rw [sees, ends]; rfl
  rw [expression, read]
  dsimp only
  rw [infixes_of_none none, unassigned, Bool.and_false, if_neg Bool.false_ne_true]

/-- A print statement of a number that is too large: that is reported, and nothing else. -/
theorem ParsedSource.diagnostics_of_large {digits : List Char} (number : IsDigits digits)
    (large : ¬ Nat.ofDigitChars 10 digits 0 ≤ Literal.maxInt) (word : List Char)
    (line lastLine : Nat) :
    (ofStream ⟨[⟨.keyword .printWord, word, line⟩, ⟨.number, digits, line⟩,
      ⟨.semicolon, [';'], line⟩], lastLine⟩).diagnostics =
        [⟨line, .token digits, .integerOutOfRange⟩] := by
  let print : Token := ⟨.keyword .printWord, word, line⟩
  let t : Token := ⟨.number, digits, line⟩
  let semicolon : Token := ⟨.semicolon, [';'], line⟩
  let found : Reports := ⟨true, #[⟨line, .token digits, .integerOutOfRange⟩]⟩
  have operand (inner : Parser.Nested) :
      Parser.operand? inner .assignment t ⟨t, [semicolon], lastLine, .none, #[]⟩ =
        (some (.nil line), ⟨t, [semicolon], lastLine, found, #[]⟩) := by
    show (some (Parser.number t _).1, (Parser.number t _).2) = _
    rw [Parser.number, Literal.ofNumber?_of_whole number.not_mem_point, if_neg large]
    rfl
  have value : Parser.wholeExpression ⟨print, [t, semicolon], lastLine, .none, #[]⟩ =
      (.nil line, ⟨t, [semicolon], lastLine, found, #[]⟩) :=
    Parser.expression_of_operand? (Parser.nested 255) .assignment
      ⟨print, [t, semicolon], lastLine, .none, #[]⟩ (operand _) rfl
  -- Behind the semicolon the panic is over, and the source ends.
  have first : Parser.declaration ⟨.atEnd lastLine, [print, t, semicolon], lastLine, .none, #[]⟩ =
      (.print (.nil line) line,
        ⟨semicolon, [], lastLine, { found with panicking := false }, #[]⟩) := by
    show ((Parser.printStatement ⟨print, [t, semicolon], lastLine, .none, #[]⟩).1,
      (Parser.printStatement ⟨print, [t, semicolon], lastLine, .none, #[]⟩).2.recover) = _
    rw [Parser.printStatement, value]
    show (_, Parser.skipDeclaration _) = _
    rw [Parser.skipDeclaration_of_finish rfl]
    rfl
  rw [ofStream]
  show (Parser.declarations ⟨.atEnd lastLine, [print, t, semicolon], lastLine, .none, #[]⟩
    ).2.reports.diagnostics.toList = _
  rw [Parser.declarations_of_more (fun finish => by cases finish), first,
    Parser.declarations_of_finish rfl]

/-! ## One literal -/

/-- A text between quotes. -/
def quoted (s : String) : String :=
  "\"" ++ s ++ "\""

/-- The tokens of a print statement are its first word and those of the value. -/
theorem TokenStream.tokens_print (value : String) :
    (scan ("print " ++ value ++ ";").toList).tokens =
      ⟨.keyword .printWord, Keyword.printWord.spelling, 1⟩ ::
        (scanFrom 1 (value.toList ++ [';'])).tokens := by
  have text : ("print " ++ value ++ ";").toList =
      Keyword.printWord.spelling ++ ' ' :: (value.toList ++ [';']) := by
    simp [String.toList_append, Keyword.spelling]
  rw [scan, text, tokens_of_spells (.keyword .printWord) 1 rfl]

/-- A print statement on one line. -/
theorem PrintsOnly.of_scanFrom {value : String} {tokens : List Token} {semicolon : Token}
    (scanned : (TokenStream.scanFrom 1 (value.toList ++ [';'])).tokens = tokens ++ [semicolon])
    (ended : semicolon.kind = .semicolon) (inside : ∀ t ∈ tokens, t.kind ≠ .semicolon) :
    PrintsOnly ("print " ++ value ++ ";") tokens := by
  refine ⟨⟨⟨.keyword .printWord, Keyword.printWord.spelling, 1⟩, semicolon, rfl, ended, ?_⟩, inside⟩
  rw [TokenStream.tokens_print, scanned]
  rfl

namespace Machine

variable {limit : Nat} {m : Machine}

/-- A print statement of one literal. -/
theorem Idle.interpret_literal (idle : m.Idle limit) (room : 0 < limit) {source : String}
    {t : Token} {value : Literal} (prints : PrintsOnly source [t])
    (primary : Expr.Primary t (.literal value t.line)) (range : t.InRange) :
    ∃ after, m.interpret source = (.ok, after) ∧
      after.printed = m.printed ++ lineBytes value.datum.toText := by
  have derives : (Expr.literal value t.line).Derives .assignment [t] :=
    (Expr.Derives.primary primary).loosen (Nat.zero_le _)
  have few : [t].countP Token.isConstant ≤ Chunk.maxConstants :=
    Nat.le_trans List.countP_le_length (show 1 ≤ 256 by decide)
  obtain ⟨accepted, endLine, one⟩ := prints.compiles derives (show 1 ≤ 256 by decide) few
    (List.forall_mem_singleton.2 range)
  obtain ⟨after, answer, -, printed⟩ :=
    idle.interpret_print accepted one (Expr.eval_literal room value t.line m.world)
  exact ⟨after, answer, printed⟩

/-- **A string is printed as it is,** whatever characters it has. -/
theorem Idle.interpret_string (idle : m.Idle limit) (room : 0 < limit) {s : String}
    (closed : '"' ∉ s.toList) :
    ∃ after, m.interpret ("print " ++ quoted s ++ ";") = (.ok, after) ∧
      after.printed = m.printed ++ lineBytes s := by
  let t : Token := ⟨.string, '"' :: (s.toList ++ ['"']), 1 + lineEnds s.toList⟩
  have text : (quoted s).toList ++ [';'] = '"' :: (s.toList ++ ['"', ';']) := by simp [quoted]
  have prints : PrintsOnly ("print " ++ quoted s ++ ";") [t] :=
    .of_scanFrom (text ▸ TokenStream.tokens_string closed 1) rfl (by simp [t])
  have shown : (Literal.ofQuoted t.text).datum.toText = s := by
    simp [t, Literal.ofQuoted, Literal.datum, Datum.toText]
  have kind : t.kind = .string := rfl
  have printed := idle.interpret_literal room prints (.string kind)
    (Token.inRange_of_kind kind (by decide))
  rwa [shown] at printed

/-- **Digits are printed as the number that they are,** if that is not too large. -/
theorem Idle.interpret_digits (idle : m.Idle limit) (room : 0 < limit) {w : String}
    (number : IsDigits w.toList) (small : Nat.ofDigitChars 10 w.toList 0 ≤ Literal.maxInt) :
    ∃ after, m.interpret ("print " ++ w ++ ";") = (.ok, after) ∧
      after.printed = m.printed ++ lineBytes (toString (Nat.ofDigitChars 10 w.toList 0)) := by
  let t : Token := ⟨.number, w.toList, 1⟩
  have prints : PrintsOnly ("print " ++ w ++ ";") [t] :=
    .of_scanFrom (TokenStream.tokens_digits number 1) rfl (by simp [t])
  have primary : Expr.Primary t (Expr.ofNumber t) := .number rfl
  rw [Expr.ofNumber_of_le number 1 small] at primary
  have printed := idle.interpret_literal room prints primary fun _ _ => small
  rw [Literal.maxInt] at small
  rwa [Literal.datum, Datum.toText, Int32.toInt_ofNat_of_lt (by omega)] at printed

end Machine

/-- **Digits that are too large are refused there.** -/
theorem compile_large {w : String} (number : IsDigits w.toList)
    (large : Literal.maxInt < Nat.ofDigitChars 10 w.toList 0) (pool : StringPool) :
    (compile ("print " ++ w ++ ";") pool).1 =
      .error [⟨1, .token w.toList, .integerOutOfRange⟩] := by
  have tokens := (TokenStream.tokens_print w).trans
    (congrArg (List.cons _) (TokenStream.tokens_digits number 1))
  have found := ParsedSource.diagnostics_of_large number (Nat.not_le.2 large)
    Keyword.printWord.spelling 1 (TokenStream.scan ("print " ++ w ++ ";").toList).lastLine
  rw [← tokens] at found
  exact compile_eq_error_iff.2 ⟨found, List.cons_ne_nil _ _⟩

/-! ## The text of a number, read back -/

/-- What the text of a number of 32 bits is, in front of a semicolon: one token or two that
are an expression, the value of which is the number, unless a literal is too large. -/
structure ReadBack (n : Int32) (line : Nat) (tokens : List Token) (e : Expr) : Prop where
  scanned : (TokenStream.scanFrom line ((toString n.toInt).toList ++ [';'])).tokens =
    tokens ++ [⟨.semicolon, [';'], line⟩]
  derives : e.Derives .assignment tokens
  nesting : e.nesting ≤ 2
  length : tokens.length ≤ 2
  range : (∀ t ∈ tokens, t.InRange) ↔ n.toInt ≠ -2147483648
  value : n.toInt ≠ -2147483648 → ∀ {limit height : Nat}, height < limit →
    ∀ w, e.eval limit height w = .ok (.int n) w

/-- Digits are in range up to the greatest integer literal. -/
theorem Token.inRange_digits {digits : List Char} (number : IsDigits digits) (line : Nat) :
    (⟨.number, digits, line⟩ : Token).InRange ↔
      Nat.ofDigitChars 10 digits 0 ≤ Literal.maxInt :=
  ⟨fun range => range rfl number.not_mem_point, fun small _ _ => small⟩

/-- A number that is not negative is a literal. -/
theorem readBack_of_nonneg {n : Int32} {v : Nat} (eq : n.toInt = v) (line : Nat) :
    ∃ tokens e, ReadBack n line tokens e := by
  have number := isDigits_toDigits v
  have bound := n.toInt_lt
  have small : Nat.ofDigitChars 10 (Nat.toDigits 10 v) 0 ≤ Literal.maxInt := by
    rw [Nat.ofDigitChars_ten_toDigits, Literal.maxInt]
    omega
  have text : (toString n.toInt).toList = Nat.toDigits 10 v := by
    rw [eq]
    exact Nat.toList_repr
  have same : Int32.ofNat v = n := by
    rw [← Int32.ofInt_toInt n, eq]
    rfl
  have tree := Expr.ofNumber_of_le number line small
  rw [Nat.ofDigitChars_ten_toDigits, same] at tree
  refine ⟨[⟨.number, Nat.toDigits 10 v, line⟩], .literal (.int n) line, ?_, ?_, Nat.le_succ 1,
    Nat.le_succ 1, ?_, fun _ _ _ room w => Expr.eval_literal room (.int n) line w⟩
  · rw [text]
    exact TokenStream.tokens_digits number line
  · exact tree ▸ (Expr.Derives.primary (.number rfl)).loosen (Nat.zero_le _)
  · rw [List.forall_mem_singleton, Token.inRange_digits number]
    exact ⟨fun _ => by omega, fun _ => small⟩

/-- A negative number is a literal behind an operator. -/
theorem readBack_of_neg {n : Int32} {v : Nat} (eq : n.toInt = .negSucc v) (line : Nat) :
    ∃ tokens e, ReadBack n line tokens e := by
  have number := isDigits_toDigits (v + 1)
  have bound := n.le_toInt
  have small : Nat.ofDigitChars 10 (Nat.toDigits 10 (v + 1)) 0 ≤ Literal.maxInt ↔
      n.toInt ≠ -2147483648 := by
    rw [Nat.ofDigitChars_ten_toDigits, Literal.maxInt]
    omega
  have text : (toString n.toInt).toList = '-' :: Nat.toDigits 10 (v + 1) := by
    rw [eq]
    show ("-" ++ (v + 1).repr).toList = _
    rw [String.toList_append, Nat.toList_repr]
    rfl
  let t : Token := ⟨.number, Nat.toDigits 10 (v + 1), line⟩
  refine ⟨[⟨.minus, ['-'], line⟩, t], .unary .negate (Expr.ofNumber t), ?_, ?_, ?_,
    Nat.le_refl 2, ?_, ?_⟩
  · rw [text]
    exact TokenStream.tokens_negative number line
  · have negated : (Expr.unary .negate (Expr.ofNumber t)).Derives .unary
        [⟨.minus, ['-'], line⟩, t] := .unary rfl (.primary (.number rfl))
    exact negated.loosen (Nat.zero_le _)
  · rw [Expr.nesting, Expr.nesting_ofNumber]
  · rw [List.forall_mem_cons, List.forall_mem_singleton, Token.inRange_digits number, small]
    have sign : Token.kind ⟨.minus, ['-'], line⟩ = .minus := rfl
    exact and_iff_right (Token.inRange_of_kind sign (by decide))
  · intro ne limit height room w
    have fits := small.2 ne
    rw [Expr.ofNumber_of_le number line fits, Nat.ofDigitChars_ten_toDigits]
    rw [Nat.ofDigitChars_ten_toDigits, Literal.maxInt] at fits
    have negated : UnaryOp.negate.compute (Literal.int (.ofNat (v + 1))).datum = .ok (.int n) := by
      rw [Literal.datum, UnaryOp.compute, Int32.toInt_ofNat_of_lt (by omega), Datum.wrap,
        ← Int32.ofInt_toInt n, eq]
      rfl
    exact Expr.eval_unary (Expr.eval_literal room _ line w) negated

/-- **The text of a number is read back as the number,** unless that is the least. -/
theorem exists_readBack (n : Int32) (line : Nat) : ∃ tokens e, ReadBack n line tokens e := by
  rcases Int.lt_or_le n.toInt 0 with negative | nonneg
  · obtain ⟨v, eq⟩ := Int.eq_negSucc_of_lt_zero negative
    exact readBack_of_neg eq line
  · obtain ⟨v, eq⟩ := Int.eq_ofNat_of_zero_le nonneg
    exact readBack_of_nonneg eq line

/-- A declaration on one line. -/
theorem TokenStream.tokens_var (value : String) :
    (scan ("var x = " ++ value ++ ";").toList).tokens =
      ⟨.keyword .varWord, Keyword.varWord.spelling, 1⟩ :: ⟨.identifier, ['x'], 1⟩ ::
        ⟨.equal, ['='], 1⟩ :: (scanFrom 1 (value.toList ++ [';'])).tokens := by
  have text : ("var x = " ++ value ++ ";").toList = Keyword.varWord.spelling ++
      ' ' :: (['x'] ++ ' ' :: (['='] ++ ' ' :: (value.toList ++ [';']))) := by
    simp [String.toList_append, Keyword.spelling]
  have name : Token.Kind.Spells .identifier ['x'] :=
    .identifier rfl nofun fun k => by cases k <;> decide
  rw [scan, text, tokens_of_spells (.keyword .varWord) 1 rfl, tokens_of_spells name 1 rfl,
    tokens_of_spells (.sign rfl : Token.Kind.Spells .equal ['=']) 1 rfl]

namespace ReadBack

variable {n : Int32} {tokens : List Token} {e : Expr}

/-- A declaration with the text of a number. -/
theorem scanned_var (back : ReadBack n 1 tokens e) :
    (TokenStream.scan ("var x = " ++ toString n.toInt ++ ";").toList).tokens =
      ⟨.keyword .varWord, Keyword.varWord.spelling, 1⟩ :: ⟨.identifier, ['x'], 1⟩ ::
        ⟨.equal, ['='], 1⟩ :: tokens ++ [⟨.semicolon, [';'], 1⟩] := by
  rw [TokenStream.tokens_var, back.scanned]
  rfl

/-- It is accepted, unless a literal is too large. -/
theorem compiles (back : ReadBack n 1 tokens e) (ne : n.toInt ≠ -2147483648) :
    StackScript.compiles ("var x = " ++ toString n.toInt ++ ";") = true ∧
      (ParsedSource.ofSource ("var x = " ++ toString n.toInt ++ ";")).program.declarations =
        [.define ['x'] 1 (some e) 1] := by
  refine (Declaration.Derives.initialise rfl rfl rfl back.derives rfl).compiles back.scanned_var
    (Nat.le_trans back.nesting (by decide)) (Nat.le_trans List.countP_le_length ?_) ?_
  · have := back.length
    simp only [List.cons_append, List.length_cons, List.length_append, List.length_nil,
      Chunk.maxConstants]
    omega
  · rw [List.forall_mem_append, List.forall_mem_cons, List.forall_mem_cons, List.forall_mem_cons,
      List.forall_mem_singleton]
    exact ⟨⟨Token.inRange_of_kind rfl (by decide), Token.inRange_of_kind rfl (by decide),
      Token.inRange_of_kind rfl (by decide), back.range.2 ne⟩,
      Token.inRange_of_kind rfl (by decide)⟩

/-- The least integer is not written in an accepted source. -/
theorem ne_of_compiles (back : ReadBack n 1 tokens e)
    (accepted : StackScript.compiles ("var x = " ++ toString n.toInt ++ ";") = true) :
    n.toInt ≠ -2147483648 := by
  have read : ∀ t ∈ (TokenStream.scan ("var x = " ++ toString n.toInt ++ ";").toList).tokens,
      t.kind ≠ .finish := TokenStream.kind_ne_finish 1 _
  obtain ⟨-, -, range, -⟩ :=
    ParsedSource.derives_of_diagnostics_eq_nil read (compiles_iff.1 accepted)
  rw [back.scanned_var] at range
  exact back.range.1 fun t mem => range t (by simp [mem])

end ReadBack

/-- The diagnostic of digits that are too large. -/
theorem Diagnostic.text_of_large (w : String) :
    text ⟨1, .token w.toList, .integerOutOfRange⟩ =
      "[line 1] Error at '" ++ w ++ "': Integer literal out of range." := by
  have parts : text ⟨1, .token w.toList, .integerOutOfRange⟩ =
      "[line " ++ toString 1 ++ "] Error" ++ (" at '" ++ String.ofList w.toList ++ "'") ++ ": " ++
        "Integer literal out of range." := rfl
  have one : toString 1 = "1" := by decide +kernel
  rw [parts, one, String.ofList_toList, ← String.toList_inj]
  simp [String.toList_append]

namespace Machine

variable {limit : Nat} {m : Machine}

/-- What a name is bound to in the world of a machine between two runs. -/
theorem Idle.global?_of_world (idle : m.Idle limit) {name : List Char} {n : Int32}
    (bound : m.world.globals (Utf8.encode name) = some (.int n)) :
    m.global? name = some (.int n) := by
  have global := idle.sound.global? name
  rw [bound] at global
  obtain ⟨v, found, content⟩ := Option.map_eq_some_iff.1 global
  rw [found]
  cases Value.denotes_of_content? content with
  | int => rfl

/-- The declaration binds the number. -/
theorem Idle.interpret_var (idle : m.Idle limit) (room : 0 < limit) {n : Int32}
    {tokens : List Token} {e : Expr} (back : ReadBack n 1 tokens e)
    (ne : n.toInt ≠ -2147483648) :
    ∃ after, m.interpret ("var x = " ++ toString n.toInt ++ ";") = (.ok, after) ∧
      after.global? ['x'] = some (.int n) := by
  obtain ⟨accepted, one⟩ := back.compiles ne
  obtain ⟨after, answer, later, world⟩ := idle.interpret_of_eval accepted
    (w := m.world.bind (Utf8.encode ['x']) (.int n)) (by
      rw [Program.eval, one]
      simp only [Declaration.evalAll, Declaration.eval, bind, EStateM.bind, back.value ne room]
      rfl)
  refine ⟨after, answer, later.global?_of_world ?_⟩
  rw [world]
  simp [World.bind]

end Machine

/-! ## Main statement -/

/-- **Literals mean what they spell.** At any time in a session with a place on the stack: a
text without a quote, put between quotes, is printed as it is. Digits, however many there are,
are printed as their decimal value up to 2147483647; above, the source is refused with one
diagnostic, at the digits. And what is printed of a number of 32 bits, put back into a source,
has the number as its value if and only if that is not the least number. -/
theorem literals_mean_what_they_spell {settings : Settings} {output errors : Sink} {m : Machine}
    (reliable : output.Reliable) (reached : Reached settings output errors m)
    (room : 0 < settings.stackMax) :
    (∀ s : String, '"' ∉ s.toList → ∃ after,
      m.interpret ("print " ++ quoted s ++ ";") = (.ok, after) ∧
        after.printed = m.printed ++ lineBytes s) ∧
    (∀ w : String, w ≠ "" → (∀ c ∈ w.toList, c.isDigit = true) →
      (Nat.ofDigitChars 10 w.toList 0 ≤ 2147483647 → ∃ after,
        m.interpret ("print " ++ w ++ ";") = (.ok, after) ∧
          after.printed = m.printed ++ lineBytes (toString (Nat.ofDigitChars 10 w.toList 0))) ∧
      (2147483647 < Nat.ofDigitChars 10 w.toList 0 → ∃ d,
        (compile ("print " ++ w ++ ";") m.pool).1 = .error [d] ∧
          d.text = "[line 1] Error at '" ++ w ++ "': Integer literal out of range.")) ∧
    ∀ n : Int32, (compiles ("var x = " ++ (Value.int n).text m.pool ++ ";") = true ∧ ∃ after,
      m.interpret ("var x = " ++ (Value.int n).text m.pool ++ ";") = (.ok, after) ∧
        after.global? ['x'] = some (.int n)) ↔ n.toInt ≠ -2147483648 := by
  have idle := reached.idle reliable
  refine ⟨fun s closed => idle.interpret_string room closed, fun w nonempty all => ?_,
    fun n => ?_⟩
  · have number : IsDigits w.toList := ⟨by simpa using nonempty, all⟩
    refine ⟨idle.interpret_digits room number, fun large => ?_⟩
    exact ⟨_, compile_large number large m.pool, Diagnostic.text_of_large w⟩
  · obtain ⟨tokens, e, back⟩ := exists_readBack n 1
    constructor
    · rintro ⟨accepted, -⟩
      exact back.ne_of_compiles accepted
    · intro ne
      exact ⟨(back.compiles ne).1, idle.interpret_var room back ne⟩

/-- A text of two lines with what looks like a comment, zeros in front of a number, the least
number that is too large, and a negative number. -/
theorem literals_mean_what_they_spell_each :
    let m := Machine.create ⟨256, false⟩ .unlimited .unlimited
    Sink.unlimited.Reliable ∧
      (∃ after, m.interpret ("print " ++ quoted "é // é\nz" ++ ";") = (.ok, after) ∧
        after.printed = lineBytes "é // é\nz") ∧
      (∃ after, m.interpret ("print " ++ "007" ++ ";") = (.ok, after) ∧
        after.printed = lineBytes "7") ∧
      (∃ d, (compile ("print " ++ "2147483648" ++ ";") m.pool).1 = .error [d] ∧
        d.text = "[line 1] Error at '2147483648': Integer literal out of range.") ∧
      compiles ("var x = " ++ "-2147483648" ++ ";") = false ∧
      ∃ after, m.interpret ("var x = " ++ "-5" ++ ";") = (.ok, after) ∧
        after.global? ['x'] = some (.int (-5)) := by
  intro m
  have reliable : Sink.unlimited.Reliable := ⟨fun _ _ => rfl, fun _ => rfl⟩
  obtain ⟨strings, digits, numbers⟩ := literals_mean_what_they_spell reliable
    (.create : Reached ⟨256, false⟩ .unlimited .unlimited m) (by decide)
  have seven : "007".toList.all (·.isDigit) = true := by decide +kernel
  have large : "2147483648".toList.all (·.isDigit) = true := by decide +kernel
  refine ⟨reliable, strings _ (by decide +kernel),
    (digits "007" (by decide) (List.all_eq_true.1 seven)).1 (by decide +kernel),
    (digits "2147483648" (by decide) (List.all_eq_true.1 large)).2 (by decide +kernel),
    by decide +kernel, ((numbers (-5)).2 (by decide)).2⟩

end StackScript
