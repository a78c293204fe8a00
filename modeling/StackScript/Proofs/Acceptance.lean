/-
# Which sources are accepted, and the code that they get

A source is accepted exactly if its tokens are a program and keep within three limits:
on the number of constants, on integer literals and on nesting. The program is then the
only one that the tokens can be, and its code is read off its trees in post-order:

| tree | bytes, after those of the operands |
| --- | --- |
| number or string | constant, its number |
| `nil`, `true`, `false` | the operation |
| name | read global, its number |
| assignment | assign global, the number of the name |
| group | none |
| `-e`, `!e` | the operation |
| `l op r` | the operation; `!=`, `>=`, `<=` are the negated `==`, `<`, `>` |
| `var name` | define global, the number of the name; `nil` stands for a missing value |
| `print e;`, `e;` | print, pop |
| program | finish |

Numbers, strings and names are numbered in the order of their tokens. That a compiler writes the
same bytes which knows of no trees is shown in `StackScript.Proofs.Emission`.
-/
import StackScript.Compilation
import StackScript.Proofs.Grammar.Unambiguous
import StackScript.Proofs.Parser.Soundness

namespace StackScript

/-- The tokens of a source are a program. -/
structure Program.Derives (stream : TokenStream) (p : Program) : Prop where
  declarations : Declaration.DerivesAll stream.tokens p.declarations
  lastLine : p.lastLine = stream.lastLine

/-- The tokens of a source are one program at most. -/
theorem Program.Derives.unique {stream : TokenStream} {p q : Program} (hp : p.Derives stream)
    (hq : q.Derives stream) : q = p := by
  rcases p with ⟨_, _⟩
  rcases q with ⟨_, _⟩
  obtain rfl := hq.declarations.unique hp.declarations
  obtain rfl := hp.lastLine
  obtain rfl := hq.lastLine
  rfl

/-! ## Acceptance -/

/-- No lexeme is the end of the source. -/
theorem Lexeme.kind_read_ne_finish (c : Char) (rest : List Char) :
    (Lexeme.read c rest).kind ≠ .finish := by
  unfold read word number string orEqual
  dsimp only
  repeat' split
  all_goals simp

/-- The end of the source is not among the tokens. -/
theorem TokenStream.kind_ne_finish (line : Nat) (source : List Char) :
    ∀ t ∈ (scanFrom line source).tokens, t.kind ≠ .finish := by
  fun_induction scanFrom line source with
  | case1 => simp
  | case2 line source gap c rest _ lexeme line' after ih =>
    intro t ht
    rcases List.mem_cons.1 ht with rfl | ht
    · exact Lexeme.kind_read_ne_finish c rest
    · exact ih t ht

namespace ParsedSource

variable {stream : TokenStream}

/-- The constants of the program are noted, and the program nests within the limit. -/
theorem derives_of_diagnostics_eq_nil (inside : ∀ t ∈ stream.tokens, t.kind ≠ .finish)
    (accepted : (ofStream stream).diagnostics = []) :
    (ofStream stream).program.Derives stream ∧
      (∀ d ∈ (ofStream stream).program.declarations, d.nesting ≤ Parser.maxNesting) ∧
      (∀ t ∈ stream.tokens, t.InRange) ∧
      (ofStream stream).constants.length ≤ Chunk.maxConstants ∧
      (ofStream stream).constants =
        (ofStream stream).program.declarations.flatMap Declaration.constants := by
  have empty : (Parser.ofStream stream).declarations.2.reports.diagnostics = #[] := by
    simpa [ofStream] using accepted
  have start : (Parser.ofStream stream).reports = .none := by
    have grows := Parser.grows_skipFaults stream.tokens .none
    exact (grows.honest Reports.honest_none).eq_none
      ((Parser.keeps_declarations _).diagnostics_eq empty)
  have unread : (Parser.ofStream stream).unread = stream.tokens :=
    congrArg Prod.fst (Parser.skipFaults_of_none start)
  obtain ⟨deep, derives, takes⟩ := Parser.sound_declarations (start ▸ Reports.honest_none)
    (unread ▸ inside) empty
  rw [unread] at derives takes
  exact ⟨⟨derives, rfl⟩, deep, takes.range, takes.few (Nat.zero_le _), takes.constants⟩

/-- A program within the limits is read from its tokens, and nothing is reported. -/
theorem ofStream_of_derives {p : Program} (h : p.Derives stream)
    (deep : ∀ d ∈ p.declarations, d.nesting ≤ Parser.maxNesting)
    (few : stream.tokens.countP Token.isConstant ≤ Chunk.maxConstants)
    (range : ∀ t ∈ stream.tokens, t.InRange) :
    ofStream stream = ⟨p, p.declarations.flatMap Declaration.constants, []⟩ := by
  have plain := h.declarations.not_isFault
  have start : Parser.ofStream stream =
      ⟨stream.finish, stream.tokens, stream.lastLine, .none, #[]⟩ := by
    rw [Parser.ofStream, Parser.skipFaults_of_plain]
    exact fun t ht => plain t (List.mem_of_mem_head? ht)
  obtain ⟨q, read, quiet, moves⟩ :=
    Parser.declarations_of_derives (p := Parser.ofStream stream) h.declarations deep
      (by rw [start]) (by rw [start]; exact plain) (by rw [start])
      (by rw [start, ← h.declarations.countP_eq range]; simpa using few) range
  have constants := moves.constants
  rw [start] at constants
  rw [ofStream, read]
  rcases p with ⟨declarations, lastLine⟩
  obtain rfl : lastLine = stream.lastLine := h.lastLine
  simp_all [Reports.none]

end ParsedSource

/-! ## The code in post-order -/

/-- The bytes of an operation on two operands. -/
def BinaryOp.bytes : BinaryOp → List UInt8
  | equal => [Opcode.equal.toByte]
  | notEqual => [Opcode.equal.toByte, Opcode.not.toByte]
  | greater => [Opcode.greater.toByte]
  | greaterEqual => [Opcode.less.toByte, Opcode.not.toByte]
  | less => [Opcode.less.toByte]
  | lessEqual => [Opcode.greater.toByte, Opcode.not.toByte]
  | add => [Opcode.add.toByte]
  | subtract => [Opcode.subtract.toByte]
  | multiply => [Opcode.multiply.toByte]
  | divide => [Opcode.divide.toByte]

/-- The bytes of an expression in post-order. `next` constants come before it. -/
def Expr.postOrder (next : Nat) : Expr → List UInt8
  | literal _ _ => [Opcode.constant.toByte, .ofNat next]
  | nil _ => [Opcode.pushNil.toByte]
  | bool true _ => [Opcode.pushTrue.toByte]
  | bool false _ => [Opcode.pushFalse.toByte]
  | global _ _ => [Opcode.getGlobal.toByte, .ofNat next]
  | assign _ _ value => value.postOrder (next + 1) ++ [Opcode.setGlobal.toByte, .ofNat next]
  | group inner _ => inner.postOrder next
  | unary .negate operand => operand.postOrder next ++ [Opcode.negate.toByte]
  | unary .not operand => operand.postOrder next ++ [Opcode.not.toByte]
  | binary op left right =>
    left.postOrder next ++ right.postOrder (next + left.constants.length) ++ op.bytes

/-- The bytes of a declaration in post-order. -/
def Declaration.postOrder (next : Nat) : Declaration → List UInt8
  | define _ _ none _ => [Opcode.pushNil.toByte, Opcode.defineGlobal.toByte, .ofNat next]
  | define _ _ (some value) _ =>
    value.postOrder (next + 1) ++ [Opcode.defineGlobal.toByte, .ofNat next]
  | print value _ => value.postOrder next ++ [Opcode.print.toByte]
  | expression value _ => value.postOrder next ++ [Opcode.pop.toByte]

/-- The bytes of some declarations in post-order. -/
def Declaration.postOrderAll (next : Nat) : List Declaration → List UInt8
  | [] => []
  | d :: others => d.postOrder next ++ postOrderAll (next + d.constants.length) others

/-- The bytes of a program in post-order. -/
def Program.postOrder (p : Program) : List UInt8 :=
  Declaration.postOrderAll 0 p.declarations ++ [Opcode.finish.toByte]

/-- The bytes of some code, without their lines. -/
def codeBytes (code : List TracedInstruction) : List UInt8 :=
  (code.flatMap (·.bytes)).map (·.byte)

@[simp] theorem codeBytes_nil : codeBytes [] = [] := rfl

/-- The bytes of two pieces of code follow one another. -/
@[simp] theorem codeBytes_append (code more : List TracedInstruction) :
    codeBytes (code ++ more) = codeBytes code ++ codeBytes more := by
  simp [codeBytes]

/-- The bytes of the first instruction come first. -/
@[simp] theorem codeBytes_cons (i : TracedInstruction) (code : List TracedInstruction) :
    codeBytes (i :: code) = i.instruction.encode ++ codeBytes code := by
  simp [codeBytes, TracedInstruction.bytes, Function.comp_def]

/-- The operations of an operator are its bytes. -/
theorem BinaryOp.codeBytes_code (op : BinaryOp) (line : Nat) :
    codeBytes (op.code.map (⟨·, line⟩)) = op.bytes := by
  cases op <;> rfl

/-- The code of an expression is the expression in post-order. -/
theorem Expr.codeBytes_code (e : Expr) (next : Nat) :
    codeBytes (e.code next) = e.postOrder next := by
  induction e generalizing next with
  | literal | nil | global => rfl
  | bool b => cases b <;> rfl
  | assign name line value ih =>
    rw [code, codeBytes_append, ih]
    rfl
  | group inner line ih => exact ih next
  | unary op operand ih =>
    rw [code, codeBytes_append, ih]
    cases op <;> rfl
  | binary op left right ihl ihr =>
    rw [code, codeBytes_append, codeBytes_append, ihl, ihr, BinaryOp.codeBytes_code]
    rfl

/-- The code of a declaration is the declaration in post-order. -/
theorem Declaration.codeBytes_code (d : Declaration) (next : Nat) :
    codeBytes (d.code next) = d.postOrder next := by
  cases d with
  | define name nameLine initial endLine =>
    cases initial with
    | none => rfl
    | some value =>
      rw [code, codeBytes_append, Expr.codeBytes_code]
      rfl
  | print value | expression value =>
    rw [code, codeBytes_append, Expr.codeBytes_code]
    rfl

/-- The code of some declarations is the declarations in post-order, in turn. -/
theorem Declaration.codeBytes_codeOfList (ds : List Declaration) (next : Nat) :
    codeBytes (codeOfList next ds) = postOrderAll next ds := by
  induction ds generalizing next with
  | nil => rfl
  | cons d ds ih => rw [codeOfList, codeBytes_append, codeBytes_code, ih, postOrderAll]

/-- The code of a program is the program in post-order. -/
theorem Program.codeBytes_code (p : Program) : codeBytes p.code = p.postOrder := by
  rw [code, codeBytes_append, Declaration.codeBytes_codeOfList]
  rfl

/-! ## Main statement -/

/-- Every constant gets a value. -/
theorem Literal.length_linkAll (pool : StringPool) (literals : List Literal) :
    (linkAll pool literals).1.length = literals.length := by
  induction literals generalizing pool with
  | nil => rfl
  | cons value others ih => simp [linkAll, ih]

/-- A source is accepted if it has no diagnostics, and its chunk is that of its program. -/
theorem compile_eq_ok_iff {source : String} {pool : StringPool} {chunk : Chunk} :
    (compile source pool).1 = .ok chunk ↔
      (ParsedSource.ofSource source).diagnostics = [] ∧
        (ParsedSource.ofSource source).program.chunk
          (Literal.linkAll pool (ParsedSource.ofSource source).constants).1 = chunk := by
  unfold compile
  dsimp only
  split <;> simp_all

/-- A source is refused with the diagnostics that it has, which are some. -/
theorem compile_eq_error_iff {source : String} {pool : StringPool} {diagnostics : List Diagnostic} :
    (compile source pool).1 = .error diagnostics ↔
      (ParsedSource.ofSource source).diagnostics = diagnostics ∧ diagnostics ≠ [] := by
  unfold compile
  dsimp only
  split
  · rename_i faultless
    constructor
    · nofun
    · rintro ⟨rfl, faulty⟩
      exact absurd (List.isEmpty_iff.1 faultless) faulty
  · rename_i faulty
    constructor
    · rintro refused
      cases refused
      exact ⟨rfl, fun none => faulty (List.isEmpty_iff.2 none)⟩
    · rintro ⟨rfl, -⟩
      rfl

/-- **The compiler accepts exactly the grammar, within its limits,** whatever strings
are in the pool. A source it accepts has a single tree, and the code of the source is
that tree in post-order. -/
theorem compile_accepts_iff_derives (source : String) (pool : StringPool) :
    ((∃ chunk, (compile source pool).1 = .ok chunk) ↔
      (∀ t ∈ (TokenStream.scan source.toList).tokens, t.isFault = false) ∧
      (∃ p : Program, p.Derives (.scan source.toList) ∧
        ∀ d ∈ p.declarations, d.nesting ≤ 256) ∧
      (TokenStream.scan source.toList).tokens.countP Token.isConstant ≤ 256 ∧
      ∀ t ∈ (TokenStream.scan source.toList).tokens, t.kind = .number → '.' ∉ t.text →
        Nat.ofDigitChars 10 t.text 0 ≤ 2147483647) ∧
    ∀ chunk, (compile source pool).1 = .ok chunk →
      ∃ p : Program, p.Derives (.scan source.toList) ∧
        (∀ q : Program, q.Derives (.scan source.toList) → q = p) ∧
        chunk.code.map (·.byte) = p.postOrder ∧
        chunk.constants.length =
          (TokenStream.scan source.toList).tokens.countP Token.isConstant := by
  have inside : ∀ t ∈ (TokenStream.scan source.toList).tokens, t.kind ≠ .finish :=
    TokenStream.kind_ne_finish 1 source.toList
  have sound := ParsedSource.derives_of_diagnostics_eq_nil inside
  refine ⟨⟨?_, ?_⟩, ?_⟩
  · rintro ⟨chunk, accepted⟩
    obtain ⟨derives, deep, range, few, constants⟩ := sound (compile_eq_ok_iff.1 accepted).1
    refine ⟨derives.declarations.not_isFault, ⟨_, derives, deep⟩, ?_, range⟩
    rw [derives.declarations.countP_eq range, ← constants]
    exact few
  · rintro ⟨-, ⟨p, derives, deep⟩, few, range⟩
    have read := ParsedSource.ofStream_of_derives derives deep few range
    exact ⟨_, compile_eq_ok_iff.2 ⟨by rw [ParsedSource.ofSource, read], rfl⟩⟩
  · intro chunk accepted
    obtain ⟨quiet, rfl⟩ := compile_eq_ok_iff.1 accepted
    obtain ⟨derives, -, range, -, constants⟩ := sound quiet
    refine ⟨_, derives, fun q other => derives.unique other, Program.codeBytes_code _, ?_⟩
    rw [derives.declarations.countP_eq range, ← constants]
    exact Literal.length_linkAll ..

end StackScript
