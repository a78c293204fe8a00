/-
# The stack is no deeper than the parser

An expression is read by calls of `Nested.read` that nest in one another. Beside every
function of the parser stands the greatest number of calls that are active at once while
it reads:

| what is read | active calls |
| --- | --- |
| operand in one token, name without `=` | none |
| group, negation, assignment | those of the inner call |
| operators after an operand | those of the right operands, the greatest number |
| expression | one, and those of its operand and of its operators, the greater |
| declaration | those of its expression, if it has one |

The tree that is read nests exactly as deep as the calls do (`nesting_read`), and the
nesting of a tree bounds the stack that its code needs (`Expr.balanced_code`). A call
refused for its depth counts as one: it is the call that asks for an expression there.
-/
import StackScript.Proofs.Neutrality

namespace StackScript
namespace Parser

section Calls

variable (inner : Nested) (calls : Precedence → Parser → Nat)

/-- The calls for the right operands of the operators that follow a left operand. -/
def infixesCalls (k : Precedence) (p : Parser) : Nat :=
  match _seen : BinaryOp.ofKind? p.current.kind with
  | none => 0
  | some op =>
    if k.rank ≤ op.precedence.rank then
      max (calls op.precedence.next p.advance)
        (infixesCalls k (inner.read op.precedence.next p.advance).2)
    else 0
termination_by p.unread.length
decreasing_by
  have pos : 0 < p.unread.length := unread_pos (by intro h; simp [h, BinaryOp.ofKind?] at _seen)
  have := inner.length_le op.precedence.next p.advance
  have := p.length_advance
  omega

/-- The calls for an operand that starts with the token `t`, already read. -/
def operandCalls (k : Precedence) (t : Token) (p : Parser) : Nat :=
  match t.kind with
  | .leftParen => calls .assignment p
  | .minus | .bang => calls .unary p
  | .identifier =>
    let p := p.note (.text t.text)
    if k = .assignment && p.sees .equal then calls .assignment p.advance else 0
  | _ => 0

/-- The calls for an expression, of which the first is that for the expression itself. -/
def expressionCalls (k : Precedence) (p : Parser) : Nat :=
  1 + max (operandCalls calls k p.current p.advance)
    (match operand? inner k p.current p.advance with
      | (none, _) => 0
      | (some _, q) => infixesCalls inner calls k q)

end Calls

/-- The greatest number of calls that are active at once while an expression is read that
may nest `n` deep. -/
def activeCalls : Nat → Precedence → Parser → Nat
  | 0, _, _ => 1
  | n + 1, k, p => expressionCalls (nested n) (activeCalls n) k p

/-- The calls for a variable declaration, after its first word. -/
def variableDeclarationCalls (p : Parser) : Nat :=
  let p := p.expect .identifier .expectVariableName
  let p := p.note (.text p.previous.text)
  if p.sees .equal then activeCalls maxNesting .assignment p.advance else 0

/-- The calls for a declaration. -/
def declarationCalls (p : Parser) : Nat :=
  if p.sees (.keyword .varWord) then variableDeclarationCalls p.advance
  else if p.sees (.keyword .printWord) then activeCalls maxNesting .assignment p.advance
  else activeCalls maxNesting .assignment p

/-- The calls for the declarations up to the end of the source. -/
def declarationsCalls (p : Parser) : Nat :=
  if _more : p.current.kind = .finish then 0
  else max p.declarationCalls (declarationsCalls p.declaration.2)
termination_by p.unread.length
decreasing_by
  have := unread_pos _more
  have := p.length_declaration
  omega

/-! ## Calls and nesting -/

variable {inner : Nested} {calls : Precedence → Parser → Nat}

/-- Where no operator is in view, nothing is called. -/
theorem infixesCalls_of_none {k : Precedence} {p : Parser}
    (seen : BinaryOp.ofKind? p.current.kind = none) : infixesCalls inner calls k p = 0 := by
  rw [infixesCalls, seen]

/-- An operator in view calls for its right operand, and then for those that follow. -/
theorem infixesCalls_of_some {k : Precedence} {p : Parser} {op : BinaryOp}
    (seen : BinaryOp.ofKind? p.current.kind = some op) :
    infixesCalls inner calls k p = if k.rank ≤ op.precedence.rank then
      max (calls op.precedence.next p.advance)
        (infixesCalls inner calls k (inner.read op.precedence.next p.advance).2)
    else 0 := by
  rw [infixesCalls, seen]

/-- Operators nest as deep as their left operand and one more than their right ones. -/
theorem nesting_infixes (agree : ∀ k p, (inner.read k p).1.nesting = calls k p) (k : Precedence)
    (left : Expr) (p : Parser) :
    (infixes inner k left p).1.nesting = max left.nesting (1 + infixesCalls inner calls k p) := by
  fun_induction infixes inner k left p with
  | case1 left p seen =>
    have := left.nesting_pos
    rw [infixesCalls_of_none seen]
    dsimp only
    omega
  | case2 left p op seen tight right ih =>
    dsimp only [right] at ih ⊢
    rw [ih, Expr.nesting, agree, infixesCalls_of_some seen, if_pos tight]
    omega
  | case3 left p op seen loose =>
    have := left.nesting_pos
    rw [infixesCalls_of_some seen, if_neg loose]
    dsimp only
    omega

/-- What starts with a name nests one deeper than the value that is assigned, if one is. -/
theorem nesting_name (agree : ∀ k p, (inner.read k p).1.nesting = calls k p) (k : Precedence)
    {t : Token} (kind : t.kind = .identifier) (p : Parser) :
    (name inner k t p).1.nesting = 1 + operandCalls calls k t p := by
  unfold name operandCalls
  rw [kind]
  dsimp only
  split
  · exact congrArg (1 + ·) (agree ..)
  · rfl

/-- An operand nests one deeper than what was called for it. -/
theorem nesting_operand? (agree : ∀ k p, (inner.read k p).1.nesting = calls k p) (k : Precedence)
    (t : Token) (p : Parser) {e : Expr} (h : (operand? inner k t p).1 = some e) :
    e.nesting = 1 + operandCalls calls k t p := by
  unfold operand? at h
  split at h <;> cases h <;> rename_i kind
  case h_4 => exact nesting_name agree k kind p
  all_goals unfold operandCalls; rw [kind]
  case h_1 | h_2 | h_3 => exact congrArg (1 + ·) (agree ..)
  case h_6 =>
    unfold number
    split <;> rfl
  all_goals rfl

/-- Where there is no operand, nothing was called for it. -/
theorem operandCalls_of_none (inner : Nested) (k : Precedence) (t : Token) (p : Parser)
    (h : (operand? inner k t p).1 = none) : operandCalls calls k t p = 0 := by
  unfold operand? at h
  split at h <;> cases h
  unfold operandCalls
  split <;> first | rfl | contradiction

/-- An expression nests as deep as the calls that read it. -/
theorem nesting_expression (agree : ∀ k p, (inner.read k p).1.nesting = calls k p)
    (k : Precedence) (p : Parser) :
    (expression inner k p).1.nesting = expressionCalls inner calls k p := by
  unfold expression expressionCalls
  cases eq : operand? inner k p.current p.advance with
  | mk read q =>
    cases read with
    | none =>
      rw [operandCalls_of_none inner k p.current p.advance (by rw [eq])]
      rfl
    | some left =>
      have first : left.nesting = 1 + operandCalls calls k p.current p.advance :=
        nesting_operand? agree k p.current p.advance (by rw [eq])
      have rest := nesting_infixes agree k left q
      dsimp only
      split
      · dsimp only
        rw [rest]
        omega
      · rw [rest]
        omega

/-- **The tree nests as deep as the calls that read it.** -/
theorem nesting_read (n : Nat) (k : Precedence) (p : Parser) :
    ((nested n).read k p).1.nesting = activeCalls n k p := by
  induction n generalizing k p with
  | zero => rfl
  | succ n ih => exact nesting_expression ih k p

/-- A variable declaration nests as deep as the calls that read it. -/
theorem nesting_variableDeclaration (p : Parser) :
    p.variableDeclaration.1.nesting = p.variableDeclarationCalls := by
  unfold variableDeclaration variableDeclarationCalls
  dsimp only
  split
  · exact nesting_read ..
  · rfl

/-- A declaration nests as deep as the calls that read it. -/
theorem nesting_declaration (p : Parser) : p.declaration.1.nesting = p.declarationCalls := by
  unfold declaration declarationCalls sees
  dsimp only
  split <;> rename_i word
  · rw [word]
    exact nesting_variableDeclaration p.advance
  · rw [word]
    exact nesting_read ..
  · rw [if_neg (by simpa using ‹_›), if_neg (by simpa using ‹_›)]
    exact nesting_read ..

/-- No declaration nests deeper than the calls that read all of them. -/
theorem nesting_le_declarationsCalls (p : Parser) :
    ∀ d ∈ p.declarations.1, d.nesting ≤ p.declarationsCalls := by
  fun_induction declarations p with
  | case1 => exact List.forall_mem_nil _
  | case2 p more first others ih =>
    rw [declarationsCalls, dif_neg more, ← nesting_declaration]
    intro d mem
    rcases List.mem_cons.1 mem with rfl | mem
    · exact Nat.le_max_left ..
    · exact Nat.le_trans (ih d mem) (Nat.le_max_right ..)

/-- The calls go no deeper than the declarations nest. -/
theorem declarationsCalls_le {n : Nat} (p : Parser) (le : ∀ d ∈ p.declarations.1, d.nesting ≤ n) :
    p.declarationsCalls ≤ n := by
  fun_induction declarations p with
  | case1 p more =>
    rw [declarationsCalls, dif_pos more]
    exact Nat.zero_le n
  | case2 p more first others ih =>
    rw [declarationsCalls, dif_neg more, ← nesting_declaration]
    have rest := ih fun d mem => le d (List.mem_cons_of_mem _ mem)
    exact Nat.max_le.2 ⟨le _ (List.mem_cons_self ..), rest⟩

end Parser

/-- The greatest number of expressions that are being read at once while a source is
compiled. -/
def compileCalls (source : String) : Nat :=
  (Parser.ofStream (.scan source.toList)).declarationsCalls

/-! ## Main statement -/

/-- **The stack never holds more values than the parser had calls active,** or one where
it had none, and the parser never has more than 256. So a stack with that much room never
overflows, whatever the pool of the machine. -/
theorem stack_bounded_by_calls {source : String} {pool : StringPool} {chunk : Chunk} {m : Machine}
    (compiled : (compile source pool).1 = .ok chunk) (empty : m.stack.values = [])
    (room : 256 ≤ m.stack.limit) :
    (∀ after ∈ Machine.passed chunk chunk.slots (m.begun chunk),
      after.stack.size ≤ max 1 (compileCalls source)) ∧
    max 1 (compileCalls source) ≤ 256 ∧
    ∀ limit line, ((m.begun chunk).run chunk).1 ≠ .failed (.stackOverflow limit) line := by
  obtain ⟨p, -, deep, rfl, hc, -⟩ := compile_eq_ok
    (show compile source pool = (.ok chunk, (compile source pool).2) from Prod.ext compiled rfl)
  let p := (ParsedSource.ofSource source).program
  have holds : List.Forall₂ Slot.Holds chunk.slots p.code := hc ▸ p.forall₂_holds_slots _
  have nests : ∀ d ∈ p.declarations, d.nesting ≤ compileCalls source :=
    Parser.nesting_le_declarationsCalls (Parser.ofStream (.scan source.toList))
  have few : compileCalls source ≤ 256 := Parser.declarationsCalls_le _ deep
  have balanced : Machine.Balanced (max 1 (compileCalls source)) 0 p.code 0 :=
    p.balanced_code (by omega) fun d mem => Nat.le_trans (nests d mem) (Nat.le_max_right ..)
  refine ⟨fun after mem => ?_, by omega, fun limit line overflow => ?_⟩
  · obtain ⟨k, le, above⟩ := Machine.above_of_mem_passed (m := m.begun chunk) holds balanced
      ⟨[], rfl, empty⟩ (Nat.zero_le _) mem
    have length := above.length
    rw [Stack.size, length]
    exact le
  · obtain ⟨ending, after, run, stands⟩ :=
      Machine.exists_stands_run (m := m.begun chunk) holds balanced
    obtain rfl : ending = .failed (.stackOverflow limit) line := by rw [← overflow, run]
    cases stands with
    | failed _ _ cause =>
      cases cause with
      | dynamic dynamic => cases dynamic
      | overflow lt =>
        have : (m.begun chunk).stack = m.stack := rfl
        rw [this, empty, List.length_nil] at lt
        omega

/-- A new machine never holds more values than calls were active for three operands. -/
theorem stack_bounded_by_calls_new :
    ∃ chunk, (compile "print 1 + 2 * (3 - 4);" .empty).1 = .ok chunk ∧
      let m := Machine.create ⟨256, false⟩ .unlimited .unlimited
      m.stack.values = [] ∧ 256 ≤ m.stack.limit ∧
        (∀ after ∈ Machine.passed chunk chunk.slots (m.begun chunk),
          after.stack.size ≤ max 1 (compileCalls "print 1 + 2 * (3 - 4);")) ∧
        ∀ limit line, ((m.begun chunk).run chunk).1 ≠ .failed (.stackOverflow limit) line := by
  have compiled : (compile "print 1 + 2 * (3 - 4);" .empty).1 = .ok _ :=
    compile_eq_ok_iff.2 ⟨by decide +kernel, rfl⟩
  have bounded := stack_bounded_by_calls (m := .create ⟨256, false⟩ .unlimited .unlimited)
    compiled rfl (Nat.le_refl 256)
  exact ⟨_, compiled, rfl, Nat.le_refl 256, bounded.1, bounded.2.2⟩

end StackScript
