/-
# Compiled code is well formed and neutral

The code of a program is balanced: an expression puts its value on whatever is on the
stack, a declaration leaves the stack as it was. With `h` working values on the stack it
needs room for `h + e.nesting` of them, so the nesting of a program bounds its stack. And
every operand of the code names a constant of the right kind, however many strings were
put into the pool since.

So a chunk that was compiled from a source can be run on any stack and with any globals:
no run of it fails because of its code, and no run touches what was on the stack before.
-/
import StackScript.Proofs.Acceptance
import StackScript.Proofs.Machine.Balance

namespace StackScript

open Machine (Balanced)

/-! ## Balance of the code -/

/-- The operations of an operator leave one value of two. -/
theorem BinaryOp.balanced_code (op : BinaryOp) (line : Nat) {top h : Nat} (le : h + 1 ≤ top) :
    Balanced top (h + 2) (op.code.map (⟨·, line⟩)) (h + 1) := by
  have negated : Balanced top (h + 1) [⟨.not, line⟩] (h + 1) := .one rfl rfl le (.nil _)
  cases op with
  | notEqual | greaterEqual | lessEqual => refine .one ?_ ?_ le negated <;> rfl
  | _ => refine .one ?_ ?_ le (.nil _) <;> rfl

/-- The code of an expression leaves one value more on the stack. -/
theorem Expr.balanced_code (e : Expr) (next : Nat) {top h : Nat} (le : h + e.nesting ≤ top) :
    Balanced top h (e.code next) (h + 1) := by
  have room : h + 1 ≤ top := Nat.le_trans (Nat.add_le_add_left e.nesting_pos h) le
  induction e generalizing next h with
  | literal | nil | global => exact .single (Nat.zero_le _) room nofun
  | bool b line =>
    cases b with
    | false => exact .single (Nat.zero_le _) room nofun
    | true => exact .single (Nat.zero_le _) room nofun
  | assign name line value ih =>
    rw [nesting] at le
    exact (ih _ (by omega) room).append (.one rfl rfl room (.nil _))
  | group inner line ih =>
    rw [nesting] at le
    exact ih _ (by omega) room
  | unary op operand ih =>
    rw [nesting] at le
    refine (ih _ (by omega) room).append ?_
    cases op with
    | negate => exact .one rfl rfl room (.nil _)
    | not => exact .one rfl rfl room (.nil _)
  | binary op left right ihl ihr =>
    rw [nesting] at le
    have := right.nesting_pos
    have first : Balanced top h (left.code next) (h + 1) := ihl _ (by omega) room
    have second : Balanced top (h + 1) (right.code (next + left.constants.length)) (h + 2) :=
      ihr _ (by omega) (by omega)
    exact (first.append second).append (op.balanced_code _ room)

/-- The code of a declaration leaves the stack as it was. -/
theorem Declaration.balanced_code (d : Declaration) (next : Nat) {top : Nat} (pos : 0 < top)
    (le : d.nesting ≤ top) : Balanced top 0 (d.code next) 0 := by
  cases d with
  | define name nameLine initial endLine =>
    cases initial with
    | none =>
      exact .cons (Nat.zero_le _) pos nofun (.single (Nat.le_refl _) (Nat.zero_le _) nofun)
    | some value =>
      exact (value.balanced_code _ (by simpa [nesting] using le)).append
        (.single (Nat.le_refl _) (Nat.zero_le _) nofun)
  | print value | expression value =>
    exact (value.balanced_code _ (by simpa [nesting] using le)).append
      (.single (Nat.le_refl _) (Nat.zero_le _) nofun)

/-- Some declarations leave nothing, and need no more room than they nest. -/
theorem Declaration.balanced_codeOfList (ds : List Declaration) (next : Nat) {top : Nat}
    (pos : 0 < top) (le : ∀ d ∈ ds, d.nesting ≤ top) : Balanced top 0 (codeOfList next ds) 0 := by
  induction ds generalizing next with
  | nil => exact .nil 0
  | cons d ds ih =>
    exact (d.balanced_code next pos (le d (List.mem_cons_self ..))).append
      (ih _ fun d' mem => le d' (List.mem_cons_of_mem d mem))

/-- A program leaves nothing, and needs no more room than its declarations nest. -/
theorem Program.balanced_code (p : Program) {top : Nat} (pos : 0 < top)
    (le : ∀ d ∈ p.declarations, d.nesting ≤ top) : Balanced top 0 p.code 0 :=
  (Declaration.balanced_codeOfList p.declarations 0 pos le).append
    (.cons (Nat.le_refl _) (Nat.zero_le _) (fun _ => rfl) (.nil 0))

/-! ## Operands of the code -/

section Resolves

variable {constants : List Value} {pool : StringPool} {next : Nat}

/-- Every operand of some code names a constant of the right kind. -/
def ResolvesAll (constants : List Value) (pool : StringPool) (code : List TracedInstruction) :
    Prop :=
  ∀ i ∈ code, i.instruction.Resolves constants pool

/-- Two pieces of code have their constants if each has. -/
theorem ResolvesAll.append {code more : List TracedInstruction}
    (first : ResolvesAll constants pool code) (second : ResolvesAll constants pool more) :
    ResolvesAll constants pool (code ++ more) := by
  intro i mem
  rcases List.mem_append.1 mem with mem | mem
  · exact first i mem
  · exact second i mem

/-- Code has its constants if its first instruction has, and the rest. -/
theorem ResolvesAll.cons {i : TracedInstruction} {code : List TracedInstruction}
    (resolves : i.instruction.Resolves constants pool) (rest : ResolvesAll constants pool code) :
    ResolvesAll constants pool (i :: code) :=
  List.forall_mem_cons.2 ⟨resolves, rest⟩

/-- An instruction that has its constant is code that has its constants. -/
theorem ResolvesAll.single {i : TracedInstruction}
    (resolves : i.instruction.Resolves constants pool) :
    ResolvesAll constants pool [i] :=
  .cons resolves nofun

/-- The number of a linked constant is that of a value. -/
theorem Linked.index_lt {l : Literal} {literals : List Literal}
    (linked : Linked constants pool next (l :: literals)) :
    (UInt8.ofNat next).toNat < constants.length := by
  obtain ⟨v, named, -⟩ := linked.operand
  exact (List.getElem?_eq_some_iff.1 named).1

/-- A linked name is a live handle. -/
theorem Linked.exists_isLive {name : List Char} {literals : List Literal}
    (linked : Linked constants pool next (.text name :: literals)) :
    ∃ h, constants[(UInt8.ofNat next).toNat]? = some (.object h) ∧ pool.isLive h := by
  obtain ⟨h, s, named, live, -⟩ := linked.name
  exact ⟨h, named, Option.isSome_iff_exists.2 ⟨s, live⟩⟩

/-- The operations of an operator need no constants. -/
theorem BinaryOp.resolvesAll_code (op : BinaryOp) (line : Nat) :
    ResolvesAll constants pool (op.code.map (⟨·, line⟩)) := by
  cases op with
  | notEqual | greaterEqual | lessEqual => refine .cons ?_ (.single ?_) <;> trivial
  | _ => refine .single ?_; trivial

/-- The code of an expression has its constants where they are linked. -/
theorem Expr.resolvesAll_code (e : Expr) (linked : Linked constants pool next e.constants) :
    ResolvesAll constants pool (e.code next) := by
  induction e generalizing next with
  | literal => exact .single linked.index_lt
  | nil => exact .single trivial
  | bool b line => cases b <;> exact .single trivial
  | global name line => exact .single linked.exists_isLive
  | assign name line value ih => exact (ih linked.tail).append (.single linked.exists_isLive)
  | group inner line ih => exact ih linked
  | unary op operand ih =>
    refine (ih linked).append (.single ?_)
    cases op <;> trivial
  | binary op left right ihl ihr =>
    exact ((ihl linked.left).append (ihr linked.right)).append (op.resolvesAll_code _)

/-- The code of a declaration has its constants where they are linked. -/
theorem Declaration.resolvesAll_code (d : Declaration)
    (linked : Linked constants pool next d.constants) :
    ResolvesAll constants pool (d.code next) := by
  cases d with
  | define name nameLine initial endLine =>
    cases initial with
    | none =>
      refine .cons ?_ (.single linked.exists_isLive)
      trivial
    | some value => exact (value.resolvesAll_code linked.tail).append (.single linked.exists_isLive)
  | print value | expression value => exact (value.resolvesAll_code linked).append (.single trivial)

/-- The code of some declarations has its constants where they are linked. -/
theorem Declaration.resolvesAll_codeOfList (ds : List Declaration)
    (linked : Linked constants pool next (ds.flatMap Declaration.constants)) :
    ResolvesAll constants pool (codeOfList next ds) := by
  induction ds generalizing next with
  | nil => nofun
  | cons d ds ih =>
    rw [List.flatMap_cons] at linked
    exact (d.resolvesAll_code linked.left).append (ih linked.right)

/-- The code of a program has its constants where they are linked. -/
theorem Program.resolvesAll_code (p : Program)
    (linked : Linked constants pool 0 (p.declarations.flatMap Declaration.constants)) :
    ResolvesAll constants pool p.code :=
  (Declaration.resolvesAll_codeOfList p.declarations linked).append (.single trivial)

end Resolves

/-! ## Main statement -/

/-- The chunk of an accepted source is that of a program within the limits, with its constants. -/
theorem compile_eq_ok {source : String} {pool pool' : StringPool} {chunk : Chunk}
    (compiled : compile source pool = (.ok chunk, pool')) :
    ∃ p : Program, p.Derives (.scan source.toList) ∧
      (∀ d ∈ p.declarations, d.nesting ≤ Parser.maxNesting) ∧
      (ParsedSource.ofSource source).program = p ∧ chunk = p.chunk chunk.constants ∧
      Linked chunk.constants pool' 0 (p.declarations.flatMap Declaration.constants) := by
  have accepted : (compile source pool).1 = .ok chunk := congrArg Prod.fst compiled
  obtain ⟨quiet, rfl⟩ := compile_eq_ok_iff.1 accepted
  obtain ⟨derives, deep, -, few, constants⟩ :=
    ParsedSource.derives_of_diagnostics_eq_nil (TokenStream.kind_ne_finish 1 source.toList) quiet
  refine ⟨_, derives, deep, rfl, rfl, ?_⟩
  have grown : pool' = (Literal.linkAll pool (ParsedSource.ofSource source).constants).2 := by
    have := congrArg Prod.snd compiled
    unfold compile at this
    dsimp only at this
    rw [quiet] at this
    exact this.symm
  rw [grown]
  exact constants ▸ linked_linkAll pool few

/-- **Compiled code is well formed and neutral,** whatever the globals, the stack and its
limit are, and whatever strings came after those of the source. No machine of the run has
lost a value from before it; at a good end they are all that is left, and a fault, never
one in the code, leaves nothing. -/
theorem interpretChunk_neutral {source : String} {pool pool' : StringPool} {chunk : Chunk}
    {m : Machine} (compiled : compile source pool = (.ok chunk, pool'))
    (grown : pool'.Grows m.pool) :
    (∀ after ∈ Machine.passed chunk chunk.slots (m.begun chunk),
      ∃ working, after.stack.values = working ++ m.stack.values) ∧
    ((∃ after, (m.begun chunk).run chunk = (.finished, after) ∧
        (m.interpretChunk chunk).1 = .ok ∧ (m.interpretChunk chunk).2.stack = m.stack) ∨
      ∃ fault line after, (m.begun chunk).run chunk = (.failed fault line, after) ∧
        (∀ c, fault ≠ .code c) ∧ (m.interpretChunk chunk).1 = .runtimeError ∧
        (m.interpretChunk chunk).2.stack.values = []) := by
  obtain ⟨p, -, deep, -, hp, linked⟩ := compile_eq_ok compiled
  have holds : List.Forall₂ Slot.Holds chunk.slots p.code := hp ▸ p.forall₂_holds_slots _
  have balanced : Balanced Parser.maxNesting 0 p.code 0 :=
    p.balanced_code (Nat.zero_lt_succ _) deep
  have resolves : ResolvesAll chunk.constants m.pool p.code :=
    p.resolvesAll_code (linked.grow grown)
  refine ⟨fun after mem => ?_, ?_⟩
  · obtain ⟨k, -, working, -, values⟩ :=
      Machine.above_of_mem_passed holds balanced ⟨[], rfl, rfl⟩ (Nat.zero_le _) mem
    exact ⟨working, values⟩
  · obtain ⟨ending, after, run, stands⟩ :=
      Machine.exists_stands_run (m := m.begun chunk) holds balanced
    cases stands with
    | finished values limit =>
      refine .inl ⟨after, run, ?_, ?_⟩
      · rw [Machine.interpretChunk_of_finished run]
      · rw [Machine.interpretChunk_of_finished run]
        rcases after with ⟨_, ⟨_, _, _⟩, _, _, _, _, _⟩
        obtain rfl := values
        obtain rfl := limit
        rfl
    | failed line _ cause =>
      refine .inr ⟨_, line, after, run, ?_, ?_, ?_⟩
      · rintro c rfl
        cases cause with
        | dynamic dynamic => cases dynamic
        | operand _ mem dead => exact dead (resolves _ mem)
      · rw [Machine.interpretChunk_of_failed run]
      · rw [Machine.interpretChunk_of_failed run]
        rfl

/-- A sum is printed on a stack that holds a value, with a string that the source does not
have: the value is still there, and nothing else. -/
theorem interpretChunk_neutral_sum :
    ∃ chunk pool, compile "var a = 1; print a + 2;" .empty = (.ok chunk, pool) ∧
      ∃ m : Machine, pool.Grows m.pool ∧ pool.size < m.pool.size ∧ m.stack.values = [.int 7] ∧
        (m.interpretChunk chunk).1 = .ok ∧ (m.interpretChunk chunk).2.stack.values = [.int 7] := by
  have compiled : compile "var a = 1; print a + 2;" .empty =
      (.ok _, (compile "var a = 1; print a + 2;" .empty).2) :=
    Prod.ext (compile_eq_ok_iff.2 ⟨by decide +kernel, rfl⟩) rfl
  let m : Machine :=
    { Machine.create ⟨256, false⟩ .unlimited .unlimited with
      stack := ⟨[.int 7], 3, by decide⟩
      pool := ((compile "var a = 1; print a + 2;" .empty).2.intern [0x68, 0x69]).2 }
  have grown : (compile "var a = 1; print a + 2;" .empty).2.Grows m.pool :=
    StringPool.grows_intern _ [0x68, 0x69]
  refine ⟨_, _, compiled, m, grown, by decide +kernel, rfl, by decide +kernel, ?_⟩
  obtain ⟨-, ⟨-, -, -, same⟩ | ⟨-, -, -, -, -, failed, -⟩⟩ := interpretChunk_neutral compiled grown
  · rw [same]
  · exact absurd failed (by decide +kernel)

end StackScript
