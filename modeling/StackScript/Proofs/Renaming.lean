/-
# Values and code that differ in handles only

Which handle a string has depends on what came into the pool before it, and so does what a
constant is. Two values, each with its pool, are alike if they stand for the same
(`Value.Alike`). No operation on values can tell them apart:

| operation | on alike values |
| --- | --- |
| arithmetic, order, negation | the same fault, or alike results (`Matches`) |
| `isFalsey`, `same`, `text` | the same answer |

Instructions are alike if they do the same to alike constants, under whatever numbers
these stand. So the code of a tree is alike to that of the same tree, compiled among other
constants, with other strings in the pool and further down in its source
(`Program.alike_code`).
-/
import StackScript.Proofs.Lines
import StackScript.Proofs.Machine.Balance
import StackScript.Proofs.Simulation.Values

namespace StackScript

/-- Two operations have the same fault, or related results. -/
inductive Matches {α β : Type} (R : α → β → Prop) :
    Except RuntimeFault α → Except RuntimeFault β → Prop where
  | ok {a : α} {b : β} : R a b → Matches R (.ok a) (.ok b)
  | error (fault : RuntimeFault) : Matches R (.error fault) (.error fault)

/-! ## Values -/

/-- Two values, each with its pool, stand for the same. -/
def Value.Alike (pool pool' : StringPool) (v v' : Value) : Prop :=
  ∃ d, v.content? pool = some d ∧ v'.content? pool' = some d

section Values

variable {pool pool' after after' : StringPool} {u u' v v' : Value} {d : Datum}

/-- Results that stand for the same match. -/
theorem Matches.of_represents {x x' : Except RuntimeFault Value} {r : Except RuntimeFault Datum}
    (h : Represents pool x r) (h' : Represents pool' x' r) :
    Matches (Value.Alike pool pool') x x' := by
  cases h with
  | ok content =>
    cases h' with
    | ok content' => exact .ok ⟨_, content, content'⟩
  | error fault =>
    cases h'
    exact .error fault

namespace Value.Alike

/-- Values that are alike stay alike when strings are added. -/
theorem grow (alike : Value.Alike pool pool' v v') (grows : pool.Grows after)
    (grows' : pool'.Grows after') : Value.Alike after after' v v' := by
  obtain ⟨d, content, content'⟩ := alike
  exact ⟨d, content?_of_grows grows content, content?_of_grows grows' content'⟩

/-- Values that are alike have the same text. -/
theorem text_eq (alike : Value.Alike pool pool' v v') : v'.text pool' = v.text pool := by
  obtain ⟨d, content, content'⟩ := alike
  rw [text_eq_toText content, text_eq_toText content']

/-- Values that are alike are both true or both false. -/
theorem isFalsey (alike : Value.Alike pool pool' v v') :
    Matches (Value.Alike pool pool') (.ok (.bool v.isFalsey)) (.ok (.bool v'.isFalsey)) := by
  obtain ⟨d, content, content'⟩ := alike
  exact .of_represents (represents_isFalsey content) (represents_isFalsey content')

/-- Values that are alike have negatives that are. -/
theorem negate (alike : Value.Alike pool pool' v v') :
    Matches (Value.Alike pool pool') v.negate v'.negate := by
  obtain ⟨d, content, content'⟩ := alike
  exact .of_represents (represents_negate content) (represents_negate content')

/-- Values that are alike are the same to values that are alike. -/
theorem same (hu : Value.Alike pool pool' u u') (hv : Value.Alike pool pool' v v') :
    Matches (Value.Alike pool pool') (.ok (.bool (u.same v))) (.ok (.bool (u'.same v'))) := by
  obtain ⟨a, hu, hu'⟩ := hu
  obtain ⟨b, hv, hv'⟩ := hv
  rw [same_eq_same hu hv, same_eq_same hu' hv']
  exact .ok ⟨_, rfl, rfl⟩

/-- Values that are alike come in the same order. -/
theorem order (op : OrderOp) (hu : Value.Alike pool pool' u u') (hv : Value.Alike pool pool' v v') :
    Matches (Value.Alike pool pool') (Value.order op u v) (Value.order op u' v') := by
  obtain ⟨a, hu, hu'⟩ := hu
  obtain ⟨b, hv, hv'⟩ := hv
  cases op with
  | greater => exact .of_represents (represents_greater hu hv) (represents_greater hu' hv')
  | less => exact .of_represents (represents_less hu hv) (represents_less hu' hv')

/-- Values that are alike give alike results in arithmetic. -/
theorem arithmetic (op : ArithmeticOp) (hu : Value.Alike pool pool' u u')
    (hv : Value.Alike pool pool' v v') :
    Matches (Value.Alike pool pool') (Value.arithmetic op u v) (Value.arithmetic op u' v') := by
  obtain ⟨a, hu, hu'⟩ := hu
  obtain ⟨b, hv, hv'⟩ := hv
  cases op with
  | subtract => exact .of_represents (represents_subtract hu hv) (represents_subtract hu' hv')
  | multiply => exact .of_represents (represents_multiply hu hv) (represents_multiply hu' hv')
  | divide => exact .of_represents (represents_divide hu hv) (represents_divide hu' hv')
  | add =>
    by_cases texts : ∃ s t, a = .text s ∧ b = .text t
    · obtain ⟨s, t, rfl, rfl⟩ := texts
      obtain ⟨_, _, rfl, -, -⟩ := eq_object_of_content? hu
      obtain ⟨_, _, rfl, -, -⟩ := eq_object_of_content? hu'
      exact .error _
    · have numbers (s t : List UInt8) (both : a = .text s ∧ b = .text t) : False :=
        texts ⟨s, t, both⟩
      exact .of_represents (represents_add hu hv numbers) (represents_add hu' hv' numbers)

end Value.Alike
end Values

/-! ## Instructions -/

/-- Constants, with the pool in which their references are looked up. -/
structure Constants where
  values : List Value
  pool : StringPool

/-- An operand names a constant that stands for `d`. -/
def Constants.Reads (constants : Constants) (k : UInt8) (d : Datum) : Prop :=
  ∃ v, constants.values[k.toNat]? = some v ∧ v.content? constants.pool = some d

/-- Two instructions are the same but for the numbers of their constants. -/
inductive Instruction.Alike (a b : Constants) : Instruction → Instruction → Prop where
  | plain {i : Instruction} : i.operand? = none → Alike a b i i
  | constant {k k' : UInt8} {d : Datum} : a.Reads k d → b.Reads k' d →
      Alike a b (.constant k) (.constant k')
  | getGlobal {k k' : UInt8} {name : List UInt8} : a.Reads k (.text name) →
      b.Reads k' (.text name) → Alike a b (.getGlobal k) (.getGlobal k')
  | defineGlobal {k k' : UInt8} {name : List UInt8} : a.Reads k (.text name) →
      b.Reads k' (.text name) → Alike a b (.defineGlobal k) (.defineGlobal k')
  | setGlobal {k k' : UInt8} {name : List UInt8} : a.Reads k (.text name) →
      b.Reads k' (.text name) → Alike a b (.setGlobal k) (.setGlobal k')

/-- Two instructions are alike, the second one `n` lines further down. -/
structure TracedInstruction.Alike (n : Nat) (a b : Constants) (i i' : TracedInstruction) :
    Prop where
  instruction : i.instruction.Alike a b i'.instruction
  line : i'.line = i.line + n

section Growing

variable {values values' : List Value} {pool pool' after after' : StringPool} {k : UInt8}
  {d : Datum} {n : Nat}

/-- A constant that is read is still read when strings are added. -/
theorem Constants.Reads.grow (reads : Constants.Reads ⟨values, pool⟩ k d)
    (grows : pool.Grows after) : Constants.Reads ⟨values, after⟩ k d := by
  obtain ⟨v, named, content⟩ := reads
  exact ⟨v, named, Value.content?_of_grows grows content⟩

/-- Strings that come later do not matter. -/
theorem Instruction.Alike.grow {i i' : Instruction}
    (alike : i.Alike ⟨values, pool⟩ ⟨values', pool'⟩ i') (grows : pool.Grows after)
    (grows' : pool'.Grows after') : i.Alike ⟨values, after⟩ ⟨values', after'⟩ i' := by
  cases alike with
  | plain whole => exact .plain whole
  | constant h h' => exact .constant (h.grow grows) (h'.grow grows')
  | getGlobal h h' => exact .getGlobal (h.grow grows) (h'.grow grows')
  | defineGlobal h h' => exact .defineGlobal (h.grow grows) (h'.grow grows')
  | setGlobal h h' => exact .setGlobal (h.grow grows) (h'.grow grows')

/-- Instructions that are alike stay alike when strings are added. -/
theorem TracedInstruction.Alike.grow {i i' : TracedInstruction}
    (alike : i.Alike n ⟨values, pool⟩ ⟨values', pool'⟩ i') (grows : pool.Grows after)
    (grows' : pool'.Grows after') : i.Alike n ⟨values, after⟩ ⟨values', after'⟩ i' :=
  ⟨alike.instruction.grow grows grows', alike.line⟩

end Growing

/-! ## The code of a tree -/

section Code

variable {a b : Constants} {next next' n line : Nat} {i : Instruction}

/-- An instruction without operand is alike on the shifted line. -/
theorem alike_single (whole : i.operand? = none) :
    List.Forall₂ (TracedInstruction.Alike n a b) [⟨i, line⟩] [⟨i, line + n⟩] :=
  .cons ⟨.plain whole, rfl⟩ .nil

/-- The operation of an operator with one operand has no operand byte. -/
theorem UnaryOp.operand?_code (op : UnaryOp) : op.code.operand? = none := by
  cases op <;> rfl

/-- The operations of an operator are alike on shifted lines. -/
theorem BinaryOp.alike_code (op : BinaryOp) :
    List.Forall₂ (TracedInstruction.Alike n a b) (op.code.map (⟨·, line⟩))
      (op.code.map (⟨·, line + n⟩)) := by
  cases op with
  | notEqual | greaterEqual | lessEqual => exact .cons ⟨.plain rfl, rfl⟩ (alike_single rfl)
  | _ => exact alike_single rfl

/-- The code of an expression does not depend on where it is. -/
theorem Expr.alike_code (e : Expr) (linked : Linked a.values a.pool next e.constants)
    (linked' : Linked b.values b.pool next' e.constants) :
    List.Forall₂ (TracedInstruction.Alike n a b) (e.code next) ((e.shift n).code next') := by
  induction e generalizing next next' with
  | literal value line =>
    exact .cons ⟨.constant linked.operand linked'.operand, rfl⟩ .nil
  | nil line => exact alike_single rfl
  | bool b line => cases b <;> exact alike_single rfl
  | global name line => exact .cons ⟨.getGlobal linked.operand linked'.operand, rfl⟩ .nil
  | assign name line value ih =>
    have operation : TracedInstruction.Alike n a b ⟨.setGlobal (.ofNat next), value.lastLine⟩
        ⟨.setGlobal (.ofNat next'), (value.shift n).lastLine⟩ :=
      ⟨.setGlobal linked.operand linked'.operand, value.lastLine_shift⟩
    exact List.rel_append (ih linked.tail linked'.tail) (.cons operation .nil)
  | group inner line ih => exact ih linked linked'
  | unary op operand ih =>
    rw [shift, code, code, lastLine_shift]
    exact List.rel_append (ih linked linked') (alike_single op.operand?_code)
  | binary op left right ihl ihr =>
    rw [shift, code, code, lastLine_shift, constants_shift]
    exact List.rel_append (List.rel_append (ihl linked.left linked'.left)
      (ihr linked.right linked'.right)) op.alike_code

/-- The code of a declaration is alike, whatever its constants are numbered from. -/
theorem Declaration.alike_code (d : Declaration) (linked : Linked a.values a.pool next d.constants)
    (linked' : Linked b.values b.pool next' d.constants) :
    List.Forall₂ (TracedInstruction.Alike n a b) (d.code next) ((d.shift n).code next') := by
  cases d with
  | define name nameLine initial endLine =>
    have operation : List.Forall₂ (TracedInstruction.Alike n a b)
        [⟨.defineGlobal (.ofNat next), endLine⟩] [⟨.defineGlobal (.ofNat next'), endLine + n⟩] :=
      .cons ⟨.defineGlobal linked.operand linked'.operand, rfl⟩ .nil
    cases initial with
    | none => exact .cons ⟨.plain rfl, rfl⟩ operation
    | some value => exact List.rel_append (value.alike_code linked.tail linked'.tail) operation
  | print value | expression value =>
    exact List.rel_append (value.alike_code linked linked') (alike_single rfl)

/-- The code of some declarations is alike, whatever their constants are numbered from. -/
theorem Declaration.alike_codeOfList (ds : List Declaration)
    (linked : Linked a.values a.pool next (ds.flatMap constants))
    (linked' : Linked b.values b.pool next' (ds.flatMap constants)) :
    List.Forall₂ (TracedInstruction.Alike n a b) (codeOfList next ds)
      (codeOfList next' (ds.map (shift n))) := by
  induction ds generalizing next next' with
  | nil => exact .nil
  | cons d ds ih =>
    rw [List.flatMap_cons] at linked linked'
    rw [List.map_cons, codeOfList, codeOfList, constants_shift]
    exact List.rel_append (d.alike_code linked.left linked'.left)
      (ih linked.right linked'.right)

/-- **The code of a program** does not depend on the pool that it was compiled with. -/
theorem Program.alike_code (p : Program)
    (linked : Linked a.values a.pool 0 (p.declarations.flatMap Declaration.constants))
    (linked' : Linked b.values b.pool 0 (p.declarations.flatMap Declaration.constants)) :
    List.Forall₂ (TracedInstruction.Alike 0 a b) p.code p.code := by
  have same : p.declarations.map (Declaration.shift 0) = p.declarations :=
    congrArg Program.declarations p.shift_zero
  have code := Declaration.alike_codeOfList (n := 0) p.declarations linked linked'
  rw [same] at code
  exact List.rel_append code (alike_single rfl)

end Code
end StackScript
