/-
# What all evaluations have in common

An evaluation is put together from a few others: a value, a fault, looking a name up, binding a
name, and printing. So what holds of these, and of an evaluation that goes on after another,
holds of the evaluation of every tree (`Framed.eval`). Two such things:

| property | says that |
| --- | --- |
| `Evaluation.Retains` | a name that is bound stays bound |
| `Evaluation.Oblivious` | what was printed before makes no difference, but stays in front |
-/
import StackScript.Proofs.Evaluator

namespace StackScript

/-- The world with bytes printed before all others. -/
def World.behind (w : World) (bytes : List UInt8) : World :=
  { w with output := bytes ++ w.output }

namespace Evaluation

/-- A property of evaluations that the primitive ones have, and that sequencing keeps. -/
structure Framed (P : {α : Type} → Evaluation α → Prop) : Prop where
  pure {α : Type} (a : α) : P (pure a)
  throw {α : Type} (fault : RuntimeFault) : P (throw fault : Evaluation α)
  bind {α β : Type} {x : Evaluation α} {f : α → Evaluation β} : P x → (∀ a, P (f a)) → P (x >>= f)
  lookup (name : List Char) : P (lookup name)
  define (name : List Char) (d : Datum) : P (define name d)
  print (bytes : List UInt8) : P (modify (World.print · bytes))

namespace Framed

variable {P : {α : Type} → Evaluation α → Prop} (framed : Framed P)

include framed

/-- Holding a value has the property. -/
theorem hold (limit height : Nat) (d : Datum) : P (hold limit height d) := by
  unfold Evaluation.hold
  split
  · exact framed.pure d
  · exact framed.throw _

/-- A result without an effect has the property. -/
theorem ofExcept (result : Except RuntimeFault Datum) :
    P (MonadExcept.ofExcept result : Evaluation Datum) := by
  cases result with
  | ok d => exact framed.pure d
  | error fault => exact framed.throw fault

/-- Evaluating an expression has it, by induction on the tree. -/
theorem expression (limit height : Nat) (e : Expr) : P (e.eval limit height) := by
  induction e generalizing height with
  | literal value line => exact framed.hold ..
  | nil line => exact framed.hold ..
  | bool b line => exact framed.hold ..
  | global name line => exact framed.bind (framed.lookup name) fun d => framed.hold limit height d
  | assign name line value ih =>
    refine framed.bind (ih height) fun d => ?_
    refine framed.bind (framed.lookup name) fun _ => ?_
    exact framed.bind (framed.define name d) fun _ => framed.pure d
  | group inner line ih => exact ih height
  | unary op operand ih => exact framed.bind (ih height) fun d => framed.ofExcept _
  | binary op left right ihLeft ihRight =>
    refine framed.bind (ihLeft height) fun a => ?_
    exact framed.bind (ihRight (height + 1)) fun b => framed.ofExcept _

/-- What a declaration does has it. -/
theorem declaration (limit : Nat) (d : Declaration) : P (d.eval limit) := by
  cases d with
  | define name line value endLine =>
    cases value with
    | none => exact framed.bind (framed.hold ..) fun d => framed.define name d
    | some value => exact framed.bind (framed.expression ..) fun d => framed.define name d
  | print value endLine => exact framed.bind (framed.expression ..) fun d => framed.print _
  | expression value endLine => exact framed.bind (framed.expression ..) fun _ => framed.pure ()

/-- What some declarations do has it. -/
theorem declarations (limit : Nat) (ds : List Declaration) :
    P (Declaration.evalAll limit ds) := by
  induction ds with
  | nil => exact framed.pure ()
  | cons d others ih => exact framed.bind (framed.declaration limit d) fun _ => ih

end Framed

/-! ## Names stay bound -/

/-- The world in which an evaluation ends, well or with a fault. -/
def left {α : Type} : EStateM.Result RuntimeFault World α → World
  | .ok _ w => w
  | .error _ w => w

/-- An evaluation unbinds nothing. -/
def Retains {α : Type} (x : Evaluation α) : Prop :=
  ∀ w name, (w.globals name).isSome → ((left (x w)).globals name).isSome

/-- What was printed stays in front of what is printed later. -/
theorem framed_retains : Framed Retains where
  pure _ _ _ bound := bound
  throw _ _ _ bound := bound
  bind {α β x f} first second w name bound := by
    have after := first w name bound
    show ((left (EStateM.bind x f w)).globals name).isSome
    unfold EStateM.bind
    generalize x w = result at after
    cases result with
    | ok a w => exact second a w name after
    | error fault w => exact after
  lookup other w name bound := by
    unfold Evaluation.lookup
    split <;> exact bound
  define other d w name bound := by
    show ((w.bind (Utf8.encode other) d).globals name).isSome
    unfold World.bind
    dsimp only
    split
    · rfl
    · exact bound
  print _ _ _ bound := bound

/-! ## The past does not matter -/

/-- A result with bytes printed before all others. -/
def behind {α : Type} (bytes : List UInt8) :
    EStateM.Result RuntimeFault World α → EStateM.Result RuntimeFault World α
  | .ok a w => .ok a (w.behind bytes)
  | .error fault w => .error fault (w.behind bytes)

/-- An evaluation does the same whatever was printed before it. -/
def Oblivious {α : Type} (x : Evaluation α) : Prop :=
  ∀ w bytes, x (w.behind bytes) = behind bytes (x w)

/-- No evaluation looks at what was printed. -/
theorem framed_oblivious : Framed Oblivious where
  pure _ _ _ := rfl
  throw _ _ _ := rfl
  bind {α β x f} first second w bytes := by
    show EStateM.bind x f (w.behind bytes) = behind bytes (EStateM.bind x f w)
    unfold EStateM.bind
    rw [first w bytes]
    cases x w with
    | ok a w => exact second a w bytes
    | error fault w => rfl
  lookup name w bytes := by
    unfold Evaluation.lookup
    have same : (w.behind bytes).globals = w.globals := rfl
    rw [same]
    split <;> rfl
  define _ _ _ _ := rfl
  print more w bytes := by
    show EStateM.Result.ok () ((w.behind bytes).print more) =
      behind bytes (.ok () (w.print more))
    rw [behind, World.behind, World.behind, World.print, World.print, List.append_assoc]

end Evaluation

/-- Some declarations and then others, if the first end well. -/
theorem Declaration.evalAll_append {limit : Nat} {done : List Declaration} {w after : World}
    (completed : evalAll limit done w = .ok () after) (others : List Declaration) :
    evalAll limit (done ++ others) w = evalAll limit others after := by
  induction done generalizing w with
  | nil =>
    obtain ⟨-, rfl⟩ := EStateM.Result.ok.inj completed
    rfl
  | cons d done ih =>
    simp only [evalAll, bind, EStateM.bind, List.cons_append] at completed ⊢
    cases first : d.eval limit w with
    | ok _ next =>
      rw [first] at completed
      exact ih completed
    | error fault next =>
      rw [first] at completed
      cases completed

end StackScript
