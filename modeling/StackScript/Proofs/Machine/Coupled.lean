/-
# Instructions on two machines

All instructions but two read nothing of a machine except its stack, its globals and its
strings, and change nothing else. So if two machines have these in common, such an instruction
has the same fault on both, or changes both in the same way; whatever else there is between
the machines stays as it is (`Coupled.exists_act`).

The other two are `print`, which writes to the output, and `finish`, which flushes it.
-/
import StackScript.Proofs.Machine.Printing
import StackScript.Proofs.Renaming

namespace StackScript

/-- One operation after another. -/
theorem Matches.bind {α α' β β' : Type} {R : α → α' → Prop} {S : β → β' → Prop}
    {x : Except RuntimeFault α} {x' : Except RuntimeFault α'} {f : α → Except RuntimeFault β}
    {f' : α' → Except RuntimeFault β'} (first : Matches R x x')
    (second : ∀ a a', R a a' → Matches S (f a) (f' a')) : Matches S (x >>= f) (x' >>= f') := by
  cases first with
  | ok related => exact second _ _ related
  | error fault => exact .error fault

/-- An operation has the fault and the results that it has itself. -/
theorem Matches.refl {α : Type} (x : Except RuntimeFault α) : Matches Eq x x := by
  cases x with
  | ok a => exact .ok rfl
  | error fault => exact .error fault

namespace Machine

/-- A relation between machines of one stack, the same globals and the same strings, which lasts
if these are changed in the same way on both sides. -/
structure Coupled (R : Machine → Machine → Prop) : Prop where
  stack {m m' : Machine} : R m m' → m'.stack = m.stack
  globals {m m' : Machine} : R m m' → m'.globals = m.globals
  pool {m m' : Machine} : R m m' → m'.pool = m.pool
  withStack {m m' : Machine} (stack : Stack) : R m m' → R { m with stack } { m' with stack }
  withGlobals {m m' : Machine} (globals : Globals) : R m m' →
    R { m with globals } { m' with globals }
  withPool {m m' : Machine} (pool : StringPool) : R m m' → R { m with pool } { m' with pool }

namespace Coupled

variable {R : Machine → Machine → Prop} {m m' : Machine} (coupled : Coupled R) (both : R m m')

include coupled both

/-- Coupled machines push alike. -/
theorem push (v : Value) : Matches R (m.push v) (m'.push v) := by
  rw [Machine.push, Machine.push, coupled.stack both]
  exact (Matches.refl _).bind fun stack _ same => same ▸ .ok (coupled.withStack stack both)

/-- Coupled machines take the same value off the stack. -/
theorem pop : Matches (fun p p' => p'.1 = p.1 ∧ R p.2 p'.2) m.pop m'.pop := by
  rw [Machine.pop, Machine.pop, coupled.stack both]
  exact (Matches.refl _).bind fun popped _ same =>
    same ▸ .ok ⟨rfl, coupled.withStack popped.2 both⟩

/-- Coupled machines work on the top value alike. -/
theorem mapTop (f : Value → Except RuntimeFault Value) :
    Matches R (m.mapTop f) (m'.mapTop f) := by
  refine (coupled.pop both).bind ?_
  rintro ⟨b, m⟩ ⟨_, m'⟩ ⟨rfl, both⟩
  exact (Matches.refl _).bind fun v _ same => same ▸ coupled.push both v

/-- Coupled machines work on the two top values alike. -/
theorem mapTop2 (f : Value → Value → Except RuntimeFault Value) :
    Matches R (m.mapTop2 f) (m'.mapTop2 f) := by
  refine (coupled.pop both).bind ?_
  rintro ⟨b, m⟩ ⟨_, m'⟩ ⟨rfl, both⟩
  refine (coupled.pop both).bind ?_
  rintro ⟨a, m⟩ ⟨_, m'⟩ ⟨rfl, both⟩
  exact (Matches.refl _).bind fun v _ same => same ▸ coupled.push both v

/-- Coupled machines find the same string behind a value. -/
theorem string?_eq (v : Value) : m'.string? v = m.string? v := by
  cases v with
  | object h => exact congrArg (·.get? h) (coupled.pool both)
  | nil | bool | int | double => rfl

/-- Coupled machines add alike, and join texts alike. -/
theorem add : Matches R m.add m'.add := by
  rw [Machine.add, Machine.add, coupled.stack both]
  refine (Matches.refl _).bind fun b b' sameTop => ?_
  refine (Matches.refl _).bind fun a a' sameBelow => ?_
  subst sameTop sameBelow
  rw [coupled.string?_eq both, coupled.string?_eq both]
  split
  · rename_i s t _ _
    refine (coupled.pop both).bind ?_
    rintro ⟨_, m⟩ ⟨_, m'⟩ ⟨-, both⟩
    refine (coupled.pop both).bind ?_
    rintro ⟨_, m⟩ ⟨_, m'⟩ ⟨-, both⟩
    show Matches R ((m.intern _).2.push _) ((m'.intern _).2.push _)
    rw [intern, intern, coupled.pool both]
    exact coupled.push (coupled.withPool (m.pool.intern (s.bytes ++ t.bytes)).2 both) _
  · exact coupled.mapTop2 both _

/-! ## Names -/

/-- Coupled machines say the same of a variable that is not defined. -/
theorem undefinedVariable_eq (name : Handle) :
    m'.undefinedVariable name = m.undefinedVariable name := by
  rw [undefinedVariable, undefinedVariable, coupled.pool both]

/-- Coupled machines find the same name among the constants. -/
theorem nameConstant_eq (constants : List Value) (k : UInt8) :
    m'.nameConstant constants k = m.nameConstant constants k := by
  rw [nameConstant, nameConstant, coupled.pool both]

/-- Coupled machines read a global alike. -/
theorem getGlobal (name : Handle) : Matches R (m.getGlobal name) (m'.getGlobal name) := by
  rw [Machine.getGlobal, Machine.getGlobal, coupled.globals both,
    coupled.undefinedVariable_eq both]
  split
  · exact coupled.push both _
  · exact .error _

/-- Coupled machines define a global alike. -/
theorem defineGlobal (name : Handle) :
    Matches R (m.defineGlobal name) (m'.defineGlobal name) := by
  refine (coupled.pop both).bind ?_
  rintro ⟨v, m⟩ ⟨_, m'⟩ ⟨rfl, both⟩
  refine .ok ?_
  rw [coupled.globals both]
  exact coupled.withGlobals _ both

/-- Coupled machines assign to a global alike. -/
theorem setGlobal (name : Handle) : Matches R (m.setGlobal name) (m'.setGlobal name) := by
  have peeked : m'.stack.peek 0 = m.stack.peek 0 := by rw [coupled.stack both]
  rw [Machine.setGlobal, Machine.setGlobal, peeked, coupled.globals both,
    coupled.undefinedVariable_eq both]
  refine (Matches.refl _).bind fun v v' same => ?_
  subst same
  split
  · exact .ok (coupled.withGlobals _ both)
  · exact .error _

/-- An operation on the name that an operand names. -/
theorem named (constants : List Value) (k : UInt8) {act act' : Handle → Except RuntimeFault Machine}
    (acts : ∀ name, Matches R (act name) (act' name)) :
    Matches R (m.nameConstant constants k >>= act) (m'.nameConstant constants k >>= act') := by
  rw [coupled.nameConstant_eq both]
  exact (Matches.refl _).bind fun name _ same => same ▸ acts name

end Coupled

/-- The end of a print, of which the line was accepted or refused. -/
def Step.ofLine : Option String × Machine → Step
  | (none, m) => .next m
  | (some why, m) => .failed (.output why) m

/-- A line that is printed on both sides changes nothing of what they share. -/
theorem Coupled.shares_printLine {R : Machine → Machine → Prop} (coupled : Coupled R)
    {m m' : Machine} (both : R m m') (text : String) :
    (m'.printLine text).2.stack = (m.printLine text).2.stack ∧
      (m'.printLine text).2.globals = (m.printLine text).2.globals ∧
      (m'.printLine text).2.pool = (m.printLine text).2.pool := by
  refine ⟨?_, ?_, ?_⟩
  · rw [stack_printLine, stack_printLine, coupled.stack both]
  · rw [globals_printLine, globals_printLine, coupled.globals both]
  · rw [pool_printLine, pool_printLine, coupled.pool both]

/-- **A print takes a value** and writes the same line on both sides, unless it finds none. -/
theorem Coupled.printTop_cases {R : Machine → Machine → Prop} (coupled : Coupled R)
    {m m' : Machine} (both : R m m') :
    (∃ fault, m.printTop = .failed fault m ∧ m'.printTop = .failed fault m') ∨
      ∃ text a a', R a a' ∧ m.printTop = .ofLine (a.printLine text) ∧
        m'.printTop = .ofLine (a'.printLine text) := by
  have popped := coupled.pop both
  unfold printTop
  generalize m.pop = x, m'.pop = x' at popped
  cases popped with
  | error fault => exact .inl ⟨fault, rfl, rfl⟩
  | @ok p p' popped =>
    obtain ⟨_, a⟩ := p
    obtain ⟨v, a'⟩ := p'
    obtain ⟨rfl, both⟩ := popped
    dsimp only at both ⊢
    refine .inr ⟨v.text a.pool, a, a', both, ?_, ?_⟩
    · generalize a.printLine _ = line
      obtain ⟨refusal, last⟩ := line
      cases refusal <;> rfl
    · rw [coupled.pool both]
      generalize a'.printLine _ = line
      obtain ⟨refusal, last⟩ := line
      cases refusal <;> rfl

/-- **An instruction that neither prints nor finishes** is an operation, which keeps any such
relation. -/
theorem Coupled.exists_act {R : Machine → Machine → Prop} (coupled : Coupled R)
    (constants : List Value) {i : Instruction} (silent : i ≠ .print) (ongoing : i ≠ .finish) :
    ∃ act : Machine → Except RuntimeFault Machine,
      (∀ m : Machine, m.step constants i = .ofExcept m (act m)) ∧
        ∀ m m', R m m' → Matches R (act m) (act m') := by
  cases i with
  | constant k =>
    refine ⟨_, fun _ => rfl, fun m m' both => ?_⟩
    exact (Matches.refl _).bind fun v _ same => same ▸ coupled.push both v
  | pushNil | pushTrue | pushFalse =>
    exact ⟨_, fun _ => rfl, fun m m' both => coupled.push both _⟩
  | pop =>
    refine ⟨_, fun _ => rfl, fun m m' both => ?_⟩
    exact (coupled.pop both).bind fun _ _ popped => .ok popped.2
  | getGlobal k =>
    exact ⟨_, fun _ => rfl, fun m m' both =>
      coupled.named both constants k (coupled.getGlobal both)⟩
  | defineGlobal k =>
    exact ⟨_, fun _ => rfl, fun m m' both =>
      coupled.named both constants k (coupled.defineGlobal both)⟩
  | setGlobal k =>
    exact ⟨_, fun _ => rfl, fun m m' both =>
      coupled.named both constants k (coupled.setGlobal both)⟩
  | equal | greater | less | subtract | multiply | divide =>
    exact ⟨_, fun _ => rfl, fun m m' both => coupled.mapTop2 both _⟩
  | add => exact ⟨_, fun _ => rfl, fun m m' both => coupled.add both⟩
  | not | negate => exact ⟨_, fun _ => rfl, fun m m' both => coupled.mapTop both _⟩
  | print => exact absurd rfl silent
  | finish => exact absurd rfl ongoing

end Machine
end StackScript
