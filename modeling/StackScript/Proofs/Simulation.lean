/-
# Code does what its tree means

Running the code of a tree from a sound machine does what evaluating the tree does in the
world of that machine, whatever is on the stack (`Machine.Agrees`):

| evaluation | run |
| --- | --- |
| a value, in a new world | goes on with a value on top that stands for it |
| a fault, in a new world | ends with that fault |

In both cases the machine holds the new world. The statements compose (`Agrees.bind`), so
there is one for each instruction and one for each tree, which puts together those of its
operands. Handles take the place of names and texts all along: what links them is that the
pool only grows.
-/
import StackScript.Proofs.Machine.World
import StackScript.Proofs.Simulation.Values

namespace StackScript

open Evaluation

namespace Machine

/-- What a run does, according to the result of an evaluation. -/
inductive Agrees {α : Type} (m : Machine) (left : α → Machine → Prop) :
    Progress → EStateM.Result RuntimeFault World α → Prop where
  | ok {x : α} {after : Machine} : after.stack.limit = m.stack.limit → m.pool.Grows after.pool →
      after.Sound → left x after → Agrees m left (.running after) (.ok x after.world)
  | error {fault : RuntimeFault} {line : Nat} {after : Machine} :
      after.stack.limit = m.stack.limit → after.Sound →
      Agrees m left (.ended (.failed fault line) after) (.error fault after.world)

/-- The stack is `base` with a value on top that stands for `d`. -/
def Shows (base : List Value) (d : Datum) (m : Machine) : Prop :=
  ∃ v, m.stack.values = v :: base ∧ v.content? m.pool = some d

variable {α β : Type} {m : Machine} {left : α → Machine → Prop} {left' : β → Machine → Prop}
  {chunk : Chunk} {slots others : List Slot}

/-- One code after another agrees with one evaluation after another. -/
theorem Agrees.bind {x : Evaluation α} {f : α → Evaluation β} {w : World}
    (first : m.Agrees left (runSlots chunk slots m) (x w))
    (second : ∀ a after, after.stack.limit = m.stack.limit → m.pool.Grows after.pool →
      after.Sound → left a after →
      after.Agrees left' (runSlots chunk others after) (f a after.world)) :
    m.Agrees left' (runSlots chunk (slots ++ others) m) ((x >>= f) w) := by
  rw [runSlots_append]
  show m.Agrees left' _ (EStateM.bind x f w)
  unfold EStateM.bind
  generalize runSlots chunk slots m = progress, x w = result at first
  cases first with
  | @ok a after limit grows sound shows =>
    have rest := second a after limit grows sound shows
    dsimp only
    generalize runSlots chunk others after = progress, f a after.world = result at rest
    cases rest with
    | ok limit' grows' sound' shows' =>
      exact .ok (limit'.trans limit) (grows.trans grows') sound' shows'
    | error limit' sound' => exact .error (limit'.trans limit) sound'
  | error limit sound => exact .error limit sound

/-- A single instruction, executed after tracing. -/
theorem agrees_single {i : TracedInstruction} {result : EStateM.Result RuntimeFault World α}
    (holds : List.Forall₂ Slot.Holds slots [i]) (sound : m.Sound)
    (act : ∀ transcript, { m with transcript }.world = m.world → { m with transcript }.Sound →
      { m with transcript }.Agrees left
        (({ m with transcript }.step chunk.constants i.instruction).progress i.line) result) :
    m.Agrees left (runSlots chunk slots m) result := by
  obtain ⟨slot, others, first, rest, rfl⟩ := List.forall₂_cons_right_iff.1 holds
  obtain rfl := List.forall₂_nil_right_iff.1 rest
  have world := (m.quiet_trace chunk slot).world
  obtain ⟨transcript, traced⟩ := m.exists_trace_eq chunk slot
  rw [runSlots, runSlot_of_holds first, traced]
  rw [traced] at world
  have acts := act transcript world (sound.congr rfl rfl rfl)
  generalize ({ m with transcript }.step chunk.constants i.instruction).progress i.line = progress
    at acts ⊢
  cases acts with
  | ok limit grows sound shows => exact .ok limit grows sound shows
  | error limit sound => exact .error limit sound

/-! ## Instructions -/

variable {line : Nat} {u v : Value} {base : List Value} {d : Datum}

/-- Pushing a value agrees with holding what it stands for. -/
theorem agrees_push (sound : m.Sound) (content : v.content? m.pool = some d) :
    m.Agrees (Shows m.stack.values) ((Step.ofExcept m (m.push v)).progress line)
      (hold m.stack.limit m.stack.values.length d m.world) := by
  unfold hold
  by_cases free : m.stack.values.length < m.stack.limit
  · rw [if_pos free, push_of_lt v free]
    exact .ok rfl (.refl _) (sound.congr rfl rfl rfl) ⟨v, rfl, content⟩
  · rw [if_neg free, push_of_le v (Nat.not_lt.1 free)]
    exact .error rfl sound

/-- An operation on the top value agrees with that on what it stands for. -/
theorem agrees_mapTop {f : Value → Except RuntimeFault Value} {r : Except RuntimeFault Datum}
    (sound : m.Sound) (top : m.stack.values = v :: base) (h : Represents m.pool (f v) r) :
    m.Agrees (Shows base) ((Step.ofExcept m (m.mapTop f)).progress line)
      ((MonadExcept.ofExcept r : Evaluation Datum) m.world) := by
  generalize eq : f v = computed at h
  cases h with
  | ok content =>
    obtain ⟨room, mapped⟩ := mapTop_of_ok top eq
    rw [mapped]
    exact .ok rfl (.refl _) (sound.congr rfl rfl rfl) ⟨_, rfl, content⟩
  | error fault =>
    rw [mapTop_of_error top eq]
    exact .error rfl sound

/-- An operation on the two top values agrees with that on what they stand for. -/
theorem agrees_mapTop2 {f : Value → Value → Except RuntimeFault Value}
    {r : Except RuntimeFault Datum} (sound : m.Sound) (top : m.stack.values = v :: u :: base)
    (h : Represents m.pool (f u v) r) :
    m.Agrees (Shows base) ((Step.ofExcept m (m.mapTop2 f)).progress line)
      ((MonadExcept.ofExcept r : Evaluation Datum) m.world) := by
  generalize eq : f u v = computed at h
  cases h with
  | ok content =>
    obtain ⟨room, mapped⟩ := mapTop2_of_ok top eq
    rw [mapped]
    exact .ok rfl (.refl _) (sound.congr rfl rfl rfl) ⟨_, rfl, content⟩
  | error fault =>
    rw [mapTop2_of_error top eq]
    exact .error rfl sound

/-- What stands for no text is no string. -/
theorem string?_eq_none (content : v.content? m.pool = some d) (h : ∀ s, d ≠ .text s) :
    m.string? v = none := by
  cases Value.denotes_of_content? content with
  | text => exact absurd rfl (h _)
  | _ => rfl

/-- Two texts are joined, anything else is added. -/
theorem agrees_add {a b : Datum} (sound : m.Sound) (top : m.stack.values = v :: u :: base)
    (hu : u.content? m.pool = some a) (hv : v.content? m.pool = some b) :
    m.Agrees (Shows base) ((Step.ofExcept m m.add).progress line)
      ((MonadExcept.ofExcept (BinaryOp.add.compute a b) : Evaluation Datum) m.world) := by
  by_cases texts : (∃ s, a = .text s) ∧ ∃ t, b = .text t
  · obtain ⟨⟨_, rfl⟩, _, rfl⟩ := texts
    obtain ⟨h, s, rfl, hs, rfl⟩ := Value.eq_object_of_content? hu
    obtain ⟨k, t, rfl, ht, rfl⟩ := Value.eq_object_of_content? hv
    have grows := StringPool.grows_intern m.pool (s.bytes ++ t.bytes)
    obtain ⟨room, added⟩ := add_of_texts top hs ht
    rw [added, BinaryOp.compute]
    have world := sound.world_grow grows
    show m.Agrees _ _ (.ok _ m.world)
    rw [← world]
    refine .ok rfl grows ((sound.grow grows).congr rfl rfl rfl) ⟨_, rfl, ?_⟩
    rw [pool_withValues, Value.content?, StringPool.get?_intern_self]
    rfl
  · have numbers : m.string? u = none ∨ m.string? v = none := by
      by_cases h : ∃ s, a = .text s
      · exact .inr (string?_eq_none hv fun t eq => texts ⟨h, t, eq⟩)
      · exact .inl (string?_eq_none hu fun s eq => h ⟨s, eq⟩)
    rw [add_of_not_texts top numbers]
    refine agrees_mapTop2 sound top (represents_add hu hv ?_)
    rintro s t ⟨rfl, rfl⟩
    exact texts ⟨⟨s, rfl⟩, t, rfl⟩

/-! ## Names -/

variable {h : Handle} {s : StoredString} {name : List Char}

/-- A bound name is looked up as what its value stands for. -/
theorem lookup_of_some (live : m.pool.get? h = some s) (eq : s.bytes = Utf8.encode name)
    (bound : m.globals.find? h = some v) (content : v.content? m.pool = some d) :
    lookup name m.world = .ok d m.world := by
  have found : m.world.globals (Utf8.encode name) = some d := by
    rw [← eq, globals_world live, bound]
    exact content
  rw [lookup, found]

/-- The handle of a name is reported as that name. -/
theorem lookup_of_none (live : m.pool.get? h = some s) (eq : s.bytes = Utf8.encode name)
    (unbound : m.globals.find? h = none) :
    lookup name m.world = .error (m.undefinedVariable h) m.world := by
  have text : m.undefinedVariable h = .undefinedVariable (String.ofList name) := by
    rw [undefinedVariable, live]
    show RuntimeFault.undefinedVariable (String.ofList (Utf8.lossy s.bytes)) = _
    rw [eq, Utf8.lossy_encode]
  have missing : m.world.globals (Utf8.encode name) = none := by
    rw [← eq, globals_world live, unbound]
    rfl
  rw [lookup, missing, text]

/-- Reading a global agrees with looking its name up. -/
theorem agrees_getGlobal (sound : m.Sound) (live : m.pool.get? h = some s)
    (eq : s.bytes = Utf8.encode name) :
    m.Agrees (Shows m.stack.values) ((Step.ofExcept m (m.getGlobal h)).progress line)
      ((lookup name >>= hold m.stack.limit m.stack.values.length) m.world) := by
  show m.Agrees _ _ (EStateM.bind (lookup name) _ m.world)
  unfold EStateM.bind getGlobal
  cases bound : m.globals.find? h with
  | none =>
    rw [lookup_of_none live eq bound]
    exact .error rfl sound
  | some v =>
    obtain ⟨d, content⟩ := sound.values h v bound
    rw [lookup_of_some live eq bound content]
    exact agrees_push sound content

/-- Assigning to a global agrees with binding a name that must be bound. -/
theorem agrees_setGlobal (sound : m.Sound) (live : m.pool.get? h = some s)
    (eq : s.bytes = Utf8.encode name) (top : m.stack.values = v :: base)
    (content : v.content? m.pool = some d) :
    m.Agrees (Shows base) ((Step.ofExcept m (m.setGlobal h)).progress line)
      ((do let _ ← lookup name; define name d; return d : Evaluation Datum) m.world) := by
  show m.Agrees _ _ (EStateM.bind (lookup name) _ m.world)
  unfold EStateM.bind
  rw [setGlobal_of_cons h top, Globals.isBound_eq_isSome]
  cases bound : m.globals.find? h with
  | none =>
    rw [lookup_of_none live eq bound]
    exact .error rfl sound
  | some u =>
    obtain ⟨d', content'⟩ := sound.values h u bound
    rw [lookup_of_some live eq bound content']
    show m.Agrees _ _ (.ok d (m.world.bind (Utf8.encode name) d))
    rw [← eq, ← world_bind live content]
    exact .ok rfl (.refl _) (sound.bind live content) ⟨v, top, content⟩

/-- Defining a global agrees with binding its name. -/
theorem agrees_defineGlobal (sound : m.Sound) (live : m.pool.get? h = some s)
    (eq : s.bytes = Utf8.encode name) (top : m.stack.values = v :: base)
    (content : v.content? m.pool = some d) :
    m.Agrees (fun _ after => after.stack.values = base)
      ((Step.ofExcept m (m.defineGlobal h)).progress line) (define name d m.world) := by
  obtain ⟨room, defined⟩ := defineGlobal_of_cons h top
  rw [defined]
  show m.Agrees _ _ (.ok () (m.world.bind (Utf8.encode name) d))
  rw [← eq, ← world_bind live content]
  exact .ok rfl (.refl _) ((sound.bind live content).congr rfl rfl rfl) rfl

/-! ## Statements -/

/-- Dropping a value agrees with doing nothing. -/
theorem agrees_pop (sound : m.Sound) (top : m.stack.values = v :: base) :
    m.Agrees (fun _ after => after.stack.values = base)
      ((Step.ofExcept m (do return (← m.pop).2)).progress line)
      ((pure () : Evaluation Unit) m.world) := by
  obtain ⟨room, popped⟩ := pop_of_cons top
  rw [popped]
  exact .ok rfl (.refl _) (sound.congr rfl rfl rfl) rfl

/-- Printing a value agrees with printing the text of what it stands for. -/
theorem agrees_printTop (sound : m.Sound) (top : m.stack.values = v :: base)
    (content : v.content? m.pool = some d) :
    m.Agrees (fun _ after => after.stack.values = base) (m.printTop.progress line)
      ((modify (·.print (Utf8.encode (d.toText.toList ++ ['\n']))) : Evaluation Unit) m.world) := by
  obtain ⟨room, popped⟩ := pop_of_cons top
  have sound' : (m.withValues base room).Sound := sound.congr rfl rfl rfl
  obtain ⟨after, printed, stack, pool, sound, world⟩ :=
    exists_printLine_eq sound' (v.text (m.withValues base room).pool)
  rw [printTop, popped]
  dsimp only
  rw [printed]
  rw [pool_withValues, Value.text_eq_toText content] at world
  show m.Agrees _ _ (.ok () ((m.withValues base room).world.print _))
  rw [← world]
  refine .ok (by rw [stack, limit_withValues]) ?_ sound (by rw [stack, values_withValues])
  rw [pool]
  exact .refl _

end Machine

/-! ## Operators -/

open Machine

variable {m : Machine} {chunk : Chunk} {slots : List Slot} {next line : Nat} {u v : Value}
  {base : List Value} {a b d : Datum}

/-- The operation of an operator with one operand agrees with the operator. -/
theorem UnaryOp.agrees (op : UnaryOp)
    (holds : List.Forall₂ Slot.Holds slots [⟨op.code, line⟩]) (sound : m.Sound)
    (top : m.stack.values = v :: base) (content : v.content? m.pool = some d) :
    m.Agrees (Shows base) (runSlots chunk slots m)
      ((MonadExcept.ofExcept (op.compute d) : Evaluation Datum) m.world) := by
  refine agrees_single holds sound fun transcript world sound => ?_
  rw [← world]
  cases op with
  | negate => exact agrees_mapTop sound top (represents_negate content)
  | not => exact agrees_mapTop sound top (represents_isFalsey content)

section BinaryOp

variable {i : Instruction} {f : Value → Value → Except RuntimeFault Value}
  {r : Except RuntimeFault Datum}

/-- One operation on two values agrees with what it represents. -/
theorem agrees_operation (holds : List.Forall₂ Slot.Holds slots [⟨i, line⟩]) (sound : m.Sound)
    (step : ∀ traced : Machine, traced.step chunk.constants i = .ofExcept traced (traced.mapTop2 f))
    (top : m.stack.values = v :: u :: base) (h : Represents m.pool (f u v) r) :
    m.Agrees (Shows base) (runSlots chunk slots m)
      ((MonadExcept.ofExcept r : Evaluation Datum) m.world) := by
  refine agrees_single holds sound fun transcript world sound => ?_
  rw [← world, step]
  exact agrees_mapTop2 sound top h

/-- An operation on two values and a negation. -/
theorem agrees_negated (holds : List.Forall₂ Slot.Holds slots [⟨i, line⟩, ⟨.not, line⟩])
    (sound : m.Sound)
    (step : ∀ traced : Machine, traced.step chunk.constants i = .ofExcept traced (traced.mapTop2 f))
    (top : m.stack.values = v :: u :: base) (h : Represents m.pool (f u v) r) :
    m.Agrees (Shows base) (runSlots chunk slots m)
      ((MonadExcept.ofExcept (r >>= UnaryOp.not.compute) : Evaluation Datum) m.world) := by
  obtain ⟨first, others, hfirst, hothers, rfl⟩ := List.forall₂_cons_right_iff.1 holds
  have two : (MonadExcept.ofExcept (r >>= UnaryOp.not.compute) : Evaluation Datum) =
      (MonadExcept.ofExcept r >>= fun d => MonadExcept.ofExcept (UnaryOp.not.compute d)) := by
    cases r <;> rfl
  rw [two, ← List.singleton_append]
  refine Agrees.bind (agrees_operation (.cons hfirst .nil) sound step top h) ?_
  rintro d after - - sound ⟨w, top, content⟩
  exact UnaryOp.not.agrees hothers sound top content

end BinaryOp

/-- The operations of an operator with two operands agree with the operator. -/
theorem BinaryOp.agrees (op : BinaryOp)
    (holds : List.Forall₂ Slot.Holds slots (op.code.map (⟨·, line⟩))) (sound : m.Sound)
    (top : m.stack.values = v :: u :: base) (hu : u.content? m.pool = some a)
    (hv : v.content? m.pool = some b) :
    m.Agrees (Shows base) (runSlots chunk slots m)
      ((MonadExcept.ofExcept (op.compute a b) : Evaluation Datum) m.world) := by
  have same : Represents m.pool (.ok (.bool (u.same v))) (equal.compute a b) := by
    rw [Value.same_eq_same hu hv]
    exact .ok rfl
  cases op with
  | equal => exact agrees_operation holds sound (fun _ => rfl) top same
  | notEqual => exact agrees_negated holds sound (fun _ => rfl) top same
  | greater => exact agrees_operation holds sound (fun _ => rfl) top (represents_greater hu hv)
  | greaterEqual =>
    rw [compute_greaterEqual]
    exact agrees_negated holds sound (fun _ => rfl) top (represents_less hu hv)
  | less => exact agrees_operation holds sound (fun _ => rfl) top (represents_less hu hv)
  | lessEqual =>
    rw [compute_lessEqual]
    exact agrees_negated holds sound (fun _ => rfl) top (represents_greater hu hv)
  | add =>
    refine agrees_single holds sound fun transcript world sound => ?_
    rw [← world]
    exact agrees_add sound top hu hv
  | subtract => exact agrees_operation holds sound (fun _ => rfl) top (represents_subtract hu hv)
  | multiply => exact agrees_operation holds sound (fun _ => rfl) top (represents_multiply hu hv)
  | divide => exact agrees_operation holds sound (fun _ => rfl) top (represents_divide hu hv)

/-! ## Expressions -/

/-- Code in two parts is held by slots in two parts. -/
theorem forall₂_holds_append {code more : List TracedInstruction}
    (holds : List.Forall₂ Slot.Holds slots (code ++ more)) :
    ∃ first others, slots = first ++ others ∧ List.Forall₂ Slot.Holds first code ∧
      List.Forall₂ Slot.Holds others more :=
  ⟨_, _, (List.take_append_drop code.length slots).symm, List.forall₂_take_append _ _ _ holds,
    List.forall₂_drop_append _ _ _ holds⟩

/-- An instruction that pushes a value agrees with holding what it stands for. -/
theorem agrees_pushed {i : Instruction}
    (holds : List.Forall₂ Slot.Holds slots [⟨i, line⟩]) (sound : m.Sound)
    (step : ∀ traced : Machine, traced.step chunk.constants i = .ofExcept traced (traced.push v))
    (content : v.content? m.pool = some d) :
    m.Agrees (Shows m.stack.values) (runSlots chunk slots m)
      (hold m.stack.limit m.stack.values.length d m.world) := by
  refine agrees_single holds sound fun transcript world sound => ?_
  rw [← world, step]
  exact agrees_push sound content

/-- An instruction whose operand names a name. -/
theorem agrees_named {α : Type} {left : α → Machine → Prop} {x : Evaluation α} {name : List Char}
    {literals : List Literal} {i : UInt8 → Instruction}
    {act : Machine → Handle → Except RuntimeFault Machine}
    (holds : List.Forall₂ Slot.Holds slots [⟨i (.ofNat next), line⟩]) (sound : m.Sound)
    (linked : Linked chunk.constants m.pool next (.text name :: literals))
    (step : ∀ (traced : Machine) k, traced.step chunk.constants (i k) =
      .ofExcept traced (traced.nameConstant chunk.constants k >>= act traced))
    (acts : ∀ transcript h s, { m with transcript }.Sound → m.pool.get? h = some s →
      s.bytes = Utf8.encode name →
      { m with transcript }.Agrees left
        ((Step.ofExcept { m with transcript } (act { m with transcript } h)).progress line)
        (x { m with transcript }.world)) :
    m.Agrees left (runSlots chunk slots m) (x m.world) := by
  refine agrees_single holds sound fun transcript world sound => ?_
  obtain ⟨h, s, named, live, eq⟩ := linked.name
  have read : { m with transcript }.nameConstant chunk.constants (.ofNat next) = .ok h :=
    nameConstant_of_resolves named (Option.isSome_iff_exists.2 ⟨s, live⟩)
  dsimp only
  rw [← world, step, read]
  exact acts transcript h s sound live eq

/-- **The code of an expression does what the expression means.** -/
theorem Expr.agrees (e : Expr) (holds : List.Forall₂ Slot.Holds slots (e.code next))
    (linked : Linked chunk.constants m.pool next e.constants) (sound : m.Sound) :
    m.Agrees (Shows m.stack.values) (runSlots chunk slots m)
      (e.eval m.stack.limit m.stack.values.length m.world) := by
  induction e generalizing next slots m with
  | literal value line =>
    obtain ⟨v, named, content⟩ := linked.operand
    refine agrees_pushed holds sound (fun traced => ?_) content
    rw [Machine.step, constant, named]
    rfl
  | nil line => exact agrees_pushed (v := .nil) holds sound (fun _ => rfl) rfl
  | bool b line =>
    cases b with
    | false => exact agrees_pushed (v := .bool false) holds sound (fun _ => rfl) rfl
    | true => exact agrees_pushed (v := .bool true) holds sound (fun _ => rfl) rfl
  | global name line =>
    refine agrees_named (x := lookup name >>= _) holds sound linked (fun _ _ => rfl) ?_
    intro transcript h s sound live eq
    exact agrees_getGlobal sound live eq
  | assign name line value ih =>
    obtain ⟨first, others, rfl, hvalue, hset⟩ := forall₂_holds_append holds
    refine Agrees.bind (ih hvalue linked.tail sound) ?_
    rintro d after - grows sound ⟨v, top, content⟩
    refine agrees_named (x := do let _ ← lookup name; Evaluation.define name d; return d)
      hset sound (linked.grow grows) (fun _ _ => rfl) ?_
    intro transcript h s sound live eq
    exact agrees_setGlobal sound live eq top content
  | group inner line ih => exact ih holds linked sound
  | unary op operand ih =>
    obtain ⟨first, others, rfl, hoperand, hop⟩ := forall₂_holds_append holds
    refine Agrees.bind (ih hoperand linked sound) ?_
    rintro d after - - sound ⟨v, top, content⟩
    exact op.agrees hop sound top content
  | binary op left right ihl ihr =>
    obtain ⟨both, last, rfl, hboth, hop⟩ := forall₂_holds_append holds
    obtain ⟨first, second, rfl, hleft, hright⟩ := forall₂_holds_append hboth
    rw [List.append_assoc]
    refine Agrees.bind (ihl hleft linked.left sound) ?_
    rintro a after limit grows sound ⟨u, top, hu⟩
    have height : after.stack.values.length = m.stack.values.length + 1 := by
      rw [top, List.length_cons]
    have right := ihr hright (linked.right.grow grows) sound
    rw [limit, height] at right
    refine Agrees.bind right ?_
    rintro b after' - grows' sound ⟨v, top', hv⟩
    rw [top] at top'
    exact op.agrees hop sound top' (Value.content?_of_grows grows' hu) hv

/-! ## Declarations and programs -/

/-- **The code of a declaration does what the declaration does.** -/
theorem Declaration.agrees (decl : Declaration)
    (holds : List.Forall₂ Slot.Holds slots (decl.code next))
    (linked : Linked chunk.constants m.pool next decl.constants) (sound : m.Sound)
    (empty : m.stack.values = []) :
    m.Agrees (fun _ after => after.stack.values = []) (runSlots chunk slots m)
      (decl.eval m.stack.limit m.world) := by
  have pushes (e : Expr) {next : Nat} {first : List Slot}
      (holds : List.Forall₂ Slot.Holds first (e.code next))
      (linked : Linked chunk.constants m.pool next e.constants) :
      m.Agrees (Shows []) (runSlots chunk first m) (e.eval m.stack.limit 0 m.world) := by
    have := e.agrees holds linked sound
    rwa [empty] at this
  have defines {name : List Char} {literals : List Literal} {d : Datum} {after : Machine}
      {others : List Slot} {line : Nat}
      (holds : List.Forall₂ Slot.Holds others [⟨.defineGlobal (.ofNat next), line⟩])
      (linked : Linked chunk.constants m.pool next (.text name :: literals))
      (grows : m.pool.Grows after.pool) (sound : after.Sound) (shows : after.Shows [] d) :
      after.Agrees (fun _ last => last.stack.values = []) (runSlots chunk others after)
        (Evaluation.define name d after.world) := by
    obtain ⟨v, top, content⟩ := shows
    refine agrees_named (x := Evaluation.define name d) holds sound (linked.grow grows)
      (fun _ _ => rfl) ?_
    intro transcript h s sound live eq
    exact agrees_defineGlobal sound live eq top content
  cases decl with
  | define name nameLine initial endLine =>
    cases initial with
    | none =>
      obtain ⟨first, others, hnil, hothers, rfl⟩ := List.forall₂_cons_right_iff.1 holds
      have pushed : m.Agrees (Shows m.stack.values) (runSlots chunk [first] m)
          (hold m.stack.limit m.stack.values.length .nil m.world) :=
        agrees_pushed (v := .nil) (.cons hnil .nil) sound (fun _ => rfl) rfl
      rw [empty] at pushed
      rw [← List.singleton_append]
      refine Agrees.bind pushed ?_
      rintro d after - grows sound shows
      exact defines hothers linked grows sound shows
    | some value =>
      obtain ⟨first, others, rfl, hvalue, hothers⟩ := forall₂_holds_append holds
      refine Agrees.bind (pushes value hvalue linked.tail) ?_
      rintro d after - grows sound shows
      exact defines hothers linked grows sound shows
  | print value endLine =>
    obtain ⟨first, others, rfl, hvalue, hprint⟩ := forall₂_holds_append holds
    refine Agrees.bind (pushes value hvalue linked) ?_
    rintro d after - - sound ⟨v, top, content⟩
    refine agrees_single hprint sound fun transcript world sound => ?_
    rw [← world]
    exact agrees_printTop sound top content
  | expression value endLine =>
    obtain ⟨first, others, rfl, hvalue, hpop⟩ := forall₂_holds_append holds
    refine Agrees.bind (pushes value hvalue linked) ?_
    rintro d after - - sound ⟨v, top, content⟩
    refine agrees_single hpop sound fun transcript world sound => ?_
    rw [← world]
    exact agrees_pop sound top

/-- **The code of some declarations agrees with them,** by induction on the list. -/
theorem Declaration.agreesAll (decls : List Declaration)
    (holds : List.Forall₂ Slot.Holds slots (codeOfList next decls))
    (linked : Linked chunk.constants m.pool next (decls.flatMap Declaration.constants))
    (sound : m.Sound) (empty : m.stack.values = []) :
    m.Agrees (fun _ after => after.stack.values = []) (runSlots chunk slots m)
      (evalAll m.stack.limit decls m.world) := by
  induction decls generalizing next slots m with
  | nil =>
    cases holds
    exact .ok rfl (.refl _) sound empty
  | cons decl decls ih =>
    rw [List.flatMap_cons] at linked
    obtain ⟨first, others, rfl, hfirst, hothers⟩ := forall₂_holds_append holds
    refine Agrees.bind (decl.agrees hfirst linked.left sound empty) ?_
    intro _ after limit grows sound empty
    have rest := ih hothers (linked.right.grow grows) sound empty
    rw [limit] at rest
    exact rest

/-- How the run of a program ends, according to the result of evaluating it. -/
inductive Machine.Concludes (m : Machine) :
    Ending × Machine → EStateM.Result RuntimeFault World Unit → Prop where
  | finished {after : Machine} : after.stack.limit = m.stack.limit → after.Sound →
      after.stack.values = [] → Concludes m (.finished, after) (.ok () after.world)
  | failed {fault : RuntimeFault} {line : Nat} {after : Machine} :
      after.stack.limit = m.stack.limit → after.Sound →
      Concludes m (.failed fault line, after) (.error fault after.world)

/-- **The run of a program does what the program does.** -/
theorem Program.concludes (p : Program) (chunk : Chunk)
    (holds : List.Forall₂ Slot.Holds chunk.slots p.code)
    (linked : Linked chunk.constants m.pool 0 (p.declarations.flatMap Declaration.constants))
    (sound : m.Sound) (empty : m.stack.values = []) :
    m.Concludes (m.run chunk) (p.eval m.stack.limit m.world) := by
  obtain ⟨first, others, split, hfirst, hothers⟩ := forall₂_holds_append holds
  obtain ⟨slot, _, hslot, rest, rfl⟩ := List.forall₂_cons_right_iff.1 hothers
  obtain rfl := List.forall₂_nil_right_iff.1 rest
  have agrees := Declaration.agreesAll p.declarations hfirst linked sound empty
  rw [Machine.run, split, runSlots_append, Program.eval]
  generalize runSlots chunk first m = progress,
    Declaration.evalAll m.stack.limit p.declarations m.world = result at agrees
  cases agrees with
  | error limit sound => exact .failed limit sound
  | @ok _ after limit _ sound empty =>
    have quiet := after.quiet_trace chunk slot
    have flushed : (after.trace chunk slot).output.flush = none := (quiet.sound sound).output.2 _
    dsimp only
    rw [runSlots, runSlot_of_holds hslot, Machine.step, flushed]
    dsimp only [Step.progress]
    rw [← quiet.world]
    refine .finished ?_ (quiet.sound sound) ?_
    · rw [quiet.stack, limit]
    · rw [quiet.stack, empty]

end StackScript
