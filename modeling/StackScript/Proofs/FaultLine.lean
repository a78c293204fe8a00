/-
# The line of a fault

A fault is reported with the line of the last byte that was read, which is the last byte of the
instruction that fails. All bytes of an instruction have one line, so this is also that of its
first byte; and it is a line of the statement that the instruction belongs to.

| the fault | its line |
| --- | --- |
| at an instruction of a statement | from that of its first token to that of its semicolon |
| at the read of a variable | that of the token with its name |
| at the end of the run | the last line of the source |

A read of a variable is given the number of its name among the constants, and these are numbered in
the order of their tokens. So the number of a read finds its token (`Reads`).
-/
import StackScript.Proofs.LineTable
import StackScript.Proofs.Machine.Processor
import StackScript.Proofs.Neutrality

namespace StackScript

/-! ## Names that are read -/

/-- A read of a variable in some code is that of a name among some tokens: the one whose number it
is given, counted from `next` on. -/
def Reads (tokens : List Token) (constants : List Literal) (next : Nat)
    (code : List TracedInstruction) : Prop :=
  ∀ i ∈ code, ∀ index, i.instruction = .getGlobal index →
    ∃ (j : Nat) (t : Token), (tokens.filter Token.isConstant)[j]? = some t ∧
      constants[j]? = some (.text t.text) ∧ t.kind = .identifier ∧ t.line = i.line ∧
      index = .ofNat (next + j)

namespace Reads

variable {tokens more : List Token} {constants literals : List Literal} {next : Nat}
  {code others : List TracedInstruction}

/-- Tokens without constants may stand around. -/
theorem of_filter (reads : Reads tokens constants next code)
    (same : more.filter Token.isConstant = tokens.filter Token.isConstant) :
    Reads more constants next code := by
  intro i mem index read
  rw [same]
  exact reads i mem index read

/-- Code that reads no variable. -/
theorem of_forall (none : ∀ i ∈ code, ∀ index, i.instruction ≠ .getGlobal index) :
    Reads tokens constants next code :=
  fun i mem index read => absurd read (none i mem index)

/-- Code of tokens further down is put behind. -/
theorem append (first : Reads tokens constants next code)
    (agree : tokens.countP Token.isConstant = constants.length)
    (second : Reads more literals (next + constants.length) others) :
    Reads (tokens ++ more) (constants ++ literals) next (code ++ others) := by
  intro i mem index read
  rw [List.filter_append]
  rcases List.mem_append.1 mem with mem | mem
  · obtain ⟨j, t, token, text, rest⟩ := first i mem index read
    refine ⟨j, t, ?_, ?_, rest⟩
    · rw [List.getElem?_append_left (List.getElem?_eq_some_iff.1 token).1, token]
    · rw [List.getElem?_append_left (List.getElem?_eq_some_iff.1 text).1, text]
  · obtain ⟨j, t, token, text, kind, line, number⟩ := second i mem index read
    rw [List.countP_eq_length_filter] at agree
    refine ⟨constants.length + j, t, ?_, ?_, kind, line, by rw [number, Nat.add_assoc]⟩
    · rw [← agree, List.getElem?_append_right (Nat.le_add_right ..), Nat.add_sub_cancel_left, token]
    · rw [List.getElem?_append_right (Nat.le_add_right ..), Nat.add_sub_cancel_left, text]

/-- Operations that read no variable are put behind. -/
theorem conclude (reads : Reads tokens constants next code)
    (none : ∀ i ∈ others, ∀ index, i.instruction ≠ .getGlobal index) :
    Reads tokens constants next (code ++ others) := by
  intro i mem index read
  rcases List.mem_append.1 mem with mem | mem
  · exact reads i mem index read
  · exact absurd read (none i mem index)

/-- A name that is no read is put in front. -/
theorem cons_name {name : Token} (kind : name.kind = .identifier)
    (reads : Reads tokens constants (next + 1) code) :
    Reads (name :: tokens) (.text name.text :: constants) next code := by
  have agree : [name].countP Token.isConstant = [Literal.text name.text].length := by
    simp [Token.isConstant, kind]
  have none : Reads [name] [.text name.text] next [] := of_forall (by simp)
  exact none.append agree reads

end Reads

/-- The operations of an operator read no global. -/
theorem BinaryOp.code_ne_getGlobal (op : BinaryOp) (line : Nat) :
    ∀ i ∈ op.code.map (TracedInstruction.mk · line), ∀ index, i.instruction ≠ .getGlobal index := by
  cases op <;> simp [code]

/-- **Every read in the code of an expression is that of one of its names.** -/
theorem Expr.Derives.reads {k : Precedence} {tokens : List Token} {e : Expr}
    (h : e.Derives k tokens) (range : ∀ t ∈ tokens, t.InRange) (next : Nat) :
    Reads tokens e.constants next (e.code next) := by
  induction h generalizing next with
  | @primary t e h =>
    cases h with
    | name kind =>
      intro i mem index read
      obtain rfl := List.mem_singleton.1 mem
      cases read
      exact ⟨0, t, by simp [Token.isConstant, kind], rfl, kind, rfl, rfl⟩
    | number =>
      unfold ofNumber
      split <;> exact .of_forall (by simp [code])
    | _ => exact .of_forall (by simp [code])
  | @group left right tokens e hl _ hr ih =>
    exact (ih (fun t mem => range t (by simp [mem])) next).of_filter
      (by simp [List.filter_append, Token.isConstant, hl, hr])
  | @unary t op tokens e kind operand ih =>
    have inner : Reads (t :: tokens) e.constants next (e.code next) :=
      (ih (fun u mem => range u (List.mem_cons_of_mem t mem)) next).of_filter
        (List.filter_cons_of_neg (by simp [UnaryOp.isConstant kind]))
    exact inner.conclude (by cases op <;> simp [UnaryOp.code])
  | @binary k t op left right l r kind precedence first second ihl ihr =>
    have agree := first.countP_eq fun u mem => range u (List.mem_append_left _ mem)
    have behind : Reads (t :: right) r.constants (next + l.constants.length) _ :=
      (ihr (fun u mem => range u (by simp [mem])) _).of_filter
        (List.filter_cons_of_neg (by simp [BinaryOp.isConstant kind]))
    have inner := (ihl (fun u mem => range u (List.mem_append_left _ mem)) next).append agree behind
    exact inner.conclude (op.code_ne_getGlobal _)
  | @assign name sign tokens e named equal value ih =>
    have inner : Reads (sign :: tokens) e.constants (next + 1) (e.code (next + 1)) :=
      (ih (fun t mem => range t (by simp [mem])) (next + 1)).of_filter
        (List.filter_cons_of_neg (by simp [Token.isConstant, equal]))
    exact (inner.cons_name named).conclude (by simp)
  | tighter _ ih => exact ih range next

/-- **Every read in the code of a declaration is that of one of its names.** -/
theorem Declaration.Derives.reads {tokens : List Token} {d : Declaration} (h : d.Derives tokens)
    (range : ∀ t ∈ tokens, t.InRange) (next : Nat) :
    Reads tokens d.constants next (d.code next) := by
  cases h with
  | define => exact .of_forall (by simp [code])
  | @initialise word name sign semicolon tokens e hw hn hsign value hs =>
    have inner : Reads (sign :: tokens ++ [semicolon]) e.constants (next + 1) _ :=
      (value.reads (fun t mem => range t (by simp [mem])) (next + 1)).of_filter
        (by simp [List.filter_append, Token.isConstant, hsign, hs])
    have named : Reads (word :: name :: (sign :: tokens ++ [semicolon]))
        (.text name.text :: e.constants) next (e.code (next + 1)) :=
      (inner.cons_name hn).of_filter (List.filter_cons_of_neg (by simp [Token.isConstant, hw]))
    exact named.conclude (by simp)
  | @print word semicolon tokens e hw value hs =>
    have inner : Reads (word :: tokens ++ [semicolon]) e.constants next (e.code next) :=
      (value.reads (fun t mem => range t (by simp [mem])) next).of_filter
        (by simp [List.filter_append, Token.isConstant, hw, hs])
    exact inner.conclude (by simp)
  | @expression semicolon tokens e value hs =>
    have inner : Reads (tokens ++ [semicolon]) e.constants next (e.code next) :=
      (value.reads (fun t mem => range t (by simp [mem])) next).of_filter
        (by simp [List.filter_append, Token.isConstant, hs])
    exact inner.conclude (by simp)

/-- **Every read in the code of some declarations is that of one of their names.** -/
theorem Declaration.DerivesAll.reads {tokens : List Token} {ds : List Declaration}
    (h : DerivesAll tokens ds) (range : ∀ t ∈ tokens, t.InRange) (next : Nat) :
    Reads tokens (ds.flatMap constants) next (codeOfList next ds) := by
  induction h generalizing next with
  | nil => exact nofun
  | @cons first others d ds derives _ ih =>
    have own : ∀ t ∈ first, t.InRange := fun t mem => range t (List.mem_append_left _ mem)
    exact (derives.reads own next).append (derives.countP_eq own)
      (ih (fun t mem => range t (List.mem_append_right _ mem)) _)

/-! ## Faults -/

namespace Machine

/-- A run of a chunk fails at a slot, when those in front of it have been executed. -/
structure FailsAt (m : Machine) (chunk : Chunk) (fault : RuntimeFault) (line : Nat)
    (executed : List Slot) (slot : Slot) : Prop where
  slots : ∃ others, chunk.slots = executed ++ slot :: others
  fails : ∃ ready after, runSlots chunk executed (m.begun chunk) = .running ready ∧
    runSlot chunk slot ready = .ended (.failed fault line) after

variable {chunk : Chunk} {slots : List Slot} {m after : Machine} {fault : RuntimeFault} {line : Nat}

/-- Where a run fails, the slots before the failing one were run. -/
theorem exists_failed_slot (failed : runSlots chunk slots m = .ended (.failed fault line) after) :
    ∃ executed slot others ready, slots = executed ++ slot :: others ∧
      runSlots chunk executed m = .running ready ∧
      runSlot chunk slot ready = .ended (.failed fault line) after := by
  induction slots generalizing m with
  | nil => cases failed
  | cons slot others ih =>
    rw [runSlots] at failed
    cases first : runSlot chunk slot m with
    | running m' =>
      rw [first] at failed
      obtain ⟨executed, slot', others, ready, rfl, running, ended⟩ := ih failed
      refine ⟨slot :: executed, slot', others, ready, rfl, ?_, ended⟩
      rw [runSlots, first]
      exact running
    | ended ending m' =>
      rw [first] at failed
      cases failed
      exact ⟨[], slot, others, m, rfl, rfl, first⟩

/-- The handle of a name is reported as that name. -/
theorem undefinedVariable_of_live {h : Handle} {stored : StoredString} {name : List Char}
    (live : m.pool.get? h = some stored) (eq : stored.bytes = Utf8.encode name) :
    m.undefinedVariable h = .undefinedVariable (String.ofList name) := by
  rw [undefinedVariable, live]
  show RuntimeFault.undefinedVariable (String.ofList (Utf8.lossy stored.bytes)) = _
  rw [eq, Utf8.lossy_encode]

/-- A read that finds nothing is reported with the name that it looked for. -/
theorem eq_of_failed_getGlobal {slot : Slot} {index : UInt8} {h : Handle} {stored : StoredString}
    {text : List Char} {name : String} (holds : slot.Holds ⟨.getGlobal index, line⟩)
    (constant : chunk.constants[index.toNat]? = some (.object h))
    (live : m.pool.get? h = some stored) (eq : stored.bytes = Utf8.encode text)
    (failed : runSlot chunk slot m = .ended (.failed (.undefinedVariable name) line) after) :
    name = String.ofList text := by
  rw [← pool_trace m chunk slot] at live
  rw [runSlot_of_holds holds] at failed
  have named := nameConstant_of_resolves constant (Option.isSome_iff_exists.2 ⟨stored, live⟩)
  simp only [step, named, bind, Except.bind] at failed
  unfold getGlobal at failed
  split at failed
  · rename_i v _
    by_cases free : (m.trace chunk slot).stack.values.length < (m.trace chunk slot).stack.limit
    · rw [push_of_lt v free] at failed
      cases failed
    · rw [push_of_le v (Nat.not_lt.1 free)] at failed
      cases failed
  · rw [undefinedVariable_of_live live eq] at failed
    cases failed
    rfl

end Machine

/-! ## The statements of a source -/

/-- Two numbers of constants that are the same operand are the same. -/
theorem UInt8.eq_of_ofNat_eq {m n : Nat} (small : m < 256) (small' : n < 256)
    (eq : UInt8.ofNat m = .ofNat n) : m = n := by
  have := congrArg UInt8.toNat eq
  rwa [UInt8.toNat_ofNat_of_lt' small, UInt8.toNat_ofNat_of_lt' small'] at this

/-- In related lists, what is behind a part of one is related to what has its number in the
other. -/
theorem exists_getElem?_of_forall₂ {α β : Type} {R : α → β → Prop} {above below : List α} {x : α}
    {ys : List β} (related : List.Forall₂ R (above ++ x :: below) ys) :
    ∃ y, ys[above.length]? = some y ∧ R x y := by
  have behind := List.forall₂_drop_append _ above (x :: below) related.flip
  obtain ⟨y, rest, own, -, drop⟩ := List.forall₂_cons_right_iff.1 behind
  exact ⟨y, by rw [← List.head?_drop, drop]; rfl, own⟩

section Source

open Statement

variable {source : String} {pool pool' : StringPool} {chunk : Chunk} {statements : List Statement}
  {literals : List Literal} {s : Statement} {i : TracedInstruction} {index : UInt8} {n : Nat}

/-- The statements of a source that was compiled, with the literals of its constants. -/
structure Sources (source : String) (chunk : Chunk) (pool : StringPool)
    (statements : List Statement) (literals : List Literal) : Prop where
  divide : Divide statements source chunk
  range : ∀ t ∈ (TokenStream.scan source.toList).tokens, t.InRange
  count : ((TokenStream.scan source.toList).tokens.filter Token.isConstant).length =
    literals.length
  reads : Reads (TokenStream.scan source.toList).tokens literals 0 (statements.flatMap (·.code))
  linked : Linked chunk.constants pool 0 literals

/-- A compiled source has the statements of its program, on their lines. -/
theorem exists_sources (compiled : compile source pool = (.ok chunk, pool')) :
    ∃ statements literals, Sources source chunk pool' statements literals := by
  obtain ⟨p, derives, -, -, code, linked⟩ := compile_eq_ok compiled
  obtain ⟨-, -, range, -⟩ := ParsedSource.derives_of_diagnostics_eq_nil
    (TokenStream.kind_ne_finish 1 source.toList)
    (compile_eq_ok_iff.1 (congrArg Prod.fst compiled)).1
  have declarations := derives.declarations
  obtain ⟨statements, inTurn, tokens, codes⟩ := declarations.exists_statements range 0
  refine ⟨statements, _, ⟨inTurn, tokens, ?_⟩, range, ?_, ?_, linked⟩
  · rw [code, codeAll, ← codes, ← derives.lastLine]
    rfl
  · rw [← List.countP_eq_length_filter]
    exact declarations.countP_eq range
  · exact codes ▸ declarations.reads range 0

/-- The read of a variable in a statement is that of one of its tokens: the one whose number among
the constants of the source is the operand. -/
theorem Sources.exists_token (sources : Sources source chunk pool statements literals)
    (owns : Owns statements n s) (at_ : (statements.flatMap (·.code))[n]? = some i)
    (read : i.instruction = .getGlobal index) :
    ∃ t ∈ s.tokens, t.kind = .identifier ∧ t.line = i.line ∧
      ((TokenStream.scan source.toList).tokens.filter Token.isConstant)[index.toNat]? = some t ∧
      ∃ h stored, chunk.constants[index.toNat]? = some (.object h) ∧ pool.get? h = some stored ∧
        stored.bytes = Utf8.encode t.text := by
  obtain ⟨j, t, token, text, kind, line, rfl⟩ :=
    sources.reads i (List.mem_of_getElem? at_) index read
  rw [Nat.zero_add] at *
  have few := sources.linked.few
  have j_lt := (List.getElem?_eq_some_iff.1 text).1
  have small : j < 256 := by
    rw [Chunk.maxConstants] at few
    omega
  rw [show (UInt8.ofNat j).toNat = j from UInt8.toNat_ofNat_of_lt' small]
  obtain ⟨v, constant, content⟩ := sources.linked.content j _ text
  obtain ⟨h, stored, rfl, live, eq⟩ := Value.eq_object_of_content? content
  rw [Nat.zero_add] at constant
  refine ⟨t, ?_, kind, line, token, h, stored, constant, live, eq⟩
  -- Counted from the tokens above the statement on, a token of the statement has the same number.
  have mem := owns.mem_code at_
  obtain ⟨above, below, rfl, -, -⟩ := owns
  obtain ⟨d, derives, code⟩ := sources.divide.inTurn.split
  have own : ∀ u ∈ s.tokens, u.InRange := fun u mem => sources.range u <| by
    rw [sources.divide.tokens]
    exact List.mem_flatMap.2 ⟨s, List.mem_append_right _ (List.mem_cons_self ..), mem⟩
  obtain ⟨k, u, found, -, -, -, number⟩ := derives.reads own _ i (code ▸ mem) _ read
  rw [Nat.zero_add, List.countP_eq_length_filter] at number
  have place : ((TokenStream.scan source.toList).tokens.filter Token.isConstant)[
      ((above.flatMap (·.tokens)).filter Token.isConstant).length + k]? = some u := by
    rw [sources.divide.tokens, List.flatMap_append, List.filter_append,
      List.getElem?_append_right (Nat.le_add_right ..), Nat.add_sub_cancel_left, List.flatMap_cons,
      List.filter_append, List.getElem?_append_left (List.getElem?_eq_some_iff.1 found).1, found]
  have inside := (List.getElem?_eq_some_iff.1 place).1
  rw [sources.count] at inside
  rw [Chunk.maxConstants] at few
  rw [← UInt8.eq_of_ofNat_eq small (by omega) number, token] at place
  cases place
  exact List.mem_of_mem_filter (List.mem_of_getElem? found)

/-- The slots of a source hold the code of its statements. -/
theorem Statement.Divide.holds (divide : Divide statements source chunk) :
    List.Forall₂ Slot.Holds chunk.slots
      (codeAll statements (TokenStream.scan source.toList).lastLine) := by
  rw [Chunk.slots, divide.code]
  exact Slot.forall₂_holds_slotsFrom ..

/-- A slot of a source holds the instruction of its number: the end of the run, or one of a
statement. -/
theorem Sources.exists_holds (sources : Sources source chunk pool statements literals)
    {executed others : List Slot} {slot : Slot} (slots : chunk.slots = executed ++ slot :: others) :
    ∃ i, slot.Holds i ∧
      (executed.length + 1 = chunk.slots.length ∧ i.instruction = .finish ∨
        ∃ s, Owns statements executed.length s ∧
          (statements.flatMap (·.code))[executed.length]? = some i) := by
  have holds := sources.divide.holds
  have length := holds.length_eq
  rw [codeAll, List.length_append, List.length_singleton] at length
  obtain ⟨i, at_, own⟩ := exists_getElem?_of_forall₂ (slots ▸ holds)
  refine ⟨i, own, ?_⟩
  rw [codeAll] at at_
  by_cases inside : executed.length < (statements.flatMap (·.code)).length
  · obtain ⟨s, owns⟩ := exists_owns inside
    rw [List.getElem?_append_left inside] at at_
    exact .inr ⟨s, owns, at_⟩
  · have last : executed.length = (statements.flatMap (·.code)).length := by
      have := (List.getElem?_eq_some_iff.1 at_).1
      rw [List.length_append, List.length_singleton] at this
      omega
    rw [last, List.getElem?_append_right (Nat.le_refl _), Nat.sub_self] at at_
    cases at_
    exact .inl ⟨by omega, rfl⟩

/-- The code of a statement is not above its first token and not below its semicolon. -/
theorem Statement.Divide.between (divide : Divide statements source chunk) (mem : s ∈ statements)
    (found : i ∈ s.code) :
    (∃ first ∈ s.tokens.head?, first.line ≤ i.line) ∧
      ∃ semicolon ∈ s.tokens.getLast?, semicolon.kind = .semicolon ∧
        i.line ≤ semicolon.line := by
  obtain ⟨order, lines⟩ := divide.linesFrom_of_mem mem
  obtain ⟨t, own, line⟩ := lines.traced i found
  obtain ⟨above, below, rfl⟩ := List.append_of_mem mem
  obtain ⟨d, derives, -⟩ := divide.inTurn.split
  constructor
  · obtain ⟨first, rest, eq, -⟩ := derives.exists_head
    refine ⟨first, by rw [eq]; rfl, ?_⟩
    rw [eq] at order own
    rcases List.mem_cons.1 own with rfl | own
    · exact Nat.le_of_eq line
    · exact line ▸ List.rel_of_pairwise_cons order own
  · obtain ⟨init, semicolon, eq, kind⟩ := derives.exists_last
    have ends : s.tokens.getLast? = some semicolon := by rw [eq, List.getLast?_concat]
    exact ⟨semicolon, ends, kind, line ▸ order.le_last ends t own⟩

/-- The end of a run that failed, slot by slot. -/
theorem Sources.exists_failsAt (sources : Sources source chunk pool statements literals)
    {m after : Machine} {fault : RuntimeFault} {line : Nat}
    (failed : (m.begun chunk).run chunk = (.failed fault line, after)) :
    ∃ executed slot, m.FailsAt chunk fault line executed slot := by
  have holds := sources.divide.holds
  unfold Machine.run at failed
  cases ran : Machine.runSlots chunk chunk.slots (m.begun chunk) with
  | running ready => exact absurd ran (Machine.runSlots_ne_running holds)
  | ended ending last =>
    rw [ran] at failed
    cases failed
    obtain ⟨executed, slot, others, ready, slots, running, ended⟩ :=
      Machine.exists_failed_slot ran
    exact ⟨executed, slot, ⟨others, slots⟩, ready, after, running, ended⟩

end Source

/-! ## Main statement -/

open Statement in
/-- **A fault names a line of the statement that fails.** The code of a source that is accepted is
that of its statements in turn. Its lines are in order and between 1 and one more than the source
has line ends; all bytes of an instruction are on one line, and every byte of a statement is on the
line of one of its tokens. So whatever machine it is run on, a fault is reported with the line of
the first byte of the instruction that fails; and unless that is the end of the run, this is
neither above the first token of the statement that it belongs to nor below its semicolon, and
where a variable is read, it is the line of the token with its name. -/
theorem fault_names_line_of_statement {source : String} {pool pool' : StringPool} {chunk : Chunk}
    (compiled : compile source pool = (.ok chunk, pool')) :
    ∃ statements, Divide statements source chunk ∧
      chunk.code.Pairwise (·.line ≤ ·.line) ∧
      (∀ b ∈ chunk.code, 1 ≤ b.line ∧ b.line ≤ 1 + lineEnds source.toList) ∧
      (∀ slot ∈ chunk.slots, ∀ offset, slot.offset ≤ offset → offset < slot.next →
        chunk.lineAt offset = slot.line) ∧
      (∀ s ∈ statements, ∀ b ∈ s.code.flatMap (·.bytes), ∃ t ∈ s.tokens, t.line = b.line) ∧
      ∀ (m after : Machine) (fault : RuntimeFault) (line : Nat),
        (m.begun chunk).run chunk = (.failed fault line, after) →
        m.Reports [Machine.faultText fault line] (m.interpretChunk chunk).2 ∧
        ∃ executed slot, m.FailsAt chunk fault line executed slot ∧
          chunk.lineAt slot.offset = line ∧
          (executed.length + 1 = chunk.slots.length ∧ slot.content = .instruction .finish ∨
            ∃ s, Owns statements executed.length s ∧
              (∃ first ∈ s.tokens.head?, first.line ≤ line) ∧
              (∃ semicolon ∈ s.tokens.getLast?, semicolon.kind = .semicolon ∧
                line ≤ semicolon.line) ∧
              ∀ index, slot.content = .instruction (.getGlobal index) →
                ∃ t ∈ s.tokens, t.kind = .identifier ∧ t.line = line ∧
                  ((TokenStream.scan source.toList).tokens.filter
                    Token.isConstant)[index.toNat]? = some t ∧
                  ∀ name, fault = .undefinedVariable name → pool'.Grows m.pool →
                    name = String.ofList t.text) := by
  obtain ⟨statements, literals, sources⟩ := exists_sources compiled
  have divide := sources.divide
  refine ⟨statements, divide, divide.lines.1, divide.lines.2,
    fun slot mem offset le lt => divide.lineAt_of_mem mem le lt,
    fun s mem => (divide.linesFrom_of_mem mem).2.bytes.2, ?_⟩
  intro m after fault line failed
  have reports := m.reports_interpretChunk chunk
  rw [failed] at reports
  obtain ⟨executed, slot, fails⟩ := sources.exists_failsAt failed
  obtain ⟨others, slots⟩ := fails.slots
  obtain ⟨ready, last, running, ended⟩ := fails.fails
  have mem : slot ∈ chunk.slots := by
    rw [slots]
    exact List.mem_append_right _ (List.mem_cons_self ..)
  obtain ⟨i, holds, place⟩ := sources.exists_holds slots
  have read : line = i.line := (Machine.line_of_failed ended).trans holds.lastLine
  refine ⟨reports, executed, slot, fails, ?_, ?_⟩
  · have own : slot.lastLine = slot.line := by
      rw [Chunk.slots, divide.code] at mem
      exact Slot.lastLine_of_mem mem
    rw [divide.lineAt_of_mem mem (Nat.le_refl _) (Slot.offset_lt_next slot), ← own,
      holds.lastLine, read]
  · rcases place with ⟨count, finish⟩ | ⟨s, owns, at_⟩
    · exact .inl ⟨count, finish ▸ holds.content⟩
    · refine .inr ⟨s, owns, ?_⟩
      rw [read]
      obtain ⟨first, semicolon⟩ := divide.between owns.mem (owns.mem_code at_)
      refine ⟨first, semicolon, fun index content => ?_⟩
      have getGlobal : i.instruction = .getGlobal index :=
        Slot.Content.instruction.inj (holds.content.symm.trans content)
      obtain ⟨t, own, kind, line', token, h, stored, constant, live, eq⟩ :=
        sources.exists_token owns at_ getGlobal
      refine ⟨t, own, kind, line', token, ?_⟩
      rintro name rfl grown
      -- No string is lost on the way to the read, so its handle still stands for the name.
      have gathers := (Machine.proceeds_runSlots chunk executed (m.begun chunk)).gathers
      rw [running] at gathers
      exact Machine.eq_of_failed_getGlobal ⟨content, holds.lastLine.trans read.symm⟩ constant
        (gathers.grows.get? (grown.get? live)) eq ended

/-- The name of a variable that is nowhere defined is on the third line of its statement: its line
is reported, not that of the keyword or of the semicolon. -/
theorem fault_names_line_of_statement_name :
    ∃ chunk pool, compile "var a = 1; print\n a +\n b\n ;" .empty = (.ok chunk, pool) ∧
      ∃ m : Machine, m.pool = pool ∧
        m.Reports ["Undefined variable 'b'.\n[line 3] in script"] (m.interpretChunk chunk).2 ∧
        ∃ executed slot, m.FailsAt chunk (.undefinedVariable "b") 3 executed slot ∧
          chunk.lineAt slot.offset = 3 := by
  have compiled : compile "var a = 1; print\n a +\n b\n ;" .empty =
      (.ok _, (compile "var a = 1; print\n a +\n b\n ;" .empty).2) :=
    Prod.ext (compile_eq_ok_iff.2 ⟨by decide +kernel, rfl⟩) rfl
  obtain ⟨_, -, -, -, -, -, faults⟩ := fault_names_line_of_statement compiled
  let m : Machine := { Machine.create ⟨256, false⟩ .unlimited .unlimited with
    pool := (compile "var a = 1; print\n a +\n b\n ;" .empty).2 }
  obtain ⟨reports, executed, slot, fails, line, -⟩ :=
    faults m _ (.undefinedVariable "b") 3 (Prod.ext (by decide +kernel) rfl)
  exact ⟨_, _, compiled, m, rfl, reports, executed, slot, fails, line⟩

end StackScript
