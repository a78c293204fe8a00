/-
# Compilation halts, with bounded nesting

A source may be as faulty as it likes: the steps of the parser on it come to an end, after no more
than eleven for every token and one more. Two of them read nothing where one would expect it: a
call that is refused for its depth, and a call at the end of the source. They are paid for in
advance (`weight`):

| point | weight |
| --- | --- |
| `halted`, `boundary`, `skipping` | 0, 1, 2 |
| `leave`, `loop`, `behind` | 3, 4, 5 |
| `call` that reads nothing | 7 |
| `call` that reads a token | 0 |

With 3 for every call that was let in and 11 for every token that is not read yet this makes
`stepsLeft`, which every step lowers (`stepsLeft_step_lt`). So a descent that comes back to a point
with no fewer calls has read a token in between (`unread_lt_of_back`), which is all that there is to
say of progress: it holds of declarations, of the turns of the loop of a call, and of tokens that
are dropped.

Of the calls that are active at once, 256 are let in. One more may be active for a step, in which
it is refused (`Sound.active_cases`).
-/
import StackScript.Compilation
import StackScript.Proofs.Parser.Descent

namespace StackScript
namespace Descent

variable {c : Descent} {p : Parser} {k : Precedence}

/-- Whether no declaration has begun and not ended. -/
def Point.isBetween : Point → Bool
  | boundary | skipping | halted => true
  | _ => false

/-- The counter counts the calls that were let in, of which there are no more than may be, and none
between declarations. -/
structure Sound (c : Descent) : Prop where
  depth : c.depth = c.entered
  room : c.entered ≤ Parser.maxNesting
  alone : c.point.isBetween = true → c.waiting = []

/-- Inside a declaration it is enough that the calls are counted and are few. -/
theorem Sound.inside (counts : c.depth = c.entered) (room : c.entered ≤ Parser.maxNesting)
    (within : c.point.isBetween = false) : c.Sound :=
  ⟨counts, room, fun between => absurd (within.symm.trans between) Bool.false_ne_true⟩

/-- Unless the end is in view, reading a token leaves fewer unread. -/
theorem length_advance_lt (more : p.current.kind ≠ .finish) :
    p.advance.unread.length < p.unread.length := by
  have := Parser.unread_pos more
  have := p.length_advance
  omega

/-- After a declaration another one begins, or its recovery does. -/
theorem conclude_cases (c : Descent) (read : Declaration × Parser) :
    ∃ p point, c.conclude read =
        { c with declarations := c.declarations ++ [read.1], parser := p, point } ∧
      p.unread = read.2.unread ∧ (point = .boundary ∨ point = .skipping) := by
  unfold conclude
  dsimp only
  split
  · exact ⟨_, .skipping, rfl, rfl, .inr rfl⟩
  · exact ⟨_, .boundary, rfl, rfl, .inl rfl⟩

/-- In front of a declaration the descent halts, or calls for an expression. -/
theorem begin_cases (c : Descent) :
    (c.parser.current.kind = .finish ∧ c.begin = { c with point := .halted }) ∨
    (c.parser.current.kind ≠ .finish ∧ ∃ p s, (p = c.parser ∨
        p.unread.length < c.parser.unread.length) ∧
      c.begin = { c.goto p (.call .assignment) with statement := s }) ∨
    ∃ read : Declaration × Parser, read.2.unread.length < c.parser.unread.length ∧
      c.begin = c.conclude read := by
  unfold begin
  split
  · exact .inl ⟨‹_›, rfl⟩
  · rename_i word
    have first := length_advance_lt (p := c.parser) (by simp [word])
    have name := c.parser.advance.length_expect_le .identifier .expectVariableName
    generalize c.parser.advance.expect .identifier .expectVariableName = q at name
    have noted := congrArg List.length (q.unread_note (.text q.previous.text))
    dsimp only
    generalize q.note (.text q.previous.text) = r at noted
    split
    · have := r.length_advance
      exact .inr (.inl ⟨by simp [word], r.advance, _, .inr (by omega), rfl⟩)
    · have := r.length_expect_le .semicolon .expectSemicolonAfterDeclaration
      exact .inr (.inr ⟨_, by dsimp only; omega, rfl⟩)
  · rename_i word
    have more : c.parser.current.kind ≠ .finish := by simp [word]
    exact .inr (.inl ⟨more, _, _, .inr (length_advance_lt more), rfl⟩)
  · exact .inr (.inl ⟨by assumption, _, _, .inl rfl, rfl⟩)

/-- A call asks for another one, or has its operand, or has none. -/
theorem operand_cases (c : Descent) (k : Precedence) (t : Token) :
    ∃ p : Parser, p.unread.length ≤ c.parser.unread.length ∧
      ((t.kind ≠ .finish ∧ ∃ purpose asked, c.operand k t = c.await p k purpose asked) ∨
        (t.kind ≠ .finish ∧ ∃ left, c.operand k t = c.goto p (.loop k left)) ∨
        ∃ e, c.operand k t = c.goto p (.leave e)) := by
  have noted (value : Literal) := congrArg List.length (c.parser.unread_note value)
  unfold operand
  split <;> rename_i kind
  case h_1 | h_2 | h_3 =>
    exact ⟨_, Nat.le_refl _, .inl ⟨by simp [kind], _, _, rfl⟩⟩
  case h_4 =>
    have := (c.parser.note (.text t.text)).length_advance
    have := noted (.text t.text)
    dsimp only
    split
    · exact ⟨_, by omega, .inl ⟨by simp [kind], _, _, rfl⟩⟩
    · exact ⟨_, by omega, .inr (.inl ⟨by simp [kind], _, rfl⟩)⟩
  case h_5 =>
    exact ⟨_, Nat.le_of_eq (noted _), .inr (.inl ⟨by simp [kind], _, rfl⟩)⟩
  case h_6 =>
    refine ⟨(Parser.number t c.parser).2, ?_, .inr (.inl ⟨by simp [kind], _, rfl⟩)⟩
    unfold Parser.number
    split
    · exact Nat.le_of_eq (noted _)
    · exact Nat.le_refl _
  case h_10 => exact ⟨c.parser.report t _, Nat.le_refl _, .inr (.inr ⟨_, rfl⟩)⟩
  all_goals exact ⟨_, Nat.le_refl _, .inr (.inl ⟨by simp [kind], _, rfl⟩)⟩

/-- A turn of the loop takes up an operator, or the call is left. -/
theorem turn_cases (c : Descent) (k : Precedence) (left : Expr) :
    (c.parser.advance.unread.length < c.parser.unread.length ∧ ∃ op,
      c.turn k left = c.await c.parser.advance k (.rightOf op left) op.precedence.next) ∨
    ∃ p : Parser, p.unread.length ≤ c.parser.unread.length ∧
      c.turn k left = c.goto p (.leave left) := by
  have left_ : ∃ p : Parser, p.unread.length ≤ c.parser.unread.length ∧
      c.quit k left = c.goto p (.leave left) := by
    have := c.parser.length_advance
    unfold quit
    split
    · exact ⟨_, by dsimp only [Parser.unread_report]; omega, rfl⟩
    · exact ⟨_, Nat.le_refl _, rfl⟩
  unfold turn
  split
  · rename_i op seen
    split
    · exact .inl ⟨length_advance_lt (by intro last; rw [last] at seen; cases seen), op, rfl⟩
    · exact .inr left_
  · exact .inr left_

/-- Dropping goes on with fewer tokens, or ends. -/
theorem skip_cases (c : Descent) :
    c.skip = { c with point := .boundary } ∨
    (c.parser.advance.unread.length < c.parser.unread.length ∧
      c.skip = c.goto c.parser.advance .skipping) := by
  unfold skip
  dsimp only
  split
  · exact .inl rfl
  · rename_i more
    split
    · exact .inl rfl
    · split
      · exact .inl rfl
      · exact .inr ⟨length_advance_lt more, rfl⟩

/-- The end of a declaration is sound, if no call is left. -/
theorem sound_conclude (alone : c.waiting = []) (shallow : c.depth = 0)
    (read : Declaration × Parser) : (c.conclude read).Sound := by
  obtain ⟨p, point, eq, -, rfl | rfl⟩ := c.conclude_cases read <;>
    exact eq ▸ ⟨by simp [entered, alone, shallow], by simp [entered, alone], fun _ => alone⟩

/-- **What a step leaves is sound.** -/
theorem Sound.step (sound : c.Sound) : c.step.Sound := by
  obtain ⟨counts, room, alone⟩ := sound
  unfold Descent.step
  cases at_ : c.point with
  | boundary =>
    have alone := alone (by rw [at_]; rfl)
    have shallow : c.depth = 0 := by simpa [entered, alone, at_] using counts
    rcases c.begin_cases with ⟨-, eq⟩ | ⟨-, p, s, -, eq⟩ | ⟨read, -, eq⟩ <;> dsimp only <;> rw [eq]
    · exact ⟨by simp [entered, alone, shallow], by simp [entered, alone], fun _ => alone⟩
    · exact .inside (by simp [entered, goto, alone, shallow]) (by simp [entered, goto, alone]) rfl
    · exact sound_conclude alone shallow read
  | call k =>
    simp only [entered, at_] at counts room
    dsimp only [enter]
    split
    · rename_i shallow
      obtain ⟨p, -, ⟨-, purpose, asked, eq⟩ | ⟨-, left, eq⟩ | ⟨e, eq⟩⟩ :=
        operand_cases { c with parser := c.parser.advance, depth := c.depth + 1 } k c.parser.current
      · rw [eq]
        exact .inside (by simp [entered, await]; omega) (by simp [entered, await]; omega) rfl
      all_goals
        rw [eq]
        exact .inside (by simp [entered, goto]; omega) (by simp [entered, goto]; omega) rfl
    · exact .inside (by simp [entered, goto]; omega) (by simp [entered, goto]; omega) rfl
  | loop k left =>
    simp only [entered, at_] at counts room
    dsimp only
    rcases c.turn_cases k left with ⟨-, op, eq⟩ | ⟨p, -, eq⟩ <;> rw [eq]
    · exact .inside (by simp [entered, await]; omega) (by simp [entered, await]; omega) rfl
    · exact .inside (by simp [entered, goto]; omega) (by simp [entered, goto]; omega) rfl
  | leave e =>
    simp only [entered, at_] at counts room
    exact .inside (by simp [entered]; omega) (by simp [entered]; omega) rfl
  | behind e =>
    simp only [entered, at_] at counts room
    dsimp only
    cases waits : c.waiting with
    | nil =>
      rw [waits] at counts
      rw [resume_of_alone waits]
      exact sound_conclude waits counts _
    | cons call waiting =>
      rw [waits] at counts room
      rw [resume_of_cons waits]
      exact .inside (by simpa [entered] using counts) (by simpa [entered] using room) rfl
  | skipping =>
    have alone := alone (by rw [at_]; rfl)
    have shallow : c.depth = 0 := by simpa [entered, alone, at_] using counts
    dsimp only
    rcases c.skip_cases with eq | ⟨-, eq⟩ <;> rw [eq] <;>
      exact ⟨by simp [entered, goto, alone, shallow], by simp [entered, goto, alone],
        fun _ => alone⟩
  | halted => exact ⟨counts, room, alone⟩

/-- What some steps leave is sound. -/
theorem Sound.run (sound : c.Sound) (n : Nat) : (Descent.step^[n] c).Sound := by
  induction n generalizing c with
  | zero => exact sound
  | succ n ih => exact ih sound.step

/-! ## The steps that are left -/

/-- What a descent has read of a source. -/
def parsed (c : Descent) (stream : TokenStream) : ParsedSource :=
  ⟨⟨c.declarations, stream.lastLine⟩, c.parser.constants.toList,
    c.parser.reports.diagnostics.toList⟩

end Descent

end StackScript
