/-
# Printing

A print offers the output two texts, a rendering and a line end, up to the first that is
refused. What comes of texts that are offered in turn is the same for a print and for a run
(`Sink.writeAll`):

| | output | printed |
| --- | --- | --- |
| all accepted (`Sink.Takes`) | was offered all | all |
| one refused | was offered no text behind it | those before it |

So runs that print are put one behind the other as their texts are (`Prints.trans`). The stack,
the globals and the strings stay as they are when a text is printed.
-/
import StackScript.Proofs.Machine.Report

namespace StackScript
namespace Sink

/-- Writes some texts in turn, up to the first that is refused. Answers the accepted ones. -/
def writeAll (s : Sink) : List String → List String × Sink
  | [] => ([], s)
  | text :: others =>
    let (refusal, after) := s.write text
    if refusal.isNone then
      let (taken, last) := after.writeAll others
      (text :: taken, last)
    else ([], after)

/-- Why the first refused of some texts is refused, if they are offered in turn; `none` if
none is. -/
def refusalAll? (s : Sink) : List String → Option String
  | [] => none
  | text :: others =>
    let (refusal, after) := s.write text
    if refusal.isNone then after.refusalAll? others else refusal

/-- Some texts are all accepted if they are offered in turn. -/
def Takes (s : Sink) (texts : List String) : Prop :=
  (s.writeAll texts).1 = texts

variable {s : Sink} {text why : String} {texts others : List String}

/-- No texts are accepted by every sink. -/
theorem takes_nil (s : Sink) : s.Takes [] :=
  rfl

/-- Behind an accepted text the others are offered. -/
theorem writeAll_cons_of_accepted (accepted : (s.write text).1 = none) :
    s.writeAll (text :: others) = (text :: ((s.write text).2.writeAll others).1,
      ((s.write text).2.writeAll others).2) := by
  rw [writeAll]
  dsimp only
  rw [accepted, if_pos Option.isNone_none]

/-- Behind a refused text no other is offered. -/
theorem writeAll_cons_of_refused (refused : (s.write text).1 = some why) :
    s.writeAll (text :: others) = ([], (s.write text).2) := by
  rw [writeAll]
  dsimp only
  rw [refused]
  rfl

/-- Behind an accepted text the others say whether one is refused. -/
theorem refusalAll?_cons_of_accepted (accepted : (s.write text).1 = none) :
    s.refusalAll? (text :: others) = (s.write text).2.refusalAll? others := by
  rw [refusalAll?]
  dsimp only
  rw [accepted, if_pos Option.isNone_none]

/-- A refused text says why. -/
theorem refusalAll?_cons_of_refused (refused : (s.write text).1 = some why) :
    s.refusalAll? (text :: others) = some why := by
  rw [refusalAll?]
  dsimp only
  rw [refused]
  rfl

/-- Texts are all accepted if the first is, and then the others are. -/
theorem takes_cons :
    s.Takes (text :: others) ↔ (s.write text).1 = none ∧ (s.write text).2.Takes others := by
  cases written : (s.write text).1 with
  | none =>
    rw [Takes, writeAll_cons_of_accepted written, List.cons.injEq, and_iff_right rfl,
      and_iff_right rfl, Takes]
  | some why =>
    rw [Takes, writeAll_cons_of_refused written]
    exact ⟨nofun, nofun⟩

/-- Texts are all accepted if there is no reason for a refusal. -/
theorem takes_iff : s.Takes texts ↔ s.refusalAll? texts = none := by
  induction texts generalizing s with
  | nil => exact iff_of_true s.takes_nil rfl
  | cons text others ih =>
    rw [takes_cons, ih]
    cases written : (s.write text).1 with
    | none => rw [refusalAll?_cons_of_accepted written, and_iff_right rfl]
    | some why =>
      rw [refusalAll?_cons_of_refused written]
      exact iff_of_false (fun both => Option.some_ne_none why both.1) (Option.some_ne_none why)

/-- If not all texts are accepted, there is a reason. -/
theorem exists_refusalAll? (refused : ¬ s.Takes texts) :
    ∃ why, s.refusalAll? texts = some why :=
  Option.ne_none_iff_exists'.1 (refused <| takes_iff.2 ·)

/-- If there is a reason for a refusal, not all texts are accepted. -/
theorem not_takes (refused : s.refusalAll? texts = some why) : ¬ s.Takes texts := by
  rw [takes_iff, refused]
  exact Option.some_ne_none why

/-- One text leaves the sink as it does by itself. -/
theorem writeAll_singleton (s : Sink) (text : String) :
    s.writeAll [text] = (if (s.write text).1.isNone then [text] else [], (s.write text).2) := by
  cases written : (s.write text).1 with
  | none => exact writeAll_cons_of_accepted written
  | some why => exact writeAll_cons_of_refused written

/-- One text is refused for the reason that it is refused for by itself. -/
theorem refusalAll?_singleton (s : Sink) (text : String) :
    s.refusalAll? [text] = (s.write text).1 := by
  cases written : (s.write text).1 with
  | none => exact refusalAll?_cons_of_accepted written
  | some why => exact refusalAll?_cons_of_refused written

/-- Texts behind accepted ones are offered in their turn. -/
theorem writeAll_append_of_takes (taken : s.Takes texts) :
    s.writeAll (texts ++ others) = (texts ++ ((s.writeAll texts).2.writeAll others).1,
      ((s.writeAll texts).2.writeAll others).2) := by
  induction texts generalizing s with
  | nil => rfl
  | cons text texts ih =>
    obtain ⟨accepted, taken⟩ := takes_cons.1 taken
    rw [List.cons_append, writeAll_cons_of_accepted accepted, writeAll_cons_of_accepted accepted,
      ih taken]
    rfl

/-- Texts behind a refused one are not offered. -/
theorem writeAll_append_of_not_takes (refused : ¬ s.Takes texts) :
    s.writeAll (texts ++ others) = s.writeAll texts := by
  induction texts generalizing s with
  | nil => exact absurd s.takes_nil refused
  | cons text texts ih =>
    cases written : (s.write text).1 with
    | none =>
      have behind : ¬ (s.write text).2.Takes texts := fun taken =>
        refused (takes_cons.2 ⟨written, taken⟩)
      rw [List.cons_append, writeAll_cons_of_accepted written, writeAll_cons_of_accepted written,
        ih behind]
    | some why =>
      rw [List.cons_append, writeAll_cons_of_refused written, writeAll_cons_of_refused written]

/-- **The first refusal of some texts and then others.** -/
theorem refusalAll?_append :
    s.refusalAll? (texts ++ others) =
      (s.refusalAll? texts).or ((s.writeAll texts).2.refusalAll? others) := by
  induction texts generalizing s with
  | nil => rfl
  | cons text texts ih =>
    cases written : (s.write text).1 with
    | none =>
      rw [List.cons_append, refusalAll?_cons_of_accepted written,
        refusalAll?_cons_of_accepted written, writeAll_cons_of_accepted written, ih]
    | some why =>
      rw [List.cons_append, refusalAll?_cons_of_refused written,
        refusalAll?_cons_of_refused written]
      rfl

/-- Texts are all accepted if the first ones are, and then the others are. -/
theorem takes_append :
    s.Takes (texts ++ others) ↔ s.Takes texts ∧ (s.writeAll texts).2.Takes others := by
  rw [takes_iff, takes_iff, takes_iff, refusalAll?_append, Option.or_eq_none_iff]

/-- The accepted texts are the first of those that are offered. -/
theorem writeAll_isPrefix (s : Sink) (texts : List String) : (s.writeAll texts).1 <+: texts := by
  induction texts generalizing s with
  | nil => exact List.prefix_rfl
  | cons text others ih =>
    cases written : (s.write text).1 with
    | none =>
      rw [writeAll_cons_of_accepted written, List.prefix_cons_inj]
      exact ih _
    | some why =>
      rw [writeAll_cons_of_refused written]
      exact List.nil_prefix

/-- A text that is refused is not empty, and was offered. -/
theorem offered_of_refused (refused : (s.write text).1 = some why) :
    text ≠ "" ∧ s.refusal? s.offered text = some why ∧
      (s.write text).2.offered = text :: s.offered := by
  unfold write at refused ⊢
  split at refused
  · cases refused
  · rename_i full
    rw [if_neg full]
    refine ⟨?_, refused, rfl⟩
    rintro rfl
    exact full rfl

/-- Why a sink refuses texts does not depend on what it was offered. -/
theorem refusal?_write (s : Sink) (text : String) : (s.write text).2.refusal? = s.refusal? := by
  unfold write
  split <;> rfl

/-- **Of texts that are not all accepted, the first refused one is the last that is offered,**
and the reason is the one that the sink gives for it. -/
theorem exists_refused (refused : s.refusalAll? texts = some why) :
    ∃ text behind offered, texts = (s.writeAll texts).1 ++ text :: behind ∧ text ≠ "" ∧
      s.refusal? offered text = some why ∧ (s.writeAll texts).2.offered = text :: offered := by
  induction texts generalizing s with
  | nil => cases refused
  | cons text others ih =>
    cases written : (s.write text).1 with
    | none =>
      rw [refusalAll?_cons_of_accepted written] at refused
      obtain ⟨last, behind, offered, cut, full, refuses, ends⟩ := ih refused
      rw [writeAll_cons_of_accepted written]
      rw [refusal?_write] at refuses
      exact ⟨last, behind, offered, congrArg (text :: ·) cut, full, refuses, ends⟩
    | some why' =>
      rw [refusalAll?_cons_of_refused written, Option.some.injEq] at refused
      subst refused
      obtain ⟨full, refuses, ends⟩ := offered_of_refused written
      rw [writeAll_cons_of_refused written]
      exact ⟨text, others, s.offered, rfl, full, refuses, ends⟩

/-- An output accepts later what it would have accepted at first. -/
@[simp] theorem accepts_writeAll (s : Sink) (texts : List String) :
    (s.writeAll texts).2.accepts = s.accepts := by
  induction texts generalizing s with
  | nil => rfl
  | cons text others ih =>
    cases written : (s.write text).1 with
    | none => rw [writeAll_cons_of_accepted written, ih, accepts_write]
    | some why => rw [writeAll_cons_of_refused written, accepts_write]

/-- An output that accepts all takes any texts. -/
theorem AcceptsAll.takes (accepting : s.AcceptsAll) (texts : List String) : s.Takes texts := by
  induction texts generalizing s with
  | nil => exact takes_nil s
  | cons text others ih =>
    exact takes_cons.2 ⟨accepting.write text, ih (accepting.of_eq (s.accepts_write text))⟩

end Sink

/-- Some texts one after the other, in bytes. -/
def textBytes (texts : List String) : List UInt8 :=
  texts.flatMap fun text => Utf8.encode text.toList

/-- The bytes of texts follow one another. -/
theorem textBytes_append (texts others : List String) :
    textBytes (texts ++ others) = textBytes texts ++ textBytes others :=
  List.flatMap_append

/-- A rendering and a line end make a line. -/
theorem textBytes_line (text : String) : textBytes [text, "\n"] = lineBytes text := by
  rw [lineBytes, Utf8.encode_append, textBytes, List.flatMap_cons, List.flatMap_singleton]
  rfl

namespace Machine

/-- Some texts were offered to the output in turn, and the accepted ones were printed. -/
structure Prints (m : Machine) (texts : List String) (after : Machine) : Prop where
  output : after.output = (m.output.writeAll texts).2
  printed : after.printed = m.printed ++ textBytes (m.output.writeAll texts).1

namespace Prints

variable {m a b : Machine} {texts others : List String}

/-- Without texts nothing is printed. -/
theorem refl (m : Machine) : m.Prints [] m :=
  ⟨rfl, (List.append_nil _).symm⟩

/-- What is printed does not depend on anything else. -/
theorem congr (prints : m.Prints texts a) (output : b.output = a.output)
    (printed : b.printed = a.printed) : m.Prints texts b :=
  ⟨output.trans prints.output, printed.trans prints.printed⟩

/-- What is not observed may change behind what is printed. -/
theorem quiet (prints : m.Prints texts a) (quiet : a.Quiet b) : m.Prints texts b :=
  prints.congr quiet.output quiet.printed

/-- More is printed behind texts that were all accepted. -/
theorem trans (first : m.Prints texts a) (taken : m.output.Takes texts)
    (second : a.Prints others b) : m.Prints (texts ++ others) b where
  output := by rw [second.output, first.output, Sink.writeAll_append_of_takes taken]
  printed := by
    rw [second.printed, first.printed, first.output, Sink.writeAll_append_of_takes taken,
      textBytes_append, List.append_assoc]
    exact congrArg (fun texts => m.printed ++ (textBytes texts ++ _)) taken

/-- No more is printed behind a refused text. -/
theorem append (prints : m.Prints texts a) (refused : ¬ m.output.Takes texts)
    (others : List String) : m.Prints (texts ++ others) a where
  output := by rw [prints.output, Sink.writeAll_append_of_not_takes refused]
  printed := by rw [prints.printed, Sink.writeAll_append_of_not_takes refused]

/-- If all texts are accepted, all are printed. -/
theorem printed_of_takes (prints : m.Prints texts a) (taken : m.output.Takes texts) :
    a.printed = m.printed ++ textBytes texts := by
  rw [prints.printed, show (m.output.writeAll texts).1 = texts from taken]

/-- An output that accepts everything goes on to do so. -/
theorem acceptsAll (prints : m.Prints texts a) (accepting : m.output.AcceptsAll) :
    a.output.AcceptsAll :=
  accepting.of_eq (by rw [prints.output, Sink.accepts_writeAll])

/-- What is printed is a prefix of the texts. -/
theorem isPrefix (prints : m.Prints texts a) : a.printed <+: m.printed ++ textBytes texts := by
  obtain ⟨refused, cut⟩ := m.output.writeAll_isPrefix texts
  have bytes := textBytes_append (m.output.writeAll texts).1 refused
  rw [cut] at bytes
  rw [prints.printed, bytes, ← List.append_assoc]
  exact List.prefix_append ..

end Prints

/-! ## Single prints -/

/-- A text is offered to the output. -/
theorem output_print (m : Machine) (text : String) :
    (m.print text).2.output = (m.output.write text).2 := by
  unfold print
  dsimp only
  split <;> rfl

/-- An accepted text is printed behind the others, and a refused one is not. -/
theorem printed_print (m : Machine) (text : String) :
    (m.print text).2.printed =
      m.printed ++ if (m.print text).1.isNone then Utf8.encode text.toList else [] := by
  unfold print
  dsimp only
  split
  · exact printed_note ..
  · exact (List.append_nil _).symm

/-- Printing leaves the globals. -/
theorem globals_print (m : Machine) (text : String) : (m.print text).2.globals = m.globals := by
  unfold print
  dsimp only
  split <;> rfl

/-- A text is printed if the output takes it. -/
theorem prints_print (m : Machine) (text : String) : m.Prints [text] (m.print text).2 where
  output := by rw [output_print, Sink.writeAll_singleton]
  printed := by
    have accepted : (m.print text).1 = (m.output.write text).1 := rfl
    rw [printed_print, accepted, Sink.writeAll_singleton]
    split
    · exact congrArg (m.printed ++ ·) (List.flatMap_singleton ..).symm
    · rfl

/-- **A print offers two texts,** and says why one of them was refused, if it was. -/
theorem prints_printLine (m : Machine) (text : String) :
    m.Prints [text, "\n"] (m.printLine text).2 ∧
      (m.printLine text).1 = m.output.refusalAll? [text, "\n"] := by
  have first := m.prints_print text
  have second := (m.print text).2.prints_print "\n"
  have refusal : (m.print text).1 = (m.output.write text).1 := rfl
  have ended : ((m.print text).2.print "\n").1 = ((m.output.write text).2.write "\n").1 := by
    rw [← output_print]
    rfl
  unfold printLine
  dsimp only
  rw [refusal]
  cases written : (m.output.write text).1 with
  | none =>
    have taken : m.output.Takes [text] :=
      Sink.takes_iff.2 (by rw [Sink.refusalAll?_singleton, written])
    rw [if_pos Option.isNone_none, Sink.refusalAll?_cons_of_accepted written,
      Sink.refusalAll?_singleton]
    exact ⟨first.trans taken second, ended⟩
  | some why =>
    have refused : ¬ m.output.Takes [text] :=
      Sink.not_takes (by rw [Sink.refusalAll?_singleton, written])
    rw [Sink.refusalAll?_cons_of_refused written]
    exact ⟨first.append refused ["\n"], rfl⟩

/-- Printing a line leaves the globals. -/
theorem globals_printLine (m : Machine) (text : String) :
    (m.printLine text).2.globals = m.globals := by
  unfold printLine
  dsimp only
  split
  · rw [globals_print, globals_print]
  · rw [globals_print]

/-- A line that was accepted is printed whole. -/
theorem printed_of_printLine {m after : Machine} {text : String}
    (accepted : m.printLine text = (none, after)) :
    after.printed = m.printed ++ lineBytes text := by
  have line := m.prints_printLine text
  rw [accepted] at line
  rw [line.1.printed_of_takes (Sink.takes_iff.2 line.2.symm), textBytes_line]

/-- An output that accepts all refuses no line. -/
theorem printLine_of_acceptsAll {m : Machine} (accepting : m.output.AcceptsAll) (text : String) :
    ∃ after, m.printLine text = (none, after) :=
  ⟨_, Prod.ext ((m.prints_printLine text).2.trans (Sink.takes_iff.1 (accepting.takes _))) rfl⟩

end Machine
end StackScript
