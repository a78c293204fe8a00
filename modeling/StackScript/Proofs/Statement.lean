/-
# Sources of one statement

The tokens of some sources are one declaration, with no semicolon but its last token. Such a
source has one tree, and what an idle machine makes of it is what that tree means: if the
expression of a print statement has a value, a line is added to what was printed, and
nothing else changes that a program could see.
-/
import StackScript.Proofs.Composition

namespace StackScript

/-! ## One declaration -/

namespace Declaration

variable {body : List Token} {semicolon : Token} {d : Declaration} {ds : List Declaration}

/-- Tokens that end at their only semicolon are one declaration. -/
theorem DerivesAll.single (h : DerivesAll (body ++ [semicolon]) ds)
    (inside : ∀ t ∈ body, t.kind ≠ .semicolon) :
    ∃ d, Derives (body ++ [semicolon]) d ∧ ds = [d] := by
  generalize whole : body ++ [semicolon] = tokens at h
  cases h with
  | nil => simp at whole
  | @cons first others d ds derives all =>
    obtain ⟨init, last, rfl, closed⟩ := derives.exists_last
    -- A semicolon inside the first declaration would be one inside the body.
    obtain rfl : others = [] := by
      rcases List.eq_nil_or_concat others with none | ⟨more, t, rfl⟩
      · exact none
      · have split : body = init ++ [last] ++ more := by
          rw [List.concat_eq_append, ← List.append_assoc] at whole
          exact (List.append_inj' whole rfl).1
        exact absurd closed (inside last (by simp [split]))
    generalize none : ([] : List Token) = rest at all
    cases all with
    | nil => exact ⟨d, by rwa [List.append_nil], rfl⟩
    | cons next _ =>
      obtain ⟨t, rest, rfl, -⟩ := next.exists_head
      cases none

/-- A declaration that starts with `print` prints an expression. -/
theorem Derives.print_inv {word : Token} {tokens : List Token}
    (h : Derives (word :: tokens ++ [semicolon]) d) (printing : word.kind = .keyword .printWord) :
    ∃ e : Expr, e.Derives .assignment tokens ∧ d = .print e semicolon.line := by
  generalize whole : word :: tokens ++ [semicolon] = all at h
  cases h with
  | define word | initialise word =>
    obtain ⟨rfl, -⟩ := List.cons.inj whole
    rw [printing] at word
    cases word
  | @print word' semicolon' tokens' e _ value =>
    obtain ⟨rfl, rest⟩ := List.cons.inj whole
    obtain ⟨rfl, same⟩ := List.append_inj' rest rfl
    obtain rfl := List.singleton_inj.1 same
    exact ⟨e, value, rfl⟩
  | expression value =>
    have := value.startsExpression whole.symm
    simp [Token.startsExpression, printing] at this

end Declaration

/-- A source of one declaration within the limits is accepted, and its program is that
declaration. -/
theorem Declaration.Derives.compiles {source : String} {tokens : List Token} {d : Declaration}
    (scanned : (TokenStream.scan source.toList).tokens = tokens) (derives : d.Derives tokens)
    (deep : d.nesting ≤ Parser.maxNesting)
    (few : tokens.countP Token.isConstant ≤ Chunk.maxConstants)
    (range : ∀ t ∈ tokens, t.InRange) :
    compiles source = true ∧ (ParsedSource.ofSource source).program.declarations = [d] := by
  subst scanned
  have all : Declaration.DerivesAll (TokenStream.scan source.toList).tokens [d] := by
    have := Declaration.DerivesAll.cons derives .nil
    rwa [List.append_nil] at this
  have read := ParsedSource.ofStream_of_derives
    (p := ⟨[d], (TokenStream.scan source.toList).lastLine⟩) ⟨all, rfl⟩ (by simpa using deep) few
    range
  rw [compiles_iff, ParsedSource.ofSource, read]
  exact ⟨rfl, rfl⟩

/-- A source prints what some tokens are, and does nothing else. -/
structure PrintsOnly (source : String) (tokens : List Token) : Prop where
  scanned : ∃ word semicolon : Token, word.kind = .keyword .printWord ∧
    semicolon.kind = .semicolon ∧
    (TokenStream.scan source.toList).tokens = word :: tokens ++ [semicolon]
  inside : ∀ t ∈ tokens, t.kind ≠ .semicolon

namespace PrintsOnly

variable {source : String} {tokens : List Token}

/-- If it is accepted, the tokens are an expression. -/
theorem exists_derives (prints : PrintsOnly source tokens) (accepted : compiles source = true) :
    ∃ (e : Expr) (endLine : Nat), e.Derives .assignment tokens ∧
      e.nesting ≤ Parser.maxNesting ∧ (∀ t ∈ tokens, t.InRange) ∧
      (ParsedSource.ofSource source).program.declarations = [.print e endLine] := by
  obtain ⟨word, semicolon, printing, -, scanned⟩ := prints.scanned
  have read : ∀ t ∈ (TokenStream.scan source.toList).tokens, t.kind ≠ .finish :=
    TokenStream.kind_ne_finish 1 source.toList
  obtain ⟨derives, deep, range, -⟩ :=
    ParsedSource.derives_of_diagnostics_eq_nil read (compiles_iff.1 accepted)
  have all := scanned ▸ derives.declarations
  obtain ⟨d, first, one⟩ := all.single (by
    rw [List.forall_mem_cons, printing]
    exact ⟨nofun, prints.inside⟩)
  obtain ⟨e, value, rfl⟩ := first.print_inv printing
  have nested : (Declaration.print e semicolon.line).nesting ≤ Parser.maxNesting :=
    deep _ (one ▸ List.mem_singleton_self _)
  refine ⟨e, semicolon.line, value, nested, fun t mem => range t ?_, one⟩
  rw [scanned]
  exact List.mem_append_left _ (List.mem_cons_of_mem word mem)

/-- If the tokens are an expression within the limits, it is accepted. -/
theorem compiles {e : Expr} (prints : PrintsOnly source tokens)
    (derives : e.Derives .assignment tokens) (deep : e.nesting ≤ Parser.maxNesting)
    (few : tokens.countP Token.isConstant ≤ Chunk.maxConstants)
    (range : ∀ t ∈ tokens, t.InRange) :
    StackScript.compiles source = true ∧
      ∃ endLine, (ParsedSource.ofSource source).program.declarations = [.print e endLine] := by
  obtain ⟨word, semicolon, printing, ended, scanned⟩ := prints.scanned
  obtain ⟨accepted, one⟩ := (Declaration.Derives.print printing derives ended).compiles scanned deep
    (by simpa [Token.isConstant, printing, ended] using few)
    (by
      rw [List.forall_mem_append, List.forall_mem_cons, List.forall_mem_singleton]
      exact ⟨⟨Token.inRange_of_kind printing (by decide), range⟩,
        Token.inRange_of_kind ended (by decide)⟩)
  exact ⟨accepted, semicolon.line, one⟩

end PrintsOnly

/-! ## What a machine makes of it -/

namespace Machine

variable {limit : Nat} {m : Machine} {source : String}

/-- A source whose tree has a good end. -/
theorem Idle.interpret_of_eval {w : World} (idle : m.Idle limit) (accepted : compiles source = true)
    (ends : (ParsedSource.ofSource source).program.eval limit m.world = .ok () w) :
    ∃ after, m.interpret source = (.ok, after) ∧ after.Idle limit ∧ after.world = w := by
  have answers := answers_interpret idle (compile_of_faultless (compiles_iff.1 accepted) m.pool)
  rw [ends] at answers
  generalize m.interpret source = answer at answers
  cases answers with
  | ok idle => exact ⟨_, rfl, idle, rfl⟩

/-- A print statement whose expression has a value and changes nothing. -/
theorem Idle.interpret_print {e : Expr} {endLine : Nat} {d : Datum} (idle : m.Idle limit)
    (accepted : compiles source = true)
    (one : (ParsedSource.ofSource source).program.declarations = [.print e endLine])
    (value : e.eval limit 0 m.world = .ok d m.world) :
    ∃ after, m.interpret source = (.ok, after) ∧ after.Idle limit ∧
      after.printed = m.printed ++ lineBytes d.toText := by
  obtain ⟨after, answer, later, world⟩ := idle.interpret_of_eval accepted
    (w := m.world.print (lineBytes d.toText)) (by
      rw [Program.eval, one]
      simp only [Declaration.evalAll, Declaration.eval, bind, EStateM.bind, value]
      rfl)
  exact ⟨after, answer, later, congrArg World.output world⟩

end Machine
end StackScript
