/-
# Faults above valid code

A source that is accepted stands below another one, which may have any faults, as long as its last
token is a semicolon:

```text
x = 1 + ;
-y * (z - 1);
```

Then what is reported of both in one is what is reported of the upper one alone. The parser may
take that semicolon for an operand and go on into the lower source, but it finds nothing there to
report, and recovers where one of its declarations starts.

The constants of both together must not be too many, with a word `var` counted for the name that
may be missing behind it.
-/
import StackScript.Proofs.Composition
import StackScript.Proofs.Parser.Recovery
import StackScript.Proofs.Scanning.Tiling

namespace StackScript

/-! ## Tokens -/

/-- A string without its end goes on to the end of the source. -/
theorem Lexeme.rest_of_unterminated {c : Char} {rest : List Char}
    (opened : (read c rest).kind = .fault .unterminatedString) : (read c rest).rest = [] := by
  have all := reads c rest
  generalize read c rest = l at all opened ⊢
  cases all with
  | token spells => exact absurd opened (spells.ne_fault _)
  | unexpected _ => cases opened
  | unterminated _ _ => rfl

/-- A string that is not closed takes the rest of the source, so it is the last token. -/
theorem TokenStream.kind_ne_unterminated {line : Nat} {source : List Char}
    (closes : Parser.Closes (scanFrom line source).tokens) :
    ∀ t ∈ (scanFrom line source).tokens, t.kind ≠ .fault .unterminatedString := by
  fun_induction scanFrom line source with
  | case1 => simp
  | case2 line source gap c rest split lexeme line' after ih =>
    rw [List.forall_mem_cons]
    rcases closes.cases_tail with ⟨ended, last⟩ | more
    · constructor
      · intro opened
        rw [opened] at ended
        cases ended
      · simp [last]
    · constructor
      · intro opened
        have none : splitGap false lexeme.rest = ([], []) := by
          rw [Lexeme.rest_of_unterminated opened]
          rfl
        have empty : after.tokens = [] := by
          dsimp only [after]
          rw [scanFrom_of_nil none]
        obtain ⟨t, others, eq⟩ := more.exists_cons
        rw [empty] at eq
        cases eq
      · exact ih more

/-- As many tokens are noted on the lines further down. -/
theorem Token.countP_isNoted_map_shift (n : Nat) (tokens : List Token) :
    (tokens.map (Token.shift n)).countP isNoted = tokens.countP isNoted := by
  rw [List.countP_map]
  rfl

/-! ## Sources -/

/-- The diagnostics of a compilation. A source that is accepted has none. -/
def diagnosticsOf (source : String) (pool : StringPool) : List Diagnostic :=
  match (compile source pool).1 with
  | .ok _ => []
  | .error diagnostics => diagnostics

/-- The diagnostics of a source do not depend on the pool. -/
theorem diagnosticsOf_eq (source : String) (pool : StringPool) :
    diagnosticsOf source pool = (ParsedSource.ofSource source).diagnostics := by
  unfold diagnosticsOf
  by_cases faultless : (ParsedSource.ofSource source).diagnostics = []
  · rw [compile_of_faultless faultless, faultless]
  · rw [compile_of_faulty faultless]

/-- The tokens of a source that is accepted are ready, also further down. -/
theorem ready_of_compiles {source : String} (accepted : compiles source = true) (n : Nat) :
    Ready ((TokenStream.scan source.toList).tokens.map (Token.shift n)) := by
  obtain ⟨derives, deep, range, -, -⟩ := ParsedSource.derives_of_diagnostics_eq_nil
    (TokenStream.kind_ne_finish 1 source.toList) (compiles_iff.1 accepted)
  refine ⟨_, derives.declarations.shift n, ?_, ?_⟩
  · intro d mem
    obtain ⟨e, found, rfl⟩ := List.mem_map.1 mem
    rw [Declaration.nesting_shift]
    exact deep e found
  · intro t mem
    obtain ⟨u, found, rfl⟩ := List.mem_map.1 mem
    exact range u found

/-- **Faults do not reach into valid code below them.** If the last token of a source is a
semicolon, and a source below it is accepted, then the diagnostics of both in one are those of the
upper source alone. -/
theorem diagnostics_above_accepted {above below : String}
    (ends : ∃ t ∈ (TokenStream.scan above.toList).tokens.getLast?, t.kind = .semicolon)
    (accepted : compiles below = true)
    (few : ((TokenStream.scan above.toList).tokens ++
      (TokenStream.scan below.toList).tokens).countP Token.isNoted ≤ 256)
    (pool pool' : StringPool) :
    diagnosticsOf (above ++ "\n" ++ below) pool = diagnosticsOf above pool' := by
  have text : (above ++ "\n" ++ below).toList = above.toList ++ '\n' :: below.toList := by
    simp [String.toList_append]
  rw [diagnosticsOf_eq, diagnosticsOf_eq, ParsedSource.ofSource, ParsedSource.ofSource, text,
    TokenStream.scan_append _ _ (TokenStream.kind_ne_unterminated ends)]
  refine Parser.diagnostics_ofStream (ready_of_compiles accepted _) ends ?_ _
  rw [List.countP_append, Token.countP_isNoted_map_shift, ← List.countP_append]
  exact few

/-- The semicolon is taken for an operand, and the minus below it for an operator. -/
theorem diagnostics_above_accepted_minus :
    diagnosticsOf ("x = 1 + ;" ++ "\n" ++ "-y * (z - 1);") .empty =
      [⟨1, .token [';'], .expectExpression⟩] := by
  have ends : ∃ t ∈ (TokenStream.scan "x = 1 + ;".toList).tokens.getLast?, t.kind = .semicolon := by
    decide +kernel
  have accepted : compiles "-y * (z - 1);" = true := by decide +kernel
  rw [diagnostics_above_accepted ends accepted (by decide +kernel) .empty .empty]
  decide +kernel

end StackScript
