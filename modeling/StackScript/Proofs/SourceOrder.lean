/-
# Diagnostics come in the order of the source

What a parser does, it does by the kinds and lexemes of tokens; their lines are only carried along
(`Parser.Resembles`). So give every token the number of its position for a line: the parser makes
the same reports, and their lines are now the positions at which they were made. Numbered tokens
stand further and further down, so these positions are in order (`Parser.ordered_declarations`), and
so are the lines of the source that they stand on.
-/
import StackScript.Proofs.LineTable
import StackScript.Proofs.Parser.Order
import StackScript.Proofs.Parser.Resemblance

namespace StackScript

/-! ## Numbered tokens -/

/-- Some tokens, each with its position for a line. -/
def Token.numbered (tokens : List Token) : List Token :=
  tokens.mapIdx fun i t => { t with line := i }

/-- The lines of a source and the positions of the tokens on them. -/
def Token.At (places : List Token) (line position : Nat) : Prop :=
  ∃ t, places[position]? = some t ∧ t.line = line

/-- Numbered tokens stand further and further down. -/
theorem Token.ascending_numbered (tokens : List Token) : Parser.Ascending (numbered tokens) := by
  refine List.pairwise_iff_getElem.2 fun i j hi hj lt => ?_
  simp only [numbered, List.getElem_mapIdx]
  exact lt

/-- Of tokens in order, an earlier one does not stand below a later one. -/
theorem Token.InOrder.line_le {tokens : List Token} (order : InOrder tokens) {i j : Nat}
    {t u : Token} (le : i ≤ j) (first : tokens[i]? = some t) (second : tokens[j]? = some u) :
    t.line ≤ u.line := by
  obtain ⟨hi, rfl⟩ := List.getElem?_eq_some_iff.1 first
  obtain ⟨hj, rfl⟩ := List.getElem?_eq_some_iff.1 second
  rcases Nat.eq_or_lt_of_le le with rfl | lt
  · exact Nat.le_refl _
  · exact List.pairwise_iff_getElem.1 order i j hi hj lt

/-- A numbered token is the one with that number. -/
theorem Token.exists_of_mem_numbered {tokens : List Token} {u : Token}
    (mem : u ∈ numbered tokens) :
    ∃ t, tokens[u.line]? = some t ∧ u = { t with line := u.line } := by
  obtain ⟨i, lt, rfl⟩ := List.mem_mapIdx.1 mem
  exact ⟨tokens[i], List.getElem?_eq_getElem lt, rfl⟩

namespace TokenStream

/-- All tokens of a source, and the end of it. -/
def places (stream : TokenStream) : List Token :=
  stream.tokens ++ [stream.finish]

/-- The tokens of a source, numbered. -/
def numbered (stream : TokenStream) : TokenStream :=
  ⟨Token.numbered stream.tokens, stream.tokens.length⟩

/-- The positions of the tokens at which a parser reports, which are the lines that it reports of
numbered tokens. -/
def reportPositions (stream : TokenStream) : List Nat :=
  (ParsedSource.ofStream stream.numbered).diagnostics.map (·.line)

/-- The places of numbered tokens are the numbered places. -/
theorem places_numbered (stream : TokenStream) :
    stream.numbered.tokens ++ [stream.numbered.finish] = Token.numbered stream.places := by
  rw [places, Token.numbered, List.mapIdx_concat]
  rfl

/-- Tokens resemble themselves, numbered. -/
theorem resembles_numbered (stream : TokenStream) :
    List.Forall₂ (Token.Resembles (Token.At stream.places)) stream.tokens
      stream.numbered.tokens := by
  refine List.forall₂_iff_get.2 ⟨List.length_mapIdx.symm, fun i lt lt' => ?_⟩
  have own : stream.places[i]? = some stream.tokens[i] := by
    rw [places, List.getElem?_append_left lt, List.getElem?_eq_getElem lt]
  have numbered : stream.numbered.tokens[i] = { stream.tokens[i] with line := i } :=
    List.getElem_mapIdx
  show Token.Resembles _ stream.tokens[i] stream.numbered.tokens[i]
  rw [numbered]
  exact ⟨rfl, rfl, _, own, rfl⟩

/-- The end of the source has the last number. -/
theorem at_finish (stream : TokenStream) :
    Token.At stream.places stream.lastLine stream.tokens.length :=
  ⟨stream.finish, List.getElem?_concat_length, rfl⟩

/-- The tokens of a source, with the end of it, come line by line, from the first line to the
last. -/
theorem inOrder_places (source : List Char) :
    Token.InOrder (scan source).places ∧
      ∀ t ∈ (scan source).places, 1 ≤ t.line ∧ t.line ≤ 1 + lineEnds source := by
  have last : (scan source).lastLine = 1 + lineEnds source := lastLine_scanFrom 1 source
  have bounds := forall_line_scanFrom 1 source
  refine ⟨List.pairwise_append.2 ⟨inOrder_scanFrom 1 source, List.pairwise_singleton .., ?_⟩, ?_⟩
  · intro t mem u eq
    obtain rfl := List.mem_singleton.1 eq
    exact (bounds t mem).2
  · intro t mem
    rcases List.mem_append.1 mem with mem | eq
    · exact last ▸ bounds t mem
    · obtain rfl := List.mem_singleton.1 eq
      exact ⟨Nat.le_trans (Nat.le_add_right ..) last.ge, last.le⟩

end TokenStream

/-! ## Main statement -/

/-- A diagnostic is about the token at a position: it has its line and its place. -/
def Diagnostic.IsAt (places : List Token) (d : Diagnostic) (position : Nat) : Prop :=
  ∃ t, places[position]? = some t ∧ d = .ofToken t d.fault

variable {places : List Token}

/-- The line of a report at a numbered token is the position of the token. -/
theorem Diagnostic.isAt_of_resembles {d d' : Diagnostic} (alike : d.Resembles (Token.At places) d')
    (placed : ∃ u ∈ Token.numbered places, d' = .ofToken u d'.fault) : d.IsAt places d'.line := by
  obtain ⟨u, mem, eq⟩ := placed
  obtain ⟨t, at_, same⟩ := Token.exists_of_mem_numbered mem
  have position : d'.line = u.line := by rw [eq]; rfl
  have location : d.location = .ofToken t := by
    rw [← alike.location, eq, same]
    rfl
  obtain ⟨t', at_', line⟩ := alike.line
  obtain rfl : t = t' := Option.some.inj (at_.symm.trans (position ▸ at_'))
  refine ⟨t, at_', ?_⟩
  rcases d with ⟨_, _, fault⟩
  obtain rfl : _ = t.line := line.symm
  obtain rfl : _ = Location.ofToken t := location
  rfl

/-- Diagnostics at positions in order are on lines in order. -/
theorem Diagnostic.pairwise_line {ds : List Diagnostic} {positions : List Nat}
    (order : Token.InOrder places) (at_ : List.Forall₂ (Diagnostic.IsAt places) ds positions)
    (ordered : positions.Pairwise (· ≤ ·)) : (ds.map (·.line)).Pairwise (· ≤ ·) := by
  obtain ⟨length, each⟩ := List.forall₂_iff_get.1 at_
  rw [List.pairwise_map]
  refine List.pairwise_iff_getElem.2 fun i j hi hj lt => ?_
  obtain ⟨t, first, eq⟩ := each i hi (length ▸ hi)
  obtain ⟨u, second, eq'⟩ := each j hj (length ▸ hj)
  have le := List.pairwise_iff_getElem.1 ordered i j (length ▸ hi) (length ▸ hj) lt
  have lines : t.line ≤ u.line := order.line_le le first second
  exact (congrArg Diagnostic.line eq).trans_le
    (lines.trans (congrArg Diagnostic.line eq').symm.le)

/-- **Diagnostics come in the order of the source.** A source that is refused has a diagnostic.
Every diagnostic is about the token at which it was reported, or the end of the source; the
positions of these are in order, and so are the lines, of which the source has as many as line ends
and one. No token has more than two diagnostics, and the end of the source has not more than
one. -/
theorem diagnostics_in_source_order {source : String} {pool : StringPool}
    {diagnostics : List Diagnostic} (rejected : (compile source pool).1 = .error diagnostics) :
    let stream := TokenStream.scan source.toList
    diagnostics ≠ [] ∧
      (diagnostics.map (·.line)).Pairwise (· ≤ ·) ∧
      (∀ d ∈ diagnostics, 1 ≤ d.line ∧ d.line ≤ 1 + lineEnds source.toList) ∧
      List.Forall₂ (Diagnostic.IsAt (stream.tokens ++ [stream.finish])) diagnostics
        stream.reportPositions ∧
      stream.reportPositions.Pairwise (· ≤ ·) ∧
      (∀ i, stream.reportPositions.count i ≤ 2) ∧
      stream.reportPositions.count stream.tokens.length ≤ 1 := by
  intro stream
  obtain ⟨rfl, faulty⟩ := compile_eq_error_iff.1 rejected
  obtain ⟨order, bounds⟩ := TokenStream.inOrder_places source.toList
  have ascending := Token.ascending_numbered stream.places
  rw [← stream.places_numbered] at ascending
  have reports := Parser.ordered_declarations ascending
  rw [stream.places_numbered] at reports
  have alike : (Parser.ofStream stream).declarations.2.reports.Resembles (Token.At stream.places)
      (Parser.ofStream stream.numbered).declarations.2.reports :=
    (Parser.resembles_ofStream stream.resembles_numbered stream.at_finish).declarations.2.reports
  -- The lines of the reports at numbered tokens are the positions of the others.
  have each := (List.forall₂_and_left _ _).2 ⟨reports.placed, alike.diagnostics.flip⟩
  have at_ := (each.imp fun d' d h => Diagnostic.isAt_of_resembles h.2 h.1).flip
  have positioned : List.Forall₂ (Diagnostic.IsAt stream.places)
      (ParsedSource.ofSource source).diagnostics stream.reportPositions :=
    List.forall₂_map_right_iff.2 at_
  have inside := Token.exists_of_mem_numbered
    (reports.ahead.subset (Parser.current_mem_ahead _))
  refine ⟨faulty, Diagnostic.pairwise_line order positioned reports.lined.ordered, ?_, positioned,
    reports.lined.ordered, reports.lined.twice, ?_⟩
  · intro d mem
    obtain ⟨length, each⟩ := List.forall₂_iff_get.1 positioned
    obtain ⟨i, lt, rfl⟩ := List.getElem_of_mem mem
    obtain ⟨t, at_, eq⟩ := each i lt (length ▸ lt)
    have line := congrArg Diagnostic.line eq
    exact (show _ = t.line from line) ▸ bounds t (List.mem_of_getElem? at_)
  · obtain ⟨t, at_, -⟩ := inside
    have lt := (List.getElem?_eq_some_iff.1 at_).1
    rw [TokenStream.places, List.length_append, List.length_singleton] at lt
    exact (reports.lined.mono (Nat.le_of_lt_succ lt)).once

/-- A token that ends one declaration and starts the next is reported twice; of what is no token,
only that it is there. -/
theorem diagnostics_in_source_order_twice :
    let source := "print 1 fun + @;;\nprint"
    let stream := TokenStream.scan source.toList
    let diagnostics : List Diagnostic :=
      [⟨1, .token "fun".toList, .expectSemicolonAfterValue⟩,
        ⟨1, .token "fun".toList, .expectExpression⟩,
        ⟨1, .unknown, .lexical .unexpectedCharacter⟩, ⟨2, .finish, .expectExpression⟩]
    (compile source .empty).1 = .error diagnostics ∧ stream.reportPositions = [2, 2, 4, 8] ∧
      List.Forall₂ (Diagnostic.IsAt (stream.tokens ++ [stream.finish])) diagnostics
        stream.reportPositions ∧
      ∀ i, stream.reportPositions.count i ≤ 2 := by
  intro source stream diagnostics
  have rejected : (compile source .empty).1 = .error diagnostics :=
    compile_eq_error_iff.2 ⟨by decide +kernel, nofun⟩
  obtain ⟨-, -, -, at_, -, twice, -⟩ := diagnostics_in_source_order rejected
  exact ⟨rejected, by decide +kernel, at_, twice⟩

end StackScript
