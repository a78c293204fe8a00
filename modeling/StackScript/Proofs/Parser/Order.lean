/-
# Reports come in the order of the tokens

Let the tokens of a source, and the end of it, stand further and further down, no two on one line.
Then the reports of a parser are in order, too, with two at most for every token:

| while the parser | it reports once at most | at a token |
| --- | --- | --- |
| reads a declaration | if it does not panic already | from its first to the one in view |
| drops the rest of it | after it has stopped panicking | that it drops behind the one in view |

The token in view between two declarations may have been reported before, when it was in view at the
end of a declaration, and may be once more, as the first token of the next one (`Lined`). If it is
the end of the source, there is no next one.
-/
import StackScript.Proofs.Parser.Motion

namespace StackScript

/-! ## Lines -/

/-- Lines in order, none of them below `high`, each of them twice at most and `high` once. -/
structure Lined (high : Nat) (lines : List Nat) : Prop where
  ordered : lines.Pairwise (· ≤ ·)
  le : ∀ n ∈ lines, n ≤ high
  twice : ∀ n, lines.count n ≤ 2
  once : lines.count high ≤ 1

namespace Lined

variable {high : Nat} {lines : List Nat}

/-- Without lines there is nothing out of order. -/
theorem nil (high : Nat) : Lined high [] :=
  ⟨.nil, nofun, fun _ => Nat.zero_le _, Nat.zero_le _⟩

/-- A line that is not below the last one is in order. -/
theorem single {n : Nat} (le : n ≤ high) : Lined high [n] := by
  have one (m : Nat) : [n].count m ≤ 1 := List.count_le_length
  exact ⟨List.pairwise_singleton .., fun m mem => List.mem_singleton.1 mem ▸ le,
    fun m => Nat.le_succ_of_le (one m), one high⟩

/-- What is below all lines is none of them. -/
theorem count_eq_zero (lined : Lined high lines) {n : Nat} (below : high < n) :
    lines.count n = 0 :=
  List.count_eq_zero_of_not_mem fun mem => Nat.not_le.2 below (lined.le n mem)

/-- Lines in order stay so if the last one is further down. -/
theorem mono (lined : Lined high lines) {high' : Nat} (le : high ≤ high') : Lined high' lines := by
  refine ⟨lined.ordered, fun n mem => Nat.le_trans (lined.le n mem) le, lined.twice, ?_⟩
  rcases Nat.eq_or_lt_of_le le with rfl | below
  · exact lined.once
  · exact (lined.count_eq_zero below).trans_le (Nat.zero_le _)

/-- A further line may be that which is there once. -/
theorem concat (lined : Lined high lines) {n high' : Nat} (le : high ≤ n) (le' : n ≤ high')
    (below : high < high') : Lined high' (lines ++ [n]) := by
  have one (m : Nat) : (lines ++ [n]).count m ≤ lines.count m + 1 := by
    rw [List.count_append]
    exact Nat.add_le_add_left List.count_le_length _
  refine ⟨?_, ?_, fun m => ?_, ?_⟩
  · refine List.pairwise_append.2 ⟨lined.ordered, List.pairwise_singleton .., fun m mem k eq => ?_⟩
    obtain rfl := List.mem_singleton.1 eq
    exact Nat.le_trans (lined.le m mem) le
  · intro m mem
    rcases List.mem_append.1 mem with mem | mem
    · exact Nat.le_trans (lined.le m mem) (Nat.le_of_lt below)
    · exact List.mem_singleton.1 mem ▸ le'
  · rcases eq_or_ne m n with rfl | other
    · have before : lines.count m ≤ 1 := by
        rcases Nat.eq_or_lt_of_le le with rfl | below
        · exact lined.once
        · exact (lined.count_eq_zero below).trans_le (Nat.zero_le _)
      exact Nat.le_trans (one m) (Nat.succ_le_succ before)
    · rw [List.count_append, List.count_singleton, if_neg (by simpa using other.symm)]
      exact lined.twice m
  · have before := lined.count_eq_zero below
    have := one high'
    omega

end Lined

/-! ## Reports -/

/-- Nothing was reported, or one fault at one of some tokens, from the line `low` to `high`. -/
inductive Reports.AddsOne (places : List Token) (low high : Nat) (before : Reports) :
    Reports → Prop where
  | same : AddsOne places low high before before
  | one {t : Token} (fault : SyntaxFault) : before.panicking = false → t ∈ places →
      low ≤ t.line → t.line ≤ high →
        AddsOne places low high before ⟨true, before.diagnostics.push (.ofToken t fault)⟩

namespace Reports

variable {places : List Token} {low high : Nat} {a b c : Reports} {t : Token}

/-- A report at one of the places adds one at most. -/
theorem addsOne_add (mem : t ∈ places) (le : low ≤ t.line) (le' : t.line ≤ high) (r : Reports)
    (fault : SyntaxFault) : r.AddsOne places low high (r.add t fault) := by
  unfold add
  split
  · exact .same
  · rename_i calm
    exact .one fault (Bool.not_eq_true _ ▸ calm) mem le le'

/-- Whoever has reported panics, and reports nothing more. -/
theorem AddsOne.trans {mid : Nat} (h₁ : a.AddsOne places low mid b)
    (h₂ : b.AddsOne places low high c) (le : mid ≤ high) : a.AddsOne places low high c := by
  cases h₁ with
  | same => exact h₂
  | one fault calm mem first last =>
    cases h₂ with
    | same => exact .one fault calm mem first (Nat.le_trans last le)
    | one _ calm' => cases calm'

/-- What adds one from a line on adds one from above it. -/
theorem AddsOne.mono {low' : Nat} (h : a.AddsOne places low high b) (le : low' ≤ low) :
    a.AddsOne places low' high b := by
  cases h with
  | same => exact .same
  | one fault calm mem first last => exact .one fault calm mem (Nat.le_trans le first) last

end Reports

namespace Parser

/-! ## Single tokens -/

/-- Dropping faults leaves the last ones of some tokens. -/
theorem skipFaults_suffix (tokens : List Token) (reports : Reports) :
    (skipFaults tokens reports).1 <:+ tokens := by
  fun_induction skipFaults tokens reports with
  | case1 => exact List.suffix_rfl
  | case2 t rest _ _ _ ih => exact ih.trans (List.suffix_cons t rest)
  | case3 => exact List.suffix_rfl

/-- Some tokens stand further and further down. -/
def Ascending (tokens : List Token) : Prop :=
  tokens.Pairwise (·.line < ·.line)

variable {places : List Token} {low : Nat} {p q : Parser}

/-- The first of the last tokens, or the end, is one of all. -/
theorem headD_mem_of_suffix {tokens others : List Token} (suffix : others <:+ tokens)
    (last : Token) : others.headD last ∈ tokens ++ [last] := by
  cases others with
  | nil => exact List.mem_append_right _ (List.mem_singleton_self last)
  | cons t rest => exact List.mem_append_left _ (suffix.subset (List.mem_cons_self ..))

/-- Of the faults in front of a token the first one is reported. -/
theorem addsOne_skipFaults {tokens : List Token} {last : Token}
    (ascending : Ascending (tokens ++ [last])) (sub : tokens ⊆ places)
    (le : ∀ t ∈ tokens, low ≤ t.line) (reports : Reports) :
    reports.AddsOne places low ((skipFaults tokens reports).1.headD last).line
      (skipFaults tokens reports).2 := by
  fun_induction skipFaults tokens reports with
  | case1 => exact .same
  | case2 t rest reports fault _ ih =>
    obtain ⟨first, others⟩ := List.pairwise_cons.1 ascending
    have next := first _ (headD_mem_of_suffix
      (skipFaults_suffix rest (reports.add t (.lexical fault))) last)
    have reported := Reports.addsOne_add (sub (List.mem_cons_self ..))
      (le t (List.mem_cons_self ..)) (Nat.le_of_lt next) reports (.lexical fault)
    exact reported.trans (ih others (List.subset_of_cons_subset sub)
      fun u mem => le u (List.mem_cons_of_mem t mem)) le_rfl
  | case3 => exact .same

/-! ## One token further -/

/-- Behind a token are those that were unread, without faults at their beginning. -/
theorem ahead_advance (p : Parser) :
    p.advance.ahead = (skipFaults p.unread.tail p.reports).1 ++ [.atEnd p.lastLine] := rfl

/-- What is ahead behind a token was ahead before it. -/
theorem ahead_advance_suffix (p : Parser) : p.advance.ahead <:+ p.ahead := by
  obtain ⟨others, eq⟩ :=
    (skipFaults_suffix p.unread.tail p.reports).trans (List.tail_suffix p.unread)
  exact ⟨others, by rw [ahead_advance, ← List.append_assoc, eq, ahead]⟩

/-- The token in view is ahead. -/
theorem current_mem_ahead (p : Parser) : p.current ∈ p.ahead := by
  obtain ⟨rest, eq⟩ := p.exists_ahead_eq_cons
  exact eq ▸ List.mem_cons_self ..

/-- The token in view is the first of those ahead. -/
theorem line_current_le (ascending : Ascending p.ahead) :
    ∀ t ∈ p.ahead, p.current.line ≤ t.line := by
  obtain ⟨rest, eq⟩ := p.exists_ahead_eq_cons
  rw [eq] at ascending ⊢
  intro t mem
  rcases List.mem_cons.1 mem with rfl | mem
  · exact le_rfl
  · exact Nat.le_of_lt ((List.pairwise_cons.1 ascending).1 t mem)

/-- The next token does not stand above the one in view. -/
theorem line_le_advance (ascending : Ascending p.ahead) :
    p.current.line ≤ p.advance.current.line :=
  line_current_le ascending _ (p.ahead_advance_suffix.subset p.advance.current_mem_ahead)

/-- Unless the end is in view, the next token stands further down. -/
theorem line_lt_advance (ascending : Ascending p.ahead) (more : p.current.kind ≠ .finish) :
    p.current.line < p.advance.current.line := by
  obtain ⟨t, rest, unread⟩ := List.exists_cons_of_length_pos (unread_pos more)
  have below := headD_mem_of_suffix (skipFaults_suffix rest p.reports) (.atEnd p.lastLine)
  rw [ahead, unread] at ascending
  rw [current_of_unread unread]
  refine (List.pairwise_cons.1 ascending).1 _ ?_
  show (skipFaults p.unread.tail p.reports).1.headD _ ∈ _
  rwa [unread]

/-- When a token is read, a fault behind it may be reported. -/
theorem addsOne_advance (ascending : Ascending p.ahead) (sub : p.ahead ⊆ places) :
    p.reports.AddsOne places p.current.line p.advance.current.line p.advance.reports := by
  have tail : p.unread.tail ++ [.atEnd p.lastLine] <:+ p.ahead := by
    obtain ⟨others, eq⟩ := List.tail_suffix p.unread
    exact ⟨others, by rw [← List.append_assoc, eq, ahead]⟩
  have inside : p.unread.tail ⊆ p.ahead :=
    List.Subset.trans (List.subset_append_left ..) tail.subset
  exact addsOne_skipFaults (ascending.sublist tail.sublist) (List.Subset.trans inside sub)
    (fun t mem => line_current_le ascending t (inside mem)) p.reports

/-! ## Inside a declaration -/

/-- A parser that has read a token of a declaration that starts on the line `low`. -/
structure Inside (places : List Token) (low : Nat) (p : Parser) : Prop where
  ahead : p.ahead <:+ places
  mem : p.previous ∈ places
  low_le : low ≤ p.previous.line
  le_current : p.previous.line ≤ p.current.line

/-- From `p` to `q` the parser stayed inside, and reported at most once. -/
structure Stays (places : List Token) (low : Nat) (p q : Parser) : Prop where
  inside : q.Inside places low
  le : p.current.line ≤ q.current.line
  adds : p.reports.AddsOne places low q.current.line q.reports

/-- **Every step inside a declaration stays inside,** and all together report at most once. -/
theorem framed_stays (ascending : Ascending places) (low : Nat) :
    Framed fun p q => p.Inside places low → p.Stays places low q where
  refl _ inside := ⟨inside, le_rfl, .same⟩
  trans first second inside := by
    obtain ⟨inside, le, adds⟩ := first inside
    obtain ⟨inside, le', adds'⟩ := second inside
    exact ⟨inside, Nat.le_trans le le', adds.trans adds' le'⟩
  advance p inside := by
    have ordered : Ascending p.ahead := ascending.sublist inside.ahead.sublist
    have le := line_le_advance ordered
    have low_le : low ≤ p.current.line := Nat.le_trans inside.low_le inside.le_current
    exact ⟨⟨p.ahead_advance_suffix.trans inside.ahead, inside.ahead.subset p.current_mem_ahead,
      low_le, le⟩, le, (addsOne_advance ordered inside.ahead.subset).mono low_le⟩
  push _ _ inside := ⟨⟨inside.ahead, inside.mem, inside.low_le, inside.le_current⟩, le_rfl, .same⟩
  reportCurrent p fault inside :=
    ⟨⟨inside.ahead, inside.mem, inside.low_le, inside.le_current⟩, le_rfl,
      Reports.addsOne_add (inside.ahead.subset p.current_mem_ahead)
        (Nat.le_trans inside.low_le inside.le_current) le_rfl ..⟩
  reportPrevious p fault inside :=
    ⟨⟨inside.ahead, inside.mem, inside.low_le, inside.le_current⟩, le_rfl,
      Reports.addsOne_add inside.mem inside.low_le inside.le_current ..⟩

/-! ## Between declarations -/

/-- The lines of what was reported. -/
def reportedLines (p : Parser) : List Nat :=
  p.reports.diagnostics.toList.map (·.line)

/-- A parser between two declarations: what it has reported stands at tokens, in their order. -/
structure Ordered (places : List Token) (p : Parser) : Prop where
  ahead : p.ahead <:+ places
  lined : Lined p.current.line p.reportedLines
  placed : ∀ d ∈ p.reports.diagnostics.toList, ∃ t ∈ places, d = .ofToken t d.fault

namespace Ordered

/-- One report more, from the token in view up to one further down. -/
theorem of_addsOne (ordered : p.Ordered places) (ahead : q.ahead <:+ places)
    (below : p.current.line < q.current.line)
    (adds : p.reports.AddsOne places p.current.line q.current.line q.reports) :
    q.Ordered places := by
  generalize reports : q.reports = after at adds
  cases adds with
  | same =>
    refine ⟨ahead, ?_, reports ▸ ordered.placed⟩
    rw [reportedLines, reports]
    exact ordered.lined.mono (Nat.le_of_lt below)
  | @one t fault _ mem le le' =>
    refine ⟨ahead, ?_, ?_⟩
    · rw [reportedLines, reports, Array.toList_push, List.map_append]
      exact ordered.lined.concat le le' below
    · rw [reports, Array.toList_push]
      intro d found
      rcases List.mem_append.1 found with found | found
      · exact ordered.placed d found
      · obtain rfl := List.mem_singleton.1 found
        exact ⟨t, mem, rfl⟩

variable (ascending : Ascending places)

include ascending

/-- Dropping the rest of a declaration keeps the reports in order. -/
theorem skipDeclaration (ordered : p.Ordered places) : p.skipDeclaration.Ordered places := by
  fun_induction Parser.skipDeclaration p with
  | case4 p more _ _ ih =>
    have order : Ascending p.ahead := ascending.sublist ordered.ahead.sublist
    exact ih (ordered.of_addsOne (p.ahead_advance_suffix.trans ordered.ahead)
      (line_lt_advance order more) (addsOne_advance order ordered.ahead.subset))
  | _ => exact ordered

/-- Recovery keeps the reports in order. -/
theorem recover (ordered : p.Ordered places) : p.recover.Ordered places := by
  unfold Parser.recover
  split
  · exact skipDeclaration ascending ⟨ordered.ahead, ordered.lined, ordered.placed⟩
  · exact ordered

/-- A declaration keeps the reports in order. -/
theorem declaration (ordered : p.Ordered places) (more : p.current.kind ≠ .finish) :
    p.declaration.2.Ordered places := by
  have order : Ascending p.ahead := ascending.sublist ordered.ahead.sublist
  have below := line_lt_advance order more
  have first := addsOne_advance order ordered.ahead.subset
  have inside : p.advance.Inside places p.current.line :=
    ⟨p.ahead_advance_suffix.trans ordered.ahead, ordered.ahead.subset p.current_mem_ahead, le_rfl,
      Nat.le_of_lt below⟩
  obtain ⟨q, stays, eq⟩ := (framed_stays ascending p.current.line).declaration p
  obtain ⟨inside, le, adds⟩ := stays inside
  rw [eq]
  exact (ordered.of_addsOne inside.ahead (Nat.lt_of_lt_of_le below le)
    (first.trans adds le)).recover ascending

/-- Declarations keep the reports in order. -/
theorem declarations (ordered : p.Ordered places) : p.declarations.2.Ordered places := by
  fun_induction Parser.declarations p with
  | case1 => exact ordered
  | case2 p more first _ ih => exact ih (ordered.declaration ascending more)

end Ordered

/-- In front of the first token there may be faults, too. -/
theorem ordered_ofStream {stream : TokenStream}
    (ascending : Ascending (stream.tokens ++ [stream.finish])) :
    (ofStream stream).Ordered (stream.tokens ++ [stream.finish]) := by
  have adds : Reports.none.AddsOne (stream.tokens ++ [stream.finish]) 0
      (ofStream stream).current.line (ofStream stream).reports :=
    addsOne_skipFaults ascending (List.subset_append_left ..) (fun _ _ => Nat.zero_le _) .none
  have ahead : (ofStream stream).ahead <:+ stream.tokens ++ [stream.finish] := by
    obtain ⟨others, eq⟩ := skipFaults_suffix stream.tokens .none
    refine ⟨others, ?_⟩
    rw [← eq, List.append_assoc]
    rfl
  generalize reports : (ofStream stream).reports = after at adds
  cases adds with
  | same =>
    refine ⟨ahead, ?_, reports ▸ nofun⟩
    rw [reportedLines, reports]
    exact .nil _
  | @one t fault _ mem _ le =>
    refine ⟨ahead, ?_, ?_⟩
    · rw [reportedLines, reports]
      exact .single le
    · rw [reports]
      intro d found
      obtain rfl := List.mem_singleton.1 found
      exact ⟨t, mem, rfl⟩

/-- **Reports come in the order of the tokens.** -/
theorem ordered_declarations {stream : TokenStream}
    (ascending : Ascending (stream.tokens ++ [stream.finish])) :
    (ofStream stream).declarations.2.Ordered (stream.tokens ++ [stream.finish]) :=
  (ordered_ofStream ascending).declarations ascending

end Parser
end StackScript
