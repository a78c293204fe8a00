/-
# Gaps and slices tile a source

A source is cut into gaps and slices in turn, and nothing of it is lost. `Tiles` says how,
without a scanner:

| part | what it is |
| --- | --- |
| gap | blanks, and comments up to the ends of their lines |
| slice of a token | the longest text of the lexicon that begins there |
| slice of a fault | one character that begins no token, or an open string |

The line of a token is the line on which its slice ends. There is exactly one such tiling of
a source, and scanning finds it (`tiles_iff`).
-/
import StackScript.Proofs.Scanning.Lexicon

namespace StackScript

/-! ## Gaps -/

/-- Whether a source goes on with a blank or a comment. -/
def BeginsGap : List Char → Prop
  | [] => False
  | c :: rest => isBlank c = true ∨ c = '/' ∧ rest.head? = some '/'

/-- Blanks and comments in front of `behind`. A comment runs to the end of its line, or of
the source. -/
inductive IsGap (behind : List Char) : List Char → Prop where
  | nil : IsGap behind []
  | blank {c : Char} {gap : List Char} : isBlank c = true → IsGap behind gap →
      IsGap behind (c :: gap)
  | comment {body gap : List Char} : '\n' ∉ body → (∀ c ∈ (gap ++ behind).head?, c = '\n') →
      IsGap behind gap → IsGap behind ('/' :: '/' :: (body ++ gap))

/-- Inside a comment, what is no newline is read over. -/
theorem splitGap_true_append {body : List Char} (inside : '\n' ∉ body) (rest : List Char) :
    splitGap true (body ++ rest) = (body ++ (splitGap true rest).1, (splitGap true rest).2) := by
  induction body with
  | nil => rfl
  | cons c body ih =>
    rw [List.mem_cons, not_or] at inside
    have goesOn : (c != '\n') = true := by simpa using fun eq : c = '\n' => inside.1 eq.symm
    rw [List.cons_append, splitGap, goesOn, ih inside.2]
    rfl

/-- Where its line ends, a comment ends. -/
theorem splitGap_true_of_ends {rest : List Char} (ends : ∀ c ∈ rest.head?, c = '\n') :
    splitGap true rest = splitGap false rest := by
  cases rest with
  | nil => rfl
  | cons c rest =>
    obtain rfl : c = '\n' := ends c rfl
    rfl

/-- **A gap is split off whole,** if no gap begins behind it. -/
theorem IsGap.splitGap_eq {gap behind : List Char} (h : IsGap behind gap)
    (stops : ¬ BeginsGap behind) : splitGap false (gap ++ behind) = (gap, behind) := by
  induction h with
  | nil =>
    cases behind with
    | nil => rfl
    | cons c rest =>
      obtain ⟨visible, code⟩ := not_or.1 stops
      rw [List.nil_append, splitGap, if_neg visible, if_neg (by simpa using code)]
  | blank blank _ ih => rw [List.cons_append, splitGap, if_pos blank, ih]
  | @comment body gap inside ends _ ih =>
    have rest : splitGap true ('/' :: (body ++ gap) ++ behind) =
        ('/' :: (body ++ gap), behind) := by
      have inside : '\n' ∉ '/' :: body := by simp [inside]
      have comment := splitGap_true_append inside (gap ++ behind)
      rw [splitGap_true_of_ends ends, ih] at comment
      simpa using comment
    rw [List.cons_append, splitGap, if_neg (by decide), if_pos (by simp), rest]

/-- Behind a gap no other gap begins. -/
theorem not_beginsGap_splitGap (inComment : Bool) (source : List Char) :
    ¬ BeginsGap (splitGap inComment source).2 := by
  fun_induction splitGap inComment source with
  | case1 => exact id
  | case2 c rest gap behind eq ih | case3 c rest blank gap behind eq ih
  | case4 c rest blank comment gap behind eq ih =>
    rw [eq] at ih
    exact ih
  | case5 c rest visible code => exact not_or.2 ⟨visible, by simpa using code⟩

/-- A gap that may begin inside a comment. -/
def IsGapFrom (inComment : Bool) (behind gap : List Char) : Prop :=
  match inComment with
  | false => IsGap behind gap
  | true => ∃ body more, gap = body ++ more ∧ '\n' ∉ body ∧
      (∀ c ∈ (more ++ behind).head?, c = '\n') ∧ IsGap behind more

/-- **What is split off is a gap.** -/
theorem isGapFrom_splitGap (inComment : Bool) (source : List Char) :
    IsGapFrom inComment (splitGap inComment source).2 (splitGap inComment source).1 := by
  fun_induction splitGap inComment source with
  | case1 inComment =>
    cases inComment with
    | false => exact .nil
    | true => exact ⟨[], [], rfl, List.not_mem_nil, by simp, .nil⟩
  | case2 c rest gap behind eq ih =>
    rw [eq] at ih
    by_cases newline : c = '\n'
    · subst newline
      exact ⟨[], '\n' :: gap, rfl, List.not_mem_nil, by simp, .blank (by decide) ih⟩
    · rw [show (c != '\n') = true by simpa using newline] at ih
      obtain ⟨body, more, rfl, inside, ends, isGap⟩ := ih
      exact ⟨c :: body, more, rfl, by simp [inside, Ne.symm newline], ends, isGap⟩
  | case3 c rest blank gap behind eq ih =>
    rw [eq] at ih
    exact .blank blank ih
  | case4 c rest visible comment gap behind eq ih =>
    have whole := splitGap_append true rest
    rw [eq] at ih whole
    obtain ⟨rfl, slash⟩ : c = '/' ∧ rest.head? = some '/' := by simpa using comment
    obtain ⟨body, more, rfl, inside, ends, isGap⟩ := ih
    -- The second slash is part of what was read inside the comment, as it is no newline.
    cases body with
    | nil =>
      dsimp only at whole
      rw [← whole, List.nil_append] at slash
      cases ends '/' slash
    | cons d body =>
      obtain rfl : d = '/' := by simpa [← whole] using slash
      exact .comment (fun mem => inside (List.mem_cons_of_mem _ mem)) ends isGap
  | case5 c rest visible code => exact .nil

/-! ## Slices -/

/-- What the lexicon says of the slice of a token with `rest` behind it. -/
inductive Token.Fits (t : Token) (rest : List Char) : Prop where
  | token : t.kind.Spells t.text →
      (∀ k longer, Kind.Spells k longer → longer <+: t.text ++ rest →
        longer.length ≤ t.text.length) →
      t.lexeme = t.text → Fits t rest
  | unexpected {c : Char} : t.kind = .fault .unexpectedCharacter → t.text = [c] →
      (∀ k more, ¬ Kind.Spells k (c :: more)) →
      t.lexeme = "Unexpected character.".toList → Fits t rest
  | unterminated {body : List Char} : t.kind = .fault .unterminatedString →
      t.text = '"' :: body → '"' ∉ body → rest = [] →
      t.lexeme = "Unterminated string.".toList → Fits t rest

/-- A fault has no spelling. -/
theorem Token.Kind.Spells.ne_fault {k : Kind} {text : List Char} (spells : k.Spells text)
    (f : LexicalFault) : k ≠ .fault f := by
  rintro rfl
  cases spells with
  | sign sign => cases sign

/-- A token that is no fault is its lexeme. -/
theorem Token.lexeme_eq_text {t : Token} (plain : ∀ f, t.kind ≠ .fault f) : t.lexeme = t.text := by
  unfold lexeme
  split
  · rename_i f eq
    exact absurd eq (plain f)
  · rfl

namespace Lexeme

variable {c : Char} {s rest : List Char}

/-- The slice that is read starts with the character that it is read from. -/
theorem exists_text_read (c : Char) (rest : List Char) :
    ∃ s, (read c rest).text = c :: s ∧ s ++ (read c rest).rest = rest := by
  have whole := text_append_rest c rest
  obtain ⟨d, s, eq⟩ := List.exists_cons_of_ne_nil (text_ne_nil c rest)
  rw [eq, List.cons_append, List.cons.injEq] at whole
  obtain ⟨rfl, rest_eq⟩ := whole
  exact ⟨s, eq, rest_eq⟩

/-- **What is read fits the lexicon.** -/
theorem fits_read (c : Char) (rest : List Char) (line : Nat) :
    Token.Fits ⟨(read c rest).kind, (read c rest).text, line⟩ (read c rest).rest := by
  have longest (k : Token.Kind) (longer : List Char) (spells : k.Spells longer)
      (begins : longer <+: (read c rest).text ++ (read c rest).rest) :
      longer.length ≤ (read c rest).text.length := by
    rw [text_append_rest] at begins
    cases longer with
    | nil => exact Nat.zero_le _
    | cons d longer =>
      obtain ⟨more, whole⟩ := begins
      obtain ⟨rfl, rfl⟩ : d = c ∧ longer ++ more = rest := by simpa using whole
      exact length_le_of_spells spells more
  have all := reads c rest
  generalize read c rest = l at all longest ⊢
  cases all with
  | token spells => exact .token spells longest (Token.lexeme_eq_text spells.ne_fault)
  | unexpected none => exact .unexpected rfl rfl none rfl
  | unterminated quote opened =>
    subst quote
    exact .unterminated rfl rfl opened rfl rfl

/-- A quote starts no token but one with another quote. -/
theorem quote_mem_of_spells {k : Token.Kind} (spells : k.Spells ('"' :: s)) : '"' ∈ s := by
  by_contra opened
  have stops : Stops [] := nofun
  have read : read '"' (s ++ []) = ⟨k, '"' :: s, []⟩ := read_of_spells spells stops
  rw [List.append_nil, show Lexeme.read '"' s = string s from rfl, string_of_open opened] at read
  exact spells.ne_fault .unterminatedString (congrArg kind read).symm

/-- **A slice that fits is what is read.** -/
theorem read_of_fits {t : Token} (fits : t.Fits rest) (text : t.text = c :: s) :
    read c (s ++ rest) = ⟨t.kind, t.text, rest⟩ := by
  cases fits with
  | token spells longest _ =>
    rw [text] at spells longest ⊢
    have long := length_le_of_spells spells rest
    have whole : _ = (c :: s) ++ rest := text_append_rest c (s ++ rest)
    have all := reads c (s ++ rest)
    generalize read c (s ++ rest) = l at long whole all ⊢
    cases all with
    | token spells' =>
      have short := longest l.kind l.text spells' ⟨l.rest, whole⟩
      obtain ⟨same, behind⟩ := List.append_inj whole (Nat.le_antisymm short long)
      rw [same] at spells'
      rw [kind_eq_of_spells spells spells', ← same, ← behind]
    | unexpected none => exact absurd spells (none _ s)
    | unterminated quote opened =>
      subst quote
      exact absurd (List.mem_append_left rest (quote_mem_of_spells spells)) opened
  | @unexpected d kind single none _ =>
    obtain ⟨rfl, rfl⟩ : d = c ∧ s = [] := by simpa [single] using text
    rw [kind, single, List.nil_append]
    obtain ⟨more, begins, -⟩ := exists_text_read d rest
    have all := reads d rest
    generalize read d rest = l at begins all ⊢
    cases all with
    | token spells => exact absurd (begins ▸ spells) (none _ more)
    | unexpected => rfl
    | unterminated quote _ =>
      subst quote
      have closed : '"' ∉ ([] : List Char) := nofun
      exact absurd (.string closed) (none .string ['"'])
  | @unterminated body kind opening opened last _ =>
    obtain ⟨rfl, rfl⟩ : '"' = c ∧ body = s := by simpa [opening] using text
    rw [last, List.append_nil, kind, opening]
    exact string_of_open opened

end Lexeme

/-! ## Tiles -/

/-- Behind the part `read` of a source, the rest of it is gaps and slices in turn. -/
inductive Tiles : (read rest : List Char) → List Token → Prop where
  | finish {read gap : List Char} : IsGap [] gap → Tiles read gap []
  | token {read gap rest : List Char} {t : Token} {tokens : List Token} :
      IsGap (t.text ++ rest) gap → ¬ BeginsGap (t.text ++ rest) → t.Fits rest →
      t.line = 1 + lineEnds (read ++ gap ++ t.text) →
      Tiles (read ++ gap ++ t.text) rest tokens →
      Tiles read (gap ++ (t.text ++ rest)) (t :: tokens)

/-- Line ends add up. -/
theorem lineEnds_append (s t : List Char) : lineEnds (s ++ t) = lineEnds s + lineEnds t :=
  List.count_append

/-- No token is empty. -/
theorem Token.Kind.Spells.ne_nil {k : Kind} {text : List Char} (spells : k.Spells text) :
    text ≠ [] := by
  cases spells with
  | sign sign => cases k <;> cases sign <;> nofun
  | keyword k =>
    obtain ⟨c, text, spelling, -⟩ := k.exists_spelling
    rw [spelling]
    nofun
  | identifier | string => nofun
  | whole digits => exact digits.ne_nil
  | fraction => simp

/-- A token that fits has a first character. -/
theorem Token.Fits.exists_text {t : Token} {rest : List Char} (fits : t.Fits rest) :
    ∃ c s, t.text = c :: s := by
  cases fits with
  | token spells => exact List.exists_cons_of_ne_nil spells.ne_nil
  | unexpected _ single => exact ⟨_, _, single⟩
  | unterminated _ opening => exact ⟨_, _, opening⟩

namespace TokenStream

/-- **Scanning tiles a source.** -/
theorem tiles_scanFrom (line : Nat) (rest : List Char) :
    ∀ read, line = 1 + lineEnds read → Tiles read rest (scanFrom line rest).tokens := by
  fun_induction scanFrom line rest with
  | case1 line source gap split =>
    intro read _
    have whole := splitGap_append false source
    have isGap : IsGap _ _ := isGapFrom_splitGap false source
    rw [split] at whole isGap
    rw [← whole, List.append_nil]
    exact .finish isGap
  | case2 line source gap c rest split lexeme line' after ih =>
    intro read start
    have whole := splitGap_append false source
    have isGap : IsGap _ _ := isGapFrom_splitGap false source
    have stops := not_beginsGap_splitGap false source
    rw [split] at whole isGap stops
    have parts : lexeme.text ++ lexeme.rest = c :: rest := Lexeme.text_append_rest c rest
    have ends : line' = 1 + lineEnds (read ++ gap ++ lexeme.text) := by
      rw [lineEnds_append, lineEnds_append]
      omega
    rw [← parts] at whole isGap stops
    rw [← whole]
    exact .token isGap stops (Lexeme.fits_read c rest line') ends (ih _ ends)

/-- **There is no other tiling.** -/
theorem eq_of_tiles {read rest : List Char} {tokens : List Token} (tiles : Tiles read rest tokens) :
    tokens = (scanFrom (1 + lineEnds read) rest).tokens := by
  induction tiles with
  | finish isGap =>
    have split := isGap.splitGap_eq id
    rw [List.append_nil] at split
    rw [scanFrom_of_nil split]
  | @token read gap rest t tokens isGap stops fits line _ ih =>
    obtain ⟨c, s, text⟩ := fits.exists_text
    have split : splitGap false (gap ++ (t.text ++ rest)) = (gap, c :: (s ++ rest)) := by
      rw [isGap.splitGap_eq stops, text, List.cons_append]
    have ends : 1 + lineEnds read + lineEnds gap + lineEnds t.text = t.line := by
      rw [line, lineEnds_append, lineEnds_append]
      omega
    rw [← line] at ih
    rw [scanFrom_of_cons split, Lexeme.read_of_fits fits text]
    dsimp only
    rw [ends, ← ih]

/-- **A source has one tiling,** and scanning finds it. -/
theorem tiles_iff {source : List Char} {tokens : List Token} :
    Tiles [] source tokens ↔ tokens = (scan source).tokens := by
  constructor
  · exact eq_of_tiles
  · rintro rfl
    exact tiles_scanFrom 1 source [] rfl

end TokenStream
end StackScript
