/-
# Scanning undoes printing

Tokens are printed one after the other, each with a separator behind it: a blank, and then
any blanks and comments, of which every comment ends with its line. Whatever the separators
are, scanning gives the tokens back, so:

| in the source | is not taken for |
| --- | --- |
| two tokens with a separator between them | one token (`! =`, `1 . 5`, `/ /`) |
| what stands in a string or a comment | a token |

A separator is a gap in front of anything, and a token stops where it begins. So what was
printed is tiled by separators and tokens, and there is only one tiling of a source.
-/
import StackScript.Proofs.Scanning.Tiling

namespace StackScript

/-! ## Separators -/

/-- Blanks, and comments with the ends of their lines. -/
inductive Filler : List Char → Prop where
  | nil : Filler []
  | blank {c : Char} {rest : List Char} : isBlank c = true → Filler rest → Filler (c :: rest)
  | comment {body rest : List Char} : '\n' ∉ body → Filler rest →
      Filler ('/' :: '/' :: (body ++ '\n' :: rest))

/-- A separator is a gap in front of anything. -/
theorem Filler.isGap {gap : List Char} (filler : Filler gap) (behind : List Char) :
    IsGap behind gap := by
  induction filler with
  | nil => exact .nil
  | blank blank _ ih => exact .blank blank ih
  | @comment body rest inside _ ih =>
    have newline : isBlank '\n' = true := by decide
    exact .comment inside (by simp) (.blank newline ih)

/-- A token as it is printed, with a separator behind it. -/
structure PrintedToken where
  kind : Token.Kind
  text : List Char
  /-- The blank that the separator starts with. -/
  blank : Char
  /-- The rest of the separator. -/
  filler : List Char
  spells : kind.Spells text
  isBlank_blank : isBlank blank = true
  filler_filler : Filler filler

/-- A source of printed tokens. -/
def PrintedToken.printAll (printed : List PrintedToken) : List Char :=
  printed.flatMap fun p => p.text ++ p.blank :: p.filler

/-! ## Tokens in front of a separator -/

section Stops

variable {k : Token.Kind} {c : Char} {s text rest : List Char}

/-- No token starts with a blank. -/
theorem Token.Kind.Spells.not_isBlank (spells : k.Spells (c :: s)) : isBlank c = false := by
  rw [Bool.eq_false_iff]
  intro blank
  obtain rfl | rfl | rfl | rfl := eq_of_isBlank blank <;>
    obtain letter | digit | sign := Lexeme.starts_of_spells spells <;> revert ‹_› <;> decide

/-- A token in front of a separator does not begin a gap, even if it is a slash. -/
theorem Token.Kind.Spells.not_beginsGap (spells : k.Spells text) (stops : Stops rest) :
    ¬ BeginsGap (text ++ rest) := by
  obtain ⟨c, s, rfl⟩ := List.exists_cons_of_ne_nil spells.ne_nil
  rintro (blank | ⟨rfl, comment⟩)
  · rw [spells.not_isBlank] at blank
    cases blank
  · have read := Lexeme.read_of_spells spells stops
    have single : ['/'] = '/' :: s := congrArg Lexeme.text read
    obtain rfl : [] = s := (List.cons.inj single).2
    have blank := stops '/' comment
    cases blank

/-- A token in front of a separator fits the lexicon. -/
theorem Token.Kind.Spells.fits (spells : k.Spells text) (stops : Stops rest) (line : Nat) :
    Token.Fits ⟨k, text, line⟩ rest := by
  obtain ⟨c, s, rfl⟩ := List.exists_cons_of_ne_nil spells.ne_nil
  have fits := Lexeme.fits_read c (s ++ rest) line
  rw [Lexeme.read_of_spells spells stops] at fits
  exact fits

end Stops

/-! ## Main statement -/

/-- What was printed is tiled by its tokens, behind any part of a source and a gap. -/
theorem PrintedToken.exists_tiles (printed : List PrintedToken) (read : List Char)
    {gap : List Char} (filler : Filler gap) :
    ∃ tokens, Tiles read (gap ++ printAll printed) tokens ∧
      tokens.map (fun t => (t.kind, t.lexeme)) = printed.map fun p => (p.kind, p.text) := by
  induction printed generalizing read gap with
  | nil =>
    refine ⟨[], ?_, rfl⟩
    rw [printAll, List.flatMap_nil, List.append_nil]
    exact .finish (filler.isGap [])
  | cons p printed ih =>
    have stops : Stops (p.blank :: p.filler ++ printAll printed) := by
      rintro b ⟨⟩
      exact p.isBlank_blank
    let t : Token := ⟨p.kind, p.text, 1 + lineEnds (read ++ gap ++ p.text)⟩
    have fits : t.Fits (p.blank :: p.filler ++ printAll printed) := p.spells.fits stops _
    have lexeme : t.lexeme = p.text := Token.lexeme_eq_text p.spells.ne_fault
    obtain ⟨tokens, tiles, same⟩ :=
      ih (read ++ gap ++ p.text) (.blank p.isBlank_blank p.filler_filler)
    refine ⟨t :: tokens, ?_, ?_⟩
    · rw [printAll, List.flatMap_cons, List.append_assoc]
      exact .token (filler.isGap _) (p.spells.not_beginsGap stops) fits rfl tiles
    · rw [List.map_cons, List.map_cons, same, lexeme]

/-- **Scanning undoes printing:** it gives back every kind and every text in their order, and
then the end of the source, whatever the separators are. -/
theorem scan_printAll (printed : List PrintedToken) :
    let stream := TokenStream.scan (PrintedToken.printAll printed)
    (stream.tokens ++ [stream.finish]).map (fun t => (t.kind, t.lexeme)) =
      printed.map (fun p => (p.kind, p.text)) ++ [(.finish, [])] := by
  obtain ⟨tokens, tiles, same⟩ := PrintedToken.exists_tiles printed [] .nil
  have scanned := TokenStream.tiles_iff.1 tiles
  intro stream
  rw [List.map_append, ← same, scanned]
  rfl

/-- A token with a single blank behind it. -/
def PrintedToken.spaced {k : Token.Kind} {text : List Char} (spells : k.Spells text) :
    PrintedToken :=
  ⟨k, text, ' ', [], spells, rfl, .nil⟩

/-- Signs do not grow together, a keyword in a string or a comment stays there, and a word that
starts with a keyword is a name. -/
theorem scan_printAll_mixed :
    ∃ printed, PrintedToken.printAll printed =
        "var vary ! = \"print // nil\" // print 1\n 1.5 . 15 / / nil\t// end\n".toList ∧
      let stream := TokenStream.scan (PrintedToken.printAll printed)
      (stream.tokens ++ [stream.finish]).map (fun t => (t.kind, String.ofList t.lexeme)) =
        [(.keyword .varWord, "var"), (.identifier, "vary"), (.bang, "!"), (.equal, "="),
          (.string, "\"print // nil\""), (.number, "1.5"), (.dot, "."), (.number, "15"),
          (.slash, "/"), (.slash, "/"), (.keyword .nilWord, "nil"), (.finish, "")] := by
  have name : Token.Kind.identifier.Spells ('v' :: "ary".toList) :=
    .identifier (by decide : isLetter 'v' = true) (List.all_eq_true.1 rfl) fun k => by
      cases k <;> decide
  have one : IsDigits ['1'] := ⟨by decide, List.all_eq_true.1 rfl⟩
  have five : IsDigits ['5'] := ⟨by decide, List.all_eq_true.1 rfl⟩
  have fraction : Token.Kind.number.Spells (['1'] ++ '.' :: ['5']) := .fraction one five
  have whole : Token.Kind.number.Spells ['1', '5'] := .whole ⟨by decide, List.all_eq_true.1 rfl⟩
  have quoted : Token.Kind.string.Spells ('"' :: ("print // nil".toList ++ ['"'])) :=
    .string (by decide : '"' ∉ "print // nil".toList)
  have comment : Filler ('/' :: '/' :: (" print 1".toList ++ '\n' :: [' '])) :=
    .comment (by decide : '\n' ∉ " print 1".toList) (.blank rfl .nil)
  have last : Filler ('/' :: '/' :: (" end".toList ++ '\n' :: [])) :=
    .comment (by decide : '\n' ∉ " end".toList) .nil
  let printed : List PrintedToken :=
    [.spaced (.keyword .varWord), .spaced name, .spaced (k := .bang) (.sign rfl),
      .spaced (k := .equal) (.sign rfl), ⟨.string, _, ' ', _, quoted, rfl, comment⟩,
      .spaced fraction, .spaced (k := .dot) (.sign rfl), .spaced whole,
      .spaced (k := .slash) (.sign rfl), .spaced (k := .slash) (.sign rfl),
      ⟨.keyword .nilWord, _, '\t', _, .keyword .nilWord, rfl, last⟩]
  have texts := congrArg (List.map fun p => (p.1, String.ofList p.2)) (scan_printAll printed)
  refine ⟨printed, rfl, ?_⟩
  rw [List.map_map] at texts
  exact texts

end StackScript
