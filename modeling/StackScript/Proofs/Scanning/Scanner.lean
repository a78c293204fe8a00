/-
# A scanner at a position

A scanner holds a source, the number of bytes of it that were read and the line that was
reached. Each call reads a gap and a slice further, byte by byte, and cuts the slice out of
the source:

| what is left | is answered with |
| --- | --- |
| a slice, perhaps behind a gap | its token |
| a gap, or nothing | the end, on the same line each time |

A cut inside a character is no text (`cutAt?`), so a call could fail to answer. None does:
a scanner always stands between two characters (`Stands`), and its calls answer what
`TokenStream.scan` reads, which tiles the source.
-/
import StackScript.Proofs.Scanning.Bytes

namespace StackScript

/-! ## Cuts -/

/-- A text, cut in two after `n` bytes. There is no cut inside a character. -/
def cutAt? : List Char → Nat → Option (List Char × List Char)
  | text, 0 => some ([], text)
  | [], _ + 1 => none
  | c :: text, n + 1 =>
    if n + 1 < c.utf8Size then none
    else (cutAt? text (n + 1 - c.utf8Size)).map fun (before, behind) => (c :: before, behind)

/-- The part of a text between two cuts. -/
def slice? (text : List Char) (start stop : Nat) : Option (List Char) := do
  let (_, behind) ← cutAt? text start
  let (slice, _) ← cutAt? behind (stop - start)
  return slice

/-- A text is cut at the end of its first part. -/
theorem cutAt?_append (s t : List Char) : cutAt? (s ++ t) (Utf8.encode s).length = some (s, t) := by
  induction s with
  | nil => cases t <;> rfl
  | cons c s ih =>
    have size : (Utf8.encode (c :: s)).length = c.utf8Size + (Utf8.encode s).length := by
      rw [Utf8.encode_cons, List.length_append, String.length_utf8EncodeChar]
    have pos := c.utf8Size_pos
    obtain ⟨n, eq⟩ : ∃ n, c.utf8Size + (Utf8.encode s).length = n + 1 :=
      ⟨c.utf8Size + (Utf8.encode s).length - 1, by omega⟩
    have whole : ¬ n + 1 < c.utf8Size := by omega
    have further : n + 1 - c.utf8Size = (Utf8.encode s).length := by omega
    rw [size, eq, List.cons_append, cutAt?, if_neg whole, further, ih]
    rfl

/-- The middle part of a text is the slice between its ends. -/
theorem slice?_append (s t u : List Char) :
    slice? (s ++ (t ++ u)) (Utf8.encode s).length
      ((Utf8.encode s).length + (Utf8.encode t).length) = some t := by
  simp only [slice?, cutAt?_append, Nat.add_sub_cancel_left, Option.bind_eq_bind, Option.bind_some]
  rfl

/-! ## Scanners -/

/-- A source, the number of its bytes that were read and the line that was reached. -/
structure ByteScanner where
  source : List Char
  position : Nat
  line : Nat

namespace ByteScanner

/-- A scanner of a source. -/
def start (source : List Char) : ByteScanner :=
  ⟨source, 0, 1⟩

/-- The bytes that are left. -/
def unread (s : ByteScanner) : List Char :=
  (spread s.source).drop s.position

/-- A call for the next token: it reads a gap, and then the slice that the remaining bytes
begin with. Without a slice there is no answer. -/
def next (s : ByteScanner) : Option (Token × ByteScanner) :=
  match splitGap false s.unread with
  | (gap, []) => do
    let position := s.position + gap.length
    let line := s.line + lineEnds gap
    let text ← slice? s.source position position
    return (⟨.finish, text, line⟩, ⟨s.source, position, line⟩)
  | (gap, b :: rest) => do
    let l := Lexeme.readBytes b rest
    let start := s.position + gap.length
    let stop := start + l.text.length
    let line := s.line + lineEnds gap + lineEnds l.text
    let text ← slice? s.source start stop
    return (⟨l.kind, text, line⟩, ⟨s.source, stop, line⟩)

/-- The tokens of `n` calls. -/
def nextAll : Nat → ByteScanner → Option (List Token)
  | 0, _ => some []
  | n + 1, s => do
    let (t, s) ← s.next
    let tokens ← nextAll n s
    return t :: tokens

/-- A scanner stands between what it has read and the rest of the source. -/
structure Stands (s : ByteScanner) (read rest : List Char) : Prop where
  source : s.source = read ++ rest
  position : s.position = (Utf8.encode read).length
  line : s.line = 1 + lineEnds read

/-- A character has a first byte. -/
theorem exists_spread_eq_cons (c : Char) : ∃ b bytes, spread [c] = b :: bytes := by
  refine List.exists_cons_of_length_pos ?_
  rw [length_spread, Utf8.encode_cons, Utf8.encode_nil, List.append_nil,
    String.length_utf8EncodeChar]
  exact c.utf8Size_pos

/-- As many lines end among the bytes. -/
theorem lineEnds_spread (text : List Char) : lineEnds (spread text) = lineEnds text :=
  count_spread (by decide) text

section Step

variable {s : ByteScanner} {read rest gap : List Char}

/-- What is unread is the rest, in bytes. -/
theorem Stands.unread (h : s.Stands read rest) : s.unread = spread rest := by
  rw [ByteScanner.unread, h.source, h.position, spread_append, ← length_spread, List.drop_left]

/-- A scanner that has read more of its source stands further on. -/
theorem Stands.further (h : s.Stands read (gap ++ rest)) :
    Stands ⟨s.source, s.position + (spread gap).length, s.line + lineEnds (spread gap)⟩
      (read ++ gap) rest := by
  refine ⟨?_, ?_, ?_⟩
  · rw [List.append_assoc]
    exact h.source
  · rw [length_spread, Utf8.encode_append, List.length_append, ← h.position]
  · rw [lineEnds_spread, lineEnds_append, ← Nat.add_assoc, ← h.line]

/-- The slice from the position is the text that comes next. -/
theorem Stands.slice? {text : List Char} (h : s.Stands read (text ++ rest)) :
    slice? s.source s.position (s.position + (spread text).length) = some text := by
  rw [h.source, h.position, length_spread, slice?_append]

/-- At the end of its source, a scanner answers with the end. -/
theorem Stands.next_of_nil (h : s.Stands read rest) (split : splitGap false rest = (gap, [])) :
    ∃ s', s.next = some (.atEnd s'.line, s') ∧ s'.Stands (read ++ gap) [] := by
  obtain rfl : gap = rest := by simpa [split] using splitGap_append false rest
  have bytes := splitGap_spread false gap
  rw [split, spread_nil] at bytes
  have after : Stands _ (read ++ gap) ([] ++ []) := Stands.further (by simpa using h)
  have cut := after.slice?
  rw [spread_nil, List.length_nil, Nat.add_zero] at cut
  refine ⟨_, ?_, after⟩
  rw [ByteScanner.next, h.unread, bytes]
  dsimp only at cut ⊢
  rw [cut]
  rfl

/-- **Before a slice, a scanner answers with its token.** -/
theorem Stands.next_of_cons {c : Char} {behind : List Char} (h : s.Stands read rest)
    (split : splitGap false rest = (gap, c :: behind)) :
    let l := Lexeme.read c behind
    ∃ s', s.next = some (⟨l.kind, l.text, s'.line⟩, s') ∧
      s'.Stands (read ++ gap ++ l.text) l.rest := by
  intro l
  obtain ⟨b, bytes, block⟩ := exists_spread_eq_cons c
  have whole : gap ++ (l.text ++ l.rest) = rest := by
    rw [Lexeme.text_append_rest]
    simpa [split] using splitGap_append false rest
  have splitBytes := splitGap_spread false rest
  rw [split, spread_cons, block, List.cons_append, ← h.unread] at splitBytes
  rw [← whole] at h
  have behindGap := h.further
  have cut := behindGap.slice?
  refine ⟨_, ?_, behindGap.further⟩
  rw [ByteScanner.next, splitBytes]
  dsimp only at cut ⊢
  rw [Lexeme.readBytes_spread block behind]
  dsimp only [Lexeme.inBytes]
  rw [cut]
  rfl

end Step

/-- The calls of a scanner answer what is read from where it stands. -/
theorem Stands.nextAll {s : ByteScanner} {read rest : List Char} (h : s.Stands read rest)
    (n : Nat) :
    let stream := TokenStream.scanFrom (1 + lineEnds read) rest
    s.nextAll n = some ((List.range n).map fun i => stream.tokens.getD i stream.finish) := by
  induction n generalizing s read rest with
  | zero => rfl
  | succ n ih =>
    intro stream
    cases split : splitGap false rest with
    | mk gap behind =>
      cases behind with
      | nil =>
        obtain ⟨s', next, stands⟩ := h.next_of_nil split
        have line : s'.line = 1 + lineEnds read + lineEnds gap := by
          rw [stands.line, lineEnds_append, Nat.add_assoc]
        have nothing : splitGap false [] = ([], []) := rfl
        have ended : TokenStream.scanFrom (1 + lineEnds (read ++ gap)) [] = ⟨[], s'.line⟩ := by
          rw [TokenStream.scanFrom_of_nil nothing, stands.line]
          rfl
        have ih := ih stands
        dsimp only [stream]
        rw [TokenStream.scanFrom_of_nil split, ← line, ByteScanner.nextAll, next]
        rw [ended] at ih
        simp only [Option.bind_eq_bind, Option.bind_some, ih, List.range_succ_eq_map, List.map_cons,
          List.map_map]
        rfl
      | cons c behind =>
        obtain ⟨s', next, stands⟩ := h.next_of_cons split
        have line : s'.line = 1 + lineEnds read + lineEnds gap +
            lineEnds (Lexeme.read c behind).text := by
          rw [stands.line, lineEnds_append, lineEnds_append]
          omega
        have ih := ih stands
        dsimp only [stream]
        rw [TokenStream.scanFrom_of_cons split, ByteScanner.nextAll, next]
        dsimp only
        rw [← line]
        rw [← stands.line] at ih
        simp only [Option.bind_eq_bind, Option.bind_some, ih, List.range_succ_eq_map, List.map_cons,
          List.map_map]
        rfl

end ByteScanner

/-! ## Keywords among the tokens -/

/-- The text of a keyword is its spelling. -/
theorem Token.Kind.Spells.eq_spelling {k : Keyword} {text : List Char}
    (spells : Spells (.keyword k) text) : text = k.spelling := by
  cases spells with
  | sign sign => cases sign
  | keyword => rfl

/-- A token is a keyword exactly if the whole slice is the spelling of one. -/
theorem Token.Fits.kind_eq_keyword_iff {t : Token} {rest : List Char} (fits : t.Fits rest)
    (k : Keyword) : t.kind = .keyword k ↔ t.text = k.spelling := by
  have spells : Kind.Spells (.keyword k) k.spelling := .keyword k
  cases fits with
  | token spells' _ _ =>
    constructor
    · intro kind
      rw [kind] at spells'
      exact spells'.eq_spelling
    · intro text
      obtain ⟨c, s, cons⟩ := List.exists_cons_of_ne_nil spells'.ne_nil
      rw [← text, cons] at spells
      rw [cons] at spells'
      exact Lexeme.kind_eq_of_spells spells' spells
  | unexpected kind single none _ =>
    rw [kind, single]
    refine ⟨nofun, fun text => ?_⟩
    rw [← text] at spells
    exact absurd spells (none _ [])
  | unterminated kind opening opened _ _ =>
    rw [kind, opening]
    refine ⟨nofun, fun text => ?_⟩
    rw [← text] at spells
    exact absurd (Lexeme.quote_mem_of_spells spells) opened

/-- Every token of a tiling fits in front of something. -/
theorem Tiles.exists_fits {read source : List Char} {tokens : List Token}
    (tiles : Tiles read source tokens) : ∀ t ∈ tokens, ∃ rest, t.Fits rest := by
  induction tiles with
  | finish => nofun
  | token _ _ fits _ _ ih => exact List.forall_mem_cons.2 ⟨⟨_, fits⟩, ih⟩

/-- **Scanning tiles a source by longest tokens.** Calls of a scanner always answer: first the
tokens of the source, then its end, again and again. The tokens are the one tiling of the source,
and among them the keywords are the slices that are spelled like one. -/
theorem scan_tiles_source (source : List Char) :
    (∀ calls, (ByteScanner.start source).nextAll calls = some ((List.range calls).map fun i =>
      (TokenStream.scan source).tokens.getD i (TokenStream.scan source).finish)) ∧
    (∀ tokens, Tiles [] source tokens ↔ tokens = (TokenStream.scan source).tokens) ∧
    (TokenStream.scan source).finish = .atEnd (1 + lineEnds source) ∧
    ∀ t ∈ (TokenStream.scan source).tokens, ∀ k, t.kind = .keyword k ↔ t.text = k.spelling := by
  have stands : (ByteScanner.start source).Stands [] source := ⟨rfl, rfl, rfl⟩
  have tiles : Tiles [] source (TokenStream.scan source).tokens := TokenStream.tiles_iff.2 rfl
  refine ⟨stands.nextAll, fun _ => TokenStream.tiles_iff, ?_, ?_⟩
  · exact congrArg Token.atEnd (TokenStream.lastLine_scanFrom 1 source)
  · intro t mem k
    obtain ⟨rest, fits⟩ := tiles.exists_fits t mem
    exact fits.kind_eq_keyword_iff k

/-- No cut is made inside `é`, `ü` or `ß`, which are two bytes each. -/
example : (ByteScanner.start "é\n1.//ü\n\"ß".toList).nextAll 5 =
    some [⟨.fault .unexpectedCharacter, ['é'], 1⟩, ⟨.number, ['1'], 2⟩, ⟨.dot, ['.'], 2⟩,
      ⟨.fault .unterminatedString, ['"', 'ß'], 3⟩, .atEnd 3] := by
  decide +kernel

end StackScript
