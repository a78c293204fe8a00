/-
# Reading tokens

A source is a sequence of gaps and slices in turn. A gap holds blanks and comments; a
slice is the longest token that the rest of the source begins with:

| first character | slice |
| --- | --- |
| letter or `_` | letters, digits and `_`; a keyword if the whole word is reserved |
| digit | digits, and a point with further digits if a digit follows the point |
| `"` | everything up to the next `"`, newlines included |
| `!` `=` `<` `>` | with a following `=`, if there is one |
| other punctuation | that character |

Any other character is a fault of its own, and a `"` that no other follows is a fault
that takes the rest of the source. Letters and digits are those of ASCII.

The slices and gaps lose nothing: `splitGap_append` and `Lexeme.text_append_rest`.
-/
import StackScript.Token

namespace StackScript

/-- Characters that separate tokens. -/
def isBlank (c : Char) : Bool :=
  c = ' ' || c = '\r' || c = '\t' || c = '\n'

/-- Characters that start a word. -/
def isLetter (c : Char) : Bool :=
  c.isAlpha || c = '_'

/-- Characters that continue a word. -/
def isWordCharacter (c : Char) : Bool :=
  isLetter c || c.isDigit

/-- The number of line ends in a piece of source. -/
def lineEnds (text : List Char) : Nat :=
  text.count '\n'

/-- The gap at the beginning of a source and what follows it. The first argument says
whether the source begins inside a comment, which runs to the end of its line. -/
def splitGap : Bool → List Char → List Char × List Char
  | _, [] => ([], [])
  | true, c :: rest =>
    let (gap, rest) := splitGap (c != '\n') rest
    (c :: gap, rest)
  | false, c :: rest =>
    if isBlank c then
      let (gap, rest) := splitGap false rest
      (c :: gap, rest)
    else if c = '/' && rest.head? = some '/' then
      let (gap, rest) := splitGap true rest
      (c :: gap, rest)
    else ([], c :: rest)

/-- A gap and what follows it make up the source. -/
theorem splitGap_append (inComment : Bool) (source : List Char) :
    (splitGap inComment source).1 ++ (splitGap inComment source).2 = source := by
  fun_induction splitGap inComment source <;> simp_all

/-- A gap does not make a source longer. -/
theorem length_splitGap_le (inComment : Bool) (source : List Char) :
    (splitGap inComment source).2.length ≤ source.length := by
  have := congrArg List.length (splitGap_append inComment source)
  rw [List.length_append] at this
  omega

/-- The slice that a source begins with, and the source after it. -/
structure Lexeme where
  kind : Token.Kind
  text : List Char
  rest : List Char
  deriving DecidableEq

namespace Lexeme

/-- A word that starts with a letter. -/
def word (c : Char) (rest : List Char) : Lexeme :=
  let text := c :: rest.takeWhile isWordCharacter
  let kind :=
    match Keyword.ofSpelling? text with
    | some k => .keyword k
    | none => .identifier
  ⟨kind, text, rest.dropWhile isWordCharacter⟩

/-- A number that starts with a digit. -/
def number (c : Char) (rest : List Char) : Lexeme :=
  let whole := c :: rest.takeWhile Char.isDigit
  match rest.dropWhile Char.isDigit with
  | '.' :: d :: rest =>
    if d.isDigit then
      ⟨.number, whole ++ '.' :: d :: rest.takeWhile Char.isDigit, rest.dropWhile Char.isDigit⟩
    else ⟨.number, whole, '.' :: d :: rest⟩
  | rest => ⟨.number, whole, rest⟩

/-- A string literal, read after its opening quote. -/
def string (rest : List Char) : Lexeme :=
  let body := rest.takeWhile (· != '"')
  match rest.dropWhile (· != '"') with
  | [] => ⟨.fault .unterminatedString, '"' :: body, []⟩
  | quote :: rest => ⟨.string, '"' :: body ++ [quote], rest⟩

/-- One of two tokens, the longer if `=` follows. -/
def orEqual (c : Char) (rest : List Char) (short long : Token.Kind) : Lexeme :=
  match rest with
  | '=' :: rest => ⟨long, [c, '='], rest⟩
  | rest => ⟨short, [c], rest⟩

/-- The slice that starts with `c`, which begins no gap. -/
def read (c : Char) (rest : List Char) : Lexeme :=
  if isLetter c then word c rest
  else if c.isDigit then number c rest
  else match c with
    | '(' => ⟨.leftParen, [c], rest⟩
    | ')' => ⟨.rightParen, [c], rest⟩
    | '{' => ⟨.leftBrace, [c], rest⟩
    | '}' => ⟨.rightBrace, [c], rest⟩
    | ';' => ⟨.semicolon, [c], rest⟩
    | ',' => ⟨.comma, [c], rest⟩
    | '.' => ⟨.dot, [c], rest⟩
    | '-' => ⟨.minus, [c], rest⟩
    | '+' => ⟨.plus, [c], rest⟩
    | '/' => ⟨.slash, [c], rest⟩
    | '*' => ⟨.star, [c], rest⟩
    | '!' => orEqual c rest .bang .bangEqual
    | '=' => orEqual c rest .equal .equalEqual
    | '<' => orEqual c rest .less .lessEqual
    | '>' => orEqual c rest .greater .greaterEqual
    | '"' => string rest
    | _ => ⟨.fault .unexpectedCharacter, [c], rest⟩

/-- A word and what follows it are what was read. -/
theorem word_text_append_rest (c : Char) (rest : List Char) :
    (word c rest).text ++ (word c rest).rest = c :: rest := by
  simp [word]

/-- A number and what follows it are what was read. -/
theorem number_text_append_rest (c : Char) (rest : List Char) :
    (number c rest).text ++ (number c rest).rest = c :: rest := by
  have whole := List.takeWhile_append_dropWhile (p := Char.isDigit) (l := rest)
  unfold number
  dsimp only
  split
  · rename_i d rest' eq
    rw [eq] at whole
    split <;> simp [whole]
  · simp

/-- A string and what follows it are what was read. -/
theorem string_text_append_rest (rest : List Char) :
    (string rest).text ++ (string rest).rest = '"' :: rest := by
  have whole := List.takeWhile_append_dropWhile (p := (· != '"')) (l := rest)
  unfold string
  dsimp only
  split <;> simp_all

/-- A sign, short or long, and what follows it are what was read. -/
theorem orEqual_text_append_rest (c : Char) (rest : List Char) (short long : Token.Kind) :
    (orEqual c rest short long).text ++ (orEqual c rest short long).rest = c :: rest := by
  unfold orEqual
  split <;> rfl

/-- A slice and what follows it make up the source. -/
theorem text_append_rest (c : Char) (rest : List Char) :
    (read c rest).text ++ (read c rest).rest = c :: rest := by
  unfold read
  split
  · exact word_text_append_rest c rest
  · split
    · exact number_text_append_rest c rest
    · split <;> first
        | rfl
        | exact orEqual_text_append_rest ..
        | exact string_text_append_rest rest

/-- Something is read of every character. -/
theorem text_ne_nil (c : Char) (rest : List Char) : (read c rest).text ≠ [] := by
  unfold read word number string orEqual
  dsimp only
  repeat' split
  all_goals simp

/-- So what follows a token is shorter than what was read. -/
theorem length_rest_lt (c : Char) (rest : List Char) :
    (read c rest).rest.length < (c :: rest).length := by
  have whole := congrArg List.length (text_append_rest c rest)
  have pos := List.length_pos_iff.2 (text_ne_nil c rest)
  rw [List.length_append] at whole
  omega

end Lexeme

namespace TokenStream

/-- The tokens of a source that starts on a given line. -/
def scanFrom (line : Nat) (source : List Char) : TokenStream :=
  match _split : splitGap false source with
  | (gap, []) => ⟨[], line + lineEnds gap⟩
  | (gap, c :: rest) =>
    let lexeme := Lexeme.read c rest
    let line := line + lineEnds gap + lineEnds lexeme.text
    let after := scanFrom line lexeme.rest
    ⟨⟨lexeme.kind, lexeme.text, line⟩ :: after.tokens, after.lastLine⟩
termination_by source.length
decreasing_by
  have gap := length_splitGap_le false source
  rw [_split] at gap
  exact Nat.lt_of_lt_of_le (Lexeme.length_rest_lt c rest) gap

/-- The tokens of a source. Its first line is line 1. -/
def scan (source : List Char) : TokenStream :=
  scanFrom 1 source

end TokenStream
end StackScript
