/-
# The lexicon

Which texts are tokens, said without a scanner (`Token.Kind.Spells`):

| kind | texts |
| --- | --- |
| a sign | one text each (`Token.Kind.sign?`) |
| a keyword | its spelling |
| identifier | a letter, then letters and digits, and not a keyword |
| number | digits, or digits, a point and digits |
| string | a quote, anything but quotes, a quote |

`Lexeme.read` knows this lexicon. What it reads is a token of it, or a fault where no token
begins (`reads`); no longer token begins there (`length_le_of_spells`); and a token is read
as what it is if the source ends or a blank stands behind it (`read_of_spells`).
-/
import StackScript.Proofs.Lines

namespace StackScript

/-! ## Texts of tokens -/

/-- How a punctuation mark or an operator is written. -/
def Token.Kind.sign? : Kind → Option (List Char)
  | leftParen => some ['(']
  | rightParen => some [')']
  | leftBrace => some ['{']
  | rightBrace => some ['}']
  | comma => some [',']
  | dot => some ['.']
  | minus => some ['-']
  | plus => some ['+']
  | semicolon => some [';']
  | slash => some ['/']
  | star => some ['*']
  | bang => some ['!']
  | bangEqual => some ['!', '=']
  | equal => some ['=']
  | equalEqual => some ['=', '=']
  | greater => some ['>']
  | greaterEqual => some ['>', '=']
  | less => some ['<']
  | lessEqual => some ['<', '=']
  | _ => none

/-- One digit or more. -/
structure IsDigits (text : List Char) : Prop where
  ne_nil : text ≠ []
  all : ∀ d ∈ text, d.isDigit = true

/-- The texts of a kind of token. -/
inductive Token.Kind.Spells : Kind → List Char → Prop where
  | sign {k : Kind} {text : List Char} : k.sign? = some text → Spells k text
  | keyword (k : Keyword) : Spells (.keyword k) k.spelling
  | identifier {c : Char} {text : List Char} : isLetter c = true →
      (∀ d ∈ text, isWordCharacter d = true) → (∀ k : Keyword, k.spelling ≠ c :: text) →
      Spells identifier (c :: text)
  | whole {digits : List Char} : IsDigits digits → Spells number digits
  | fraction {digits decimals : List Char} : IsDigits digits → IsDigits decimals →
      Spells number (digits ++ '.' :: decimals)
  | string {body : List Char} : '"' ∉ body → Spells string ('"' :: (body ++ ['"']))

/-- A keyword is a word. -/
theorem Keyword.exists_spelling (k : Keyword) : ∃ c text, k.spelling = c :: text ∧
    isLetter c = true ∧ ∀ d ∈ text, isWordCharacter d = true := by
  cases k <;> exact ⟨_, _, rfl, rfl, List.all_eq_true.1 rfl⟩

/-- Digits are a range. -/
theorem toNat_of_isDigit {c : Char} (digit : c.isDigit = true) : 48 ≤ c.toNat ∧ c.toNat ≤ 57 := by
  simpa [Char.isDigit, UInt32.le_iff_toNat_le] using digit

/-- Letters are two ranges. -/
theorem toNat_of_isAlpha {c : Char} (h : c.isAlpha = true) :
    0x41 ≤ c.toNat ∧ c.toNat ≤ 0x5A ∨ 0x61 ≤ c.toNat ∧ c.toNat ≤ 0x7A := by
  change (decide (65 ≤ c.val ∧ c.val ≤ 90) ||
    (decide (97 ≤ c.val) && decide (c.val ≤ 122))) = true at h
  simpa [UInt32.le_iff_toNat_le] using h

/-- No digit is a letter. -/
theorem isLetter_of_isDigit {c : Char} (digit : c.isDigit = true) : isLetter c = false := by
  have not_letter : c.isAlpha = false := by
    rw [Bool.eq_false_iff]
    intro letter
    have letter := toNat_of_isAlpha letter
    have digit := toNat_of_isDigit digit
    omega
  have not_line : c ≠ '_' := by
    rintro rfl
    cases digit
  simp [isLetter, not_letter, not_line]

section Cut

variable {p : Char → Bool} {s rest : List Char}

/-- A run of characters is taken up to where it stops. -/
theorem takeWhile_append_of_stop (inside : ∀ a ∈ s, p a = true)
    (stop : ∀ a ∈ rest.head?, p a = false) : (s ++ rest).takeWhile p = s := by
  rw [List.takeWhile_append_of_pos inside]
  cases rest with
  | nil => simp
  | cons a rest => simp [stop a rfl]

/-- What is dropped ends where the condition stops. -/
theorem dropWhile_append_of_stop (inside : ∀ a ∈ s, p a = true)
    (stop : ∀ a ∈ rest.head?, p a = false) : (s ++ rest).dropWhile p = rest := by
  rw [List.dropWhile_append_of_pos inside]
  cases rest with
  | nil => rfl
  | cons a rest => simp [stop a rfl]

/-- Runs of characters that stop end where they stop. -/
theorem append_inj_of_stop {s' rest' : List Char} (inside : ∀ a ∈ s, p a = true)
    (inside' : ∀ a ∈ s', p a = true) (stop : ∀ a ∈ rest.head?, p a = false)
    (stop' : ∀ a ∈ rest'.head?, p a = false) (eq : s ++ rest = s' ++ rest') :
    s = s' ∧ rest = rest' := by
  have same : s = s' := by
    rw [← takeWhile_append_of_stop inside stop, eq, takeWhile_append_of_stop inside' stop']
  subst same
  exact ⟨rfl, List.append_cancel_left eq⟩

/-- A run of characters is no longer than what is taken there. -/
theorem length_le_takeWhile_append (inside : ∀ a ∈ s, p a = true) (rest : List Char) :
    s.length ≤ ((s ++ rest).takeWhile p).length := by
  rw [List.takeWhile_append_of_pos inside, List.length_append]
  exact Nat.le_add_right ..

end Cut

/-- The source ends here, or goes on with a blank. -/
def Stops (rest : List Char) : Prop :=
  ∀ b ∈ rest.head?, isBlank b = true

/-- What is no blank does not begin where a token has to stop. -/
theorem Stops.eq_false {p : Char → Bool} {rest : List Char} (stops : Stops rest)
    (visible : ∀ b, isBlank b = true → p b = false) : ∀ b ∈ rest.head?, p b = false :=
  fun b mem => visible b (stops b mem)

/-- There are four blanks. -/
theorem eq_of_isBlank {b : Char} (blank : isBlank b = true) :
    b = ' ' ∨ b = '\r' ∨ b = '\t' ∨ b = '\n' := by
  simpa [isBlank, or_assoc] using blank

/-- No blank goes on with a word. -/
theorem isWordCharacter_of_isBlank (b : Char) (blank : isBlank b = true) :
    isWordCharacter b = false := by
  obtain rfl | rfl | rfl | rfl := eq_of_isBlank blank <;> decide

/-- No blank is a digit. -/
theorem isDigit_of_isBlank (b : Char) (blank : isBlank b = true) : b.isDigit = false := by
  obtain rfl | rfl | rfl | rfl := eq_of_isBlank blank <;> decide

namespace Lexeme

open Token (Kind)

variable {k : Kind} {c : Char} {s rest more : List Char}

/-! ## Reading a token of the lexicon -/

/-- A letter starts a word. -/
theorem read_of_isLetter (letter : isLetter c = true) (rest : List Char) :
    read c rest = word c rest :=
  if_pos letter

/-- A digit starts a number. -/
theorem read_of_isDigit (digit : c.isDigit = true) (rest : List Char) :
    read c rest = number c rest := by
  unfold read
  rw [if_neg (by simp [isLetter_of_isDigit digit]), if_pos digit]

/-- In front of a stop a sign is short. -/
theorem orEqual_of_stops (stops : Stops rest) (short long : Kind) :
    orEqual c rest short long = ⟨short, [c], rest⟩ := by
  unfold orEqual
  split
  · have blank := stops '=' rfl
    cases blank
  · rfl

/-- In front of a stop a word ends. -/
theorem word_of_stops (letters : ∀ d ∈ s, isWordCharacter d = true) (stops : Stops rest) :
    word c (s ++ rest) =
      ⟨match Keyword.ofSpelling? (c :: s) with
        | some k => .keyword k
        | none => .identifier, c :: s, rest⟩ := by
  have stop := stops.eq_false isWordCharacter_of_isBlank
  unfold word
  rw [takeWhile_append_of_stop letters stop, dropWhile_append_of_stop letters stop,
    Lexeme.mk.injEq]
  exact ⟨rfl, rfl, rfl⟩

/-- In front of a stop a whole number ends. -/
theorem number_whole (digits : ∀ d ∈ s, d.isDigit = true) (stops : Stops rest) :
    number c (s ++ rest) = ⟨.number, c :: s, rest⟩ := by
  have stop := stops.eq_false isDigit_of_isBlank
  have drop := dropWhile_append_of_stop digits stop
  rw [number_of_not_fraction, drop, takeWhile_append_of_stop digits stop]
  intro d fraction eq
  rw [drop] at eq
  subst eq
  have blank := stops '.' rfl
  cases blank

/-- A point and a digit go on with a number, whatever follows. -/
theorem number_fraction {d : Char} (digits : ∀ d ∈ s, d.isDigit = true) (digit : d.isDigit = true)
    (rest : List Char) :
    number c (s ++ '.' :: d :: rest) =
      ⟨.number, c :: (s ++ '.' :: d :: rest.takeWhile Char.isDigit),
        rest.dropWhile Char.isDigit⟩ := by
  have stop : ∀ a ∈ ('.' :: d :: rest).head?, a.isDigit = false := by simp
  unfold number
  rw [takeWhile_append_of_stop digits stop, dropWhile_append_of_stop digits stop]
  exact if_pos digit

/-- A string ends with the next quote. -/
theorem string_of_closed (closed : '"' ∉ s) (rest : List Char) :
    string (s ++ '"' :: rest) = ⟨.string, '"' :: (s ++ ['"']), rest⟩ := by
  have inside : ∀ a ∈ s, (a != '"') = true := by
    intro a mem
    simpa using fun eq : a = '"' => closed (eq ▸ mem)
  have stop : ∀ a ∈ ('"' :: rest).head?, (a != '"') = false := by simp
  unfold string
  rw [takeWhile_append_of_stop inside stop, dropWhile_append_of_stop inside stop]
  rfl

/-- Without another quote a string has no end. -/
theorem string_of_open (opened : '"' ∉ s) :
    string s = ⟨.fault .unterminatedString, '"' :: s, []⟩ := by
  have inside : ∀ a ∈ s, (a != '"') = true := by
    intro a mem
    simpa using fun eq : a = '"' => opened (eq ▸ mem)
  unfold string
  rw [List.takeWhile_eq_self_iff.2 inside, List.dropWhile_eq_nil_iff.2 inside]

/-- **A token is read as what it is,** if the source ends behind it or goes on with a blank. -/
theorem read_of_spells (spells : k.Spells (c :: s)) (stops : Stops rest) :
    read c (s ++ rest) = ⟨k, c :: s, rest⟩ := by
  generalize whole : c :: s = text at spells
  cases spells with
  | sign sign =>
    cases k <;> cases sign <;> cases whole <;> first
      | rfl
      | exact orEqual_of_stops stops ..
  | keyword k =>
    obtain ⟨d, letters, spelling, letter, inside⟩ := k.exists_spelling
    obtain ⟨rfl, rfl⟩ : c = d ∧ s = letters := by simpa [spelling] using whole
    rw [read_of_isLetter letter, word_of_stops inside stops, spelling,
      Keyword.ofSpelling?_eq_some_iff.2 spelling]
  | identifier letter inside free =>
    cases whole
    have plain : Keyword.ofSpelling? (c :: s) = none := by
      rw [Option.eq_none_iff_forall_ne_some]
      exact fun k eq => free k (Keyword.ofSpelling?_eq_some_iff.1 eq)
    rw [read_of_isLetter letter, word_of_stops inside stops, plain]
  | whole digits =>
    subst whole
    rw [read_of_isDigit (digits.all c (List.mem_cons_self ..))]
    exact number_whole (fun d mem => digits.all d (List.mem_cons_of_mem c mem)) stops
  | @fraction digits decimals first second =>
    obtain ⟨d, digits, rfl⟩ := List.exists_cons_of_ne_nil first.ne_nil
    obtain ⟨e, decimals, rfl⟩ := List.exists_cons_of_ne_nil second.ne_nil
    obtain ⟨rfl, rfl⟩ : c = d ∧ s = digits ++ '.' :: e :: decimals := by simpa using whole
    have inside : ∀ d ∈ digits, d.isDigit = true :=
      fun d mem => first.all d (List.mem_cons_of_mem _ mem)
    have behind : ∀ d ∈ decimals, d.isDigit = true :=
      fun d mem => second.all d (List.mem_cons_of_mem _ mem)
    have stop := stops.eq_false isDigit_of_isBlank
    rw [read_of_isDigit (first.all c (List.mem_cons_self ..)), List.append_assoc,
      List.cons_append, List.cons_append,
      number_fraction inside (second.all e (List.mem_cons_self ..)),
      takeWhile_append_of_stop behind stop, dropWhile_append_of_stop behind stop]
    rfl
  | @string body closed =>
    obtain ⟨rfl, rfl⟩ : c = '"' ∧ s = body ++ ['"'] := by simpa using whole
    rw [List.append_assoc]
    exact string_of_closed closed rest

/-- A text is a token of one kind only. -/
theorem kind_eq_of_spells {k' : Kind} (spells : k.Spells (c :: s)) (spells' : k'.Spells (c :: s)) :
    k = k' := by
  have stops : Stops [] := nofun
  have same := (read_of_spells spells stops).symm.trans (read_of_spells spells' stops)
  exact congrArg kind same

/-! ## Nothing longer is a token -/

/-- **What is read is the longest token** that begins there. -/
theorem length_le_of_spells (spells : k.Spells (c :: s)) (more : List Char) :
    (c :: s).length ≤ (read c (s ++ more)).text.length := by
  have one (c : Char) (rest : List Char) : 1 ≤ (read c rest).text.length :=
    List.length_pos_iff.2 (text_ne_nil c rest)
  have letters (letter : isLetter c = true) (inside : ∀ d ∈ s, isWordCharacter d = true) :
      (c :: s).length ≤ (read c (s ++ more)).text.length := by
    rw [read_of_isLetter letter]
    exact Nat.succ_le_succ (length_le_takeWhile_append inside more)
  generalize whole : c :: s = text at spells
  cases spells with
  | sign sign =>
    cases k <;> cases sign <;> cases whole <;> first
      | exact one ..
      | exact Nat.le_refl 2
  | keyword k =>
    obtain ⟨d, rest, spelling, letter, inside⟩ := k.exists_spelling
    obtain ⟨rfl, rfl⟩ : c = d ∧ s = rest := by simpa [spelling] using whole
    rw [← whole]
    exact letters letter inside
  | identifier letter inside free =>
    cases whole
    exact letters letter inside
  | whole digits =>
    subst whole
    have inside : ∀ d ∈ s, d.isDigit = true :=
      fun d mem => digits.all d (List.mem_cons_of_mem c mem)
    rw [read_of_isDigit (digits.all c (List.mem_cons_self ..))]
    have taken := Nat.succ_le_succ (length_le_takeWhile_append inside more)
    unfold number
    dsimp only
    split
    · split
      · rw [List.length_append]
        exact Nat.le_add_right_of_le taken
      · exact taken
    · exact taken
  | @fraction digits decimals first second =>
    obtain ⟨d, digits, rfl⟩ := List.exists_cons_of_ne_nil first.ne_nil
    obtain ⟨e, decimals, rfl⟩ := List.exists_cons_of_ne_nil second.ne_nil
    obtain ⟨rfl, rfl⟩ : c = d ∧ s = digits ++ '.' :: e :: decimals := by simpa using whole
    have inside : ∀ d ∈ digits, d.isDigit = true :=
      fun d mem => first.all d (List.mem_cons_of_mem _ mem)
    have behind : ∀ d ∈ decimals, d.isDigit = true :=
      fun d mem => second.all d (List.mem_cons_of_mem _ mem)
    have taken := length_le_takeWhile_append behind more
    rw [read_of_isDigit (first.all c (List.mem_cons_self ..))]
    simp only [List.append_assoc, List.cons_append]
    rw [number_fraction inside (second.all e (List.mem_cons_self ..))]
    simp only [List.length_cons, List.length_append]
    omega
  | @string body closed =>
    obtain ⟨rfl, rfl⟩ : c = '"' ∧ s = body ++ ['"'] := by simpa using whole
    rw [List.append_assoc]
    have read : read '"' (body ++ (['"'] ++ more)) = _ := string_of_closed closed more
    rw [read]

/-! ## What is read -/

/-- What is read as a word spells one. -/
theorem spells_word (letter : isLetter c = true) (rest : List Char) :
    (word c rest).kind.Spells (word c rest).text := by
  unfold word
  dsimp only
  split
  · rename_i k reserved
    rw [← Keyword.ofSpelling?_eq_some_iff.1 reserved]
    exact .keyword k
  · rename_i plain
    refine .identifier letter (fun d => List.mem_takeWhile_imp) fun k spelling => ?_
    rw [Keyword.ofSpelling?_eq_some_iff.2 spelling] at plain
    cases plain

/-- What is read as a number spells one. -/
theorem spells_number (digit : c.isDigit = true) (rest : List Char) :
    (number c rest).kind.Spells (number c rest).text := by
  have digits (d : Char) (digit : d.isDigit = true) (rest : List Char) :
      IsDigits (d :: rest.takeWhile Char.isDigit) :=
    ⟨nofun, List.forall_mem_cons.2 ⟨digit, fun d => List.mem_takeWhile_imp⟩⟩
  unfold number
  dsimp only
  split
  · rename_i d rest' _
    split
    · rename_i digit'
      exact .fraction (digits c digit rest) (digits d digit' rest')
    · exact .whole (digits c digit rest)
  · exact .whole (digits c digit rest)

/-- What can be read: a token, a character that is none, or an open string. -/
inductive Reads (c : Char) (rest : List Char) : Lexeme → Prop where
  | token {l : Lexeme} : l.kind.Spells l.text → Reads c rest l
  | unexpected : (∀ k more, ¬ Kind.Spells k (c :: more)) →
      Reads c rest ⟨.fault .unexpectedCharacter, [c], rest⟩
  | unterminated : c = '"' → '"' ∉ rest →
      Reads c rest ⟨.fault .unterminatedString, c :: rest, []⟩

/-- How a token can start. -/
theorem starts_of_spells (spells : k.Spells (c :: s)) :
    isLetter c = true ∨ c.isDigit = true ∨ c ∈ "()\x7b\x7d;,.-+/*!=<>\"".toList := by
  generalize whole : c :: s = text at spells
  cases spells with
  | sign sign =>
    cases k <;> cases sign <;> cases whole <;> exact .inr (.inr (by decide))
  | keyword k =>
    obtain ⟨d, rest, spelling, letter, -⟩ := k.exists_spelling
    obtain ⟨rfl, rfl⟩ : c = d ∧ s = rest := by simpa [spelling] using whole
    exact .inl letter
  | identifier letter =>
    cases whole
    exact .inl letter
  | whole digits =>
    subst whole
    exact .inr (.inl (digits.all c (List.mem_cons_self ..)))
  | fraction first second =>
    obtain ⟨d, digits, rfl⟩ := List.exists_cons_of_ne_nil first.ne_nil
    obtain ⟨rfl, -⟩ : c = d ∧ _ := by simpa using whole
    exact .inr (.inl (first.all c (List.mem_cons_self ..)))
  | string =>
    obtain ⟨rfl, -⟩ : c = '"' ∧ _ := by simpa using whole
    exact .inr (.inr (by decide))

/-- A sign is read long if it can be, and short otherwise. -/
theorem reads_orEqual {short long : Kind} (rest : List Char) (hs : short.sign? = some [c])
    (hl : long.sign? = some [c, '=']) : Reads c rest (orEqual c rest short long) := by
  unfold orEqual
  split
  · exact .token (.sign hl)
  · exact .token (.sign hs)

/-- A string is read to its end, if it has one. -/
theorem reads_string (rest : List Char) : Reads '"' rest (string rest) := by
  by_cases closed : '"' ∈ rest
  · obtain ⟨body, more, rfl, first⟩ := List.eq_append_cons_of_mem closed
    rw [string_of_closed first]
    exact .token (.string first)
  · rw [string_of_open closed]
    exact .unterminated rfl closed

/-- **All that can be read.** -/
theorem reads (c : Char) (rest : List Char) : Reads c rest (read c rest) := by
  unfold read
  split
  · rename_i letter
    exact .token (spells_word letter rest)
  · rename_i not_letter
    split
    · rename_i digit
      exact .token (spells_number digit rest)
    · rename_i not_digit
      split <;> first
        | exact .token (.sign rfl)
        | exact reads_orEqual rest rfl rfl
        | exact reads_string rest
        | refine .unexpected fun k more spells => ?_
      obtain letter | digit | sign := starts_of_spells spells
      · exact not_letter letter
      · exact not_digit digit
      · simp_all

end Lexeme
end StackScript
