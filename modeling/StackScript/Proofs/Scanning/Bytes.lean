/-
# Scanning bytes

A text in UTF-8 can be scanned byte by byte, each byte taken for the character of its number
(`spread`). Nothing that decides about a token needs more:

| bytes | are read as |
| --- | --- |
| a character below `80` | itself |
| any other character | characters of which none is a blank, a letter, a digit or a sign |

So gaps and slices end at the same characters. The one exception is a character that begins
no token: its first byte alone does not end it, and the bytes that continue it go along
(`readBytes`).
-/
import StackScript.Proofs.Scanning.Tiling

namespace StackScript

/-! ## Characters from `80` on -/

section High

variable {c : Char}

/-- A character beyond ASCII is no ASCII character. -/
theorem ne_of_high {a : Char} (high : 0x80 ≤ c.toNat) (low : a.toNat < 0x80) : c ≠ a := by
  rintro rfl
  omega

/-- A character beyond ASCII is no blank. -/
theorem isBlank_of_high (high : 0x80 ≤ c.toNat) : isBlank c = false := by
  simp only [isBlank, Bool.or_eq_false_iff, decide_eq_false_iff_not]
  exact ⟨⟨⟨ne_of_high high (by decide), ne_of_high high (by decide)⟩,
    ne_of_high high (by decide)⟩, ne_of_high high (by decide)⟩

/-- A character beyond ASCII is no digit. -/
theorem isDigit_of_high (high : 0x80 ≤ c.toNat) : c.isDigit = false := by
  rw [Bool.eq_false_iff]
  intro digit
  have digit := toNat_of_isDigit digit
  omega

/-- A character beyond ASCII is no letter. -/
theorem isLetter_of_high (high : 0x80 ≤ c.toNat) : isLetter c = false := by
  rw [Bool.eq_false_iff]
  intro letter
  rw [isLetter, Bool.or_eq_true, decide_eq_true_eq] at letter
  rcases letter with letter | line
  · have letter := toNat_of_isAlpha letter
    omega
  · exact ne_of_high high (by decide) line

/-- A character beyond ASCII does not go on with a word. -/
theorem isWordCharacter_of_high (high : 0x80 ≤ c.toNat) : isWordCharacter c = false := by
  rw [isWordCharacter, isLetter_of_high high, isDigit_of_high high]
  rfl

/-- A character from `80` on begins no token. -/
theorem Lexeme.read_of_high (high : 0x80 ≤ c.toNat) (rest : List Char) :
    read c rest = ⟨.fault .unexpectedCharacter, [c], rest⟩ := by
  obtain ⟨s, text, -⟩ := exists_text_read c rest
  have all := reads c rest
  generalize read c rest = l at text all ⊢
  cases all with
  | token spells =>
    rw [text] at spells
    obtain letter | digit | sign := starts_of_spells spells
    · rw [isLetter_of_high high] at letter
      cases letter
    · rw [isDigit_of_high high] at digit
      cases digit
    · have low : "()\x7b\x7d;,.-+/*!=<>\"".toList.all (fun a => a.toNat < 0x80) = true := rfl
      have lt := of_decide_eq_true (List.all_eq_true.1 low c sign)
      exact absurd lt (Nat.not_lt.2 high)
  | unexpected => rfl
  | unterminated quote => exact absurd quote (ne_of_high high (by decide))

end High

/-! ## Bytes as characters -/

/-- The bytes of a text, each as the character of its number. -/
def spread (text : List Char) : List Char :=
  (Utf8.encode text).map Char.ofUInt8

/-- Whether a byte continues a character. -/
def isContinuation (b : Char) : Bool :=
  0x80 ≤ b.toNat && b.toNat < 0xC0

@[simp] theorem spread_nil : spread [] = [] := rfl

/-- A text is spread part by part. -/
theorem spread_append (s t : List Char) : spread (s ++ t) = spread s ++ spread t := by
  simp [spread]

/-- A text is spread character by character. -/
theorem spread_cons (c : Char) (text : List Char) :
    spread (c :: text) = spread [c] ++ spread text :=
  spread_append [c] text

/-- A text is spread over as many characters as it has bytes. -/
theorem length_spread (text : List Char) : (spread text).length = (Utf8.encode text).length := by
  simp [spread]

/-- A byte is a character with its code. -/
theorem toNat_ofUInt8 {n : Nat} (h : n < 256) : (Char.ofUInt8 (UInt8.ofNat n)).toNat = n := by
  have byte : (UInt8.ofNat n).toUInt32.toNat = n := by simp [Nat.mod_eq_of_lt h]
  exact byte

section Spread

variable {c : Char} {text : List Char}

/-- A character below `80` is its byte. -/
theorem spread_of_lt (h : c.toNat < 0x80) (text : List Char) :
    spread (c :: text) = c :: spread text := by
  have one : String.utf8EncodeChar c = [UInt8.ofNat c.toNat] := by
    unfold String.utf8EncodeChar
    exact if_pos (Nat.le_of_lt_succ h)
  have same : Char.ofUInt8 (UInt8.ofNat c.toNat) = c := by
    apply Char.toNat_inj.1
    exact toNat_ofUInt8 (by omega)
  simp [spread, one, same]

/-- Any other character is a byte that begins it, and bytes that continue it. -/
theorem exists_spread_of_le (h : 0x80 ≤ c.toNat) :
    ∃ b bytes, spread [c] = b :: bytes ∧ 0xC0 ≤ b.toNat ∧
      ∀ d ∈ bytes, isContinuation d = true := by
  have continues (n : Nat) : isContinuation (Char.ofUInt8 (UInt8.ofNat (n % 64 + 128))) = true := by
    have value := toNat_ofUInt8 (n := n % 64 + 128) (by omega)
    rw [isContinuation, value, Bool.and_eq_true, decide_eq_true_eq, decide_eq_true_eq]
    omega
  have begins (n k : Nat) (low : 0xC0 ≤ k) (small : n + k < 256) :
      0xC0 ≤ (Char.ofUInt8 (UInt8.ofNat (n + k))).toNat := by
    rw [toNat_ofUInt8 small]
    omega
  have high : ¬ c.val.toNat ≤ 127 := Nat.not_le.2 h
  have bytes : spread [c] = (String.utf8EncodeChar c).map Char.ofUInt8 := by simp [spread]
  rw [bytes]
  unfold String.utf8EncodeChar
  dsimp only
  rw [if_neg high]
  split_ifs
  · exact ⟨_, _, rfl, begins _ _ (by omega) (by omega), List.forall_mem_singleton.2 (continues _)⟩
  · exact ⟨_, _, rfl, begins _ _ (by omega) (by omega),
      List.forall_mem_cons.2 ⟨continues _, List.forall_mem_singleton.2 (continues _)⟩⟩
  · exact ⟨_, _, rfl, begins _ _ (by omega) (by omega), List.forall_mem_cons.2 ⟨continues _,
      List.forall_mem_cons.2 ⟨continues _, List.forall_mem_singleton.2 (continues _)⟩⟩⟩

/-- A character beyond ASCII is spread over such characters. -/
theorem le_of_mem_spread (h : 0x80 ≤ c.toNat) : ∀ d ∈ spread [c], 0x80 ≤ d.toNat := by
  obtain ⟨b, bytes, spread, begins, continues⟩ := exists_spread_of_le h
  rw [spread]
  intro d mem
  rcases List.mem_cons.1 mem with rfl | mem
  · omega
  · have continues := continues d mem
    rw [isContinuation, Bool.and_eq_true, decide_eq_true_eq] at continues
    exact continues.1

/-- A source goes on with a sign if its bytes do. -/
theorem head?_spread {a : Char} (low : a.toNat < 0x80) (text : List Char) :
    (spread text).head? = some a ↔ text.head? = some a := by
  cases text with
  | nil => rfl
  | cons c text =>
    by_cases h : c.toNat < 0x80
    · rw [spread_of_lt h]
      rfl
    · obtain ⟨b, bytes, spread, begins, -⟩ := exists_spread_of_le (Nat.not_lt.1 h)
      rw [spread_cons, spread, List.cons_append, List.head?_cons, List.head?_cons]
      constructor
      · rintro ⟨⟩
        omega
      · rintro ⟨⟩
        exact absurd low h

/-- Below `80`, a character occurs in the bytes of a source as often as in the source. -/
theorem count_spread {a : Char} (low : a.toNat < 0x80) (text : List Char) :
    (spread text).count a = text.count a := by
  induction text with
  | nil => rfl
  | cons c text ih =>
    by_cases h : c.toNat < 0x80
    · rw [spread_of_lt h, List.count_cons, List.count_cons, ih]
    · have high := Nat.not_lt.1 h
      have absent : a ∉ spread [c] := fun mem => absurd (le_of_mem_spread high a mem) (by omega)
      have other : c ≠ a := ne_of_high high low
      rw [spread_cons, List.count_append, ih, List.count_eq_zero.2 absent, Nat.zero_add,
        List.count_cons_of_ne other]

/-- An ASCII character is in the spread text exactly if it is in the text. -/
theorem mem_spread {a : Char} (low : a.toNat < 0x80) : a ∈ spread text ↔ a ∈ text := by
  rw [← List.count_pos_iff, count_spread low, List.count_pos_iff]

/-- A text below `80` is its bytes. -/
theorem spread_eq_self (low : ∀ c ∈ text, c.toNat < 0x80) : spread text = text := by
  induction text with
  | nil => rfl
  | cons c text ih =>
    rw [List.forall_mem_cons] at low
    rw [spread_of_lt low.1, ih low.2]

/-- No character begins with a byte that continues one. -/
theorem isContinuation_head?_spread (text : List Char) :
    ∀ b ∈ (spread text).head?, isContinuation b = false := by
  cases text with
  | nil => nofun
  | cons c text =>
    by_cases h : c.toNat < 0x80
    · rw [spread_of_lt h]
      rintro _ ⟨⟩
      simp only [isContinuation, Bool.and_eq_false_iff, decide_eq_false_iff_not]
      omega
    · obtain ⟨b, bytes, spread, begins, -⟩ := exists_spread_of_le (Nat.not_lt.1 h)
      rw [spread_cons, spread]
      rintro _ ⟨⟩
      simp only [isContinuation, Bool.and_eq_false_iff, decide_eq_false_iff_not]
      omega

end Spread

/-! ## Runs of characters -/

section Runs

variable {p : Char → Bool} {v : Bool}

/-- A run of characters is a run of bytes, if `p` says the same of all characters from `80`
on. -/
theorem takeWhile_dropWhile_spread (flat : ∀ c : Char, 0x80 ≤ c.toNat → p c = v)
    (text : List Char) :
    (spread text).takeWhile p = spread (text.takeWhile p) ∧
      (spread text).dropWhile p = spread (text.dropWhile p) := by
  induction text with
  | nil => exact ⟨rfl, rfl⟩
  | cons c text ih =>
    obtain ⟨take, drop⟩ := ih
    by_cases h : c.toNat < 0x80
    · rw [spread_of_lt h, List.takeWhile_cons, List.dropWhile_cons, List.takeWhile_cons,
        List.dropWhile_cons]
      split
      · rw [spread_of_lt h, take, drop]
        exact ⟨rfl, rfl⟩
      · rw [spread_of_lt h]
        exact ⟨rfl, rfl⟩
    · have high := Nat.not_lt.1 h
      have bytes : ∀ d ∈ spread [c], p d = v := fun d mem => flat d (le_of_mem_spread high d mem)
      rw [List.takeWhile_cons, List.dropWhile_cons, flat c high, spread_cons c text]
      cases v with
      | true =>
        rw [List.takeWhile_append_of_pos bytes, List.dropWhile_append_of_pos bytes, take, drop]
        exact ⟨(spread_cons c _).symm, rfl⟩
      | false =>
        obtain ⟨b, more, block, -, -⟩ := exists_spread_of_le high
        have first : p b = false := bytes b (by rw [block]; exact List.mem_cons_self ..)
        rw [if_neg Bool.false_ne_true, if_neg Bool.false_ne_true, spread_cons c text, block,
          List.cons_append, List.takeWhile_cons_of_neg (by simp [first]),
          List.dropWhile_cons_of_neg (by simp [first])]
        exact ⟨rfl, rfl⟩

end Runs

/-- **A gap of a source is a gap of its bytes.** -/
theorem splitGap_spread (inComment : Bool) (text : List Char) :
    splitGap inComment (spread text) =
      (spread (splitGap inComment text).1, spread (splitGap inComment text).2) := by
  induction text generalizing inComment with
  | nil => cases inComment <;> rfl
  | cons c text ih =>
    by_cases h : c.toNat < 0x80
    · cases inComment with
      | true =>
        rw [spread_of_lt h, splitGap, splitGap, ih]
        dsimp only
        rw [spread_of_lt h]
      | false =>
        have code : (c = '/' && (spread text).head? = some '/') =
            (c = '/' && text.head? = some '/') := by
          rw [decide_eq_decide.2 (head?_spread (by decide) text)]
        rw [spread_of_lt h, splitGap, splitGap, code]
        split_ifs
        · rw [ih]
          dsimp only
          rw [spread_of_lt h]
        · rw [ih]
          dsimp only
          rw [spread_of_lt h]
        · rw [spread_of_lt h]
          rfl
    · have high := Nat.not_lt.1 h
      cases inComment with
      | true =>
        have inside : '\n' ∉ spread [c] := fun mem =>
          absurd (le_of_mem_spread high _ mem) (by decide)
        have goesOn : (c != '\n') = true := by simpa using ne_of_high high (by decide)
        rw [spread_cons, splitGap_true_append inside, ih, splitGap, goesOn]
        exact Prod.ext (spread_cons c _).symm rfl
      | false =>
        obtain ⟨b, bytes, block, begins, -⟩ := exists_spread_of_le high
        have high' : 0x80 ≤ b.toNat := by omega
        have visible (d : Char) (high : 0x80 ≤ d.toNat) (rest : List Char) :
            splitGap false (d :: rest) = ([], d :: rest) := by
          have sign : d ≠ '/' := ne_of_high high (by decide)
          rw [splitGap, if_neg (by simp [isBlank_of_high high]), if_neg (by simp [sign])]
        rw [spread_cons, block, List.cons_append, visible b high', visible c high, spread_cons,
          block]
        rfl

/-! ## Slices of bytes -/

namespace Lexeme

open Token (Kind)

variable {c : Char} {rest : List Char}

/-- A slice in bytes. -/
def inBytes (l : Lexeme) : Lexeme :=
  ⟨l.kind, spread l.text, spread l.rest⟩

/-- The slice that some bytes begin with. Where no token begins, the bytes that continue the
first one go along. -/
def readBytes (b : Char) (rest : List Char) : Lexeme :=
  let l := read b rest
  if l.kind = .fault .unexpectedCharacter then
    ⟨l.kind, b :: rest.takeWhile isContinuation, rest.dropWhile isContinuation⟩
  else l

/-- A word is the same among bytes. -/
theorem word_spread (low : c.toNat < 0x80) (rest : List Char) :
    word c (spread rest) = (word c rest).inBytes := by
  have flat : ∀ c : Char, 0x80 ≤ c.toNat → isWordCharacter c = false :=
    fun c => isWordCharacter_of_high
  obtain ⟨take, drop⟩ := takeWhile_dropWhile_spread flat rest
  have plain : spread (rest.takeWhile isWordCharacter) = rest.takeWhile isWordCharacter := by
    refine spread_eq_self fun d mem => ?_
    by_contra high
    have letter := List.mem_takeWhile_imp mem
    rw [flat d (Nat.not_lt.1 high)] at letter
    cases letter
  unfold word inBytes
  rw [take, drop, spread_of_lt low, plain]

/-- A number is the same among bytes. -/
theorem number_spread (low : c.toNat < 0x80) (rest : List Char) :
    number c (spread rest) = (number c rest).inBytes := by
  have flat : ∀ c : Char, 0x80 ≤ c.toNat → c.isDigit = false := fun c => isDigit_of_high
  obtain ⟨take, drop⟩ := takeWhile_dropWhile_spread flat rest
  have point : '.'.toNat < 0x80 := by decide
  have low_of_digit (d : Char) (digit : d.isDigit = true) : d.toNat < 0x80 := by
    by_contra high
    rw [flat d (Nat.not_lt.1 high)] at digit
    cases digit
  by_cases fraction : ∃ d more, rest.dropWhile Char.isDigit = '.' :: d :: more ∧ d.isDigit = true
  · obtain ⟨d, more, eq, digit⟩ := fraction
    obtain ⟨take', drop'⟩ := takeWhile_dropWhile_spread flat more
    have low' := low_of_digit d digit
    simp only [number, inBytes, take, drop, eq, spread_of_lt point, spread_of_lt low', if_pos digit,
      take', drop', List.cons_append, spread_of_lt low, spread_append]
  · have whole (d : Char) (more : List Char)
        (eq : rest.dropWhile Char.isDigit = '.' :: d :: more) : d.isDigit = false := by
      simpa using fun digit => fraction ⟨d, more, eq, digit⟩
    rw [number_of_not_fraction c whole, number_of_not_fraction, take, drop, inBytes,
      spread_of_lt low]
    intro d more eq
    rw [drop] at eq
    by_contra digit
    rw [Bool.not_eq_false] at digit
    -- The point and the digit below `80` are there only if the source itself has them.
    have first : (rest.dropWhile Char.isDigit).head? = some '.' := by
      rw [← head?_spread point, eq]
      rfl
    obtain ⟨tail, source⟩ : ∃ tail, rest.dropWhile Char.isDigit = '.' :: tail :=
      List.head?_eq_some_iff.1 first
    rw [source, spread_of_lt point, List.cons.injEq] at eq
    have second : tail.head? = some d := by
      rw [← head?_spread (low_of_digit d digit), eq.2]
      rfl
    obtain ⟨tail', rfl⟩ := List.head?_eq_some_iff.1 second
    exact fraction ⟨d, tail', source, digit⟩

/-- A sign is the same among bytes. -/
theorem orEqual_spread (low : c.toNat < 0x80) (rest : List Char) (short long : Kind) :
    orEqual c (spread rest) short long = (orEqual c rest short long).inBytes := by
  have sign : '='.toNat < 0x80 := by decide
  have other (rest : List Char) (h : rest.head? ≠ some '=') :
      orEqual c rest short long = ⟨short, [c], rest⟩ := by
    unfold orEqual
    split
    · exact absurd rfl h
    · rfl
  by_cases first : rest.head? = some '='
  · obtain ⟨tail, rfl⟩ := List.head?_eq_some_iff.1 first
    rw [spread_of_lt sign, orEqual, orEqual, inBytes, spread_of_lt low]
    rfl
  · rw [other rest first, other (spread rest) (mt (head?_spread sign rest).1 first), inBytes,
      spread_of_lt low]
    rfl

/-- A string is the same among bytes. -/
theorem string_spread (rest : List Char) : string (spread rest) = (string rest).inBytes := by
  have quote : '"'.toNat < 0x80 := by decide
  by_cases closed : '"' ∈ rest
  · obtain ⟨body, more, rfl, first⟩ := List.eq_append_cons_of_mem closed
    have first' : '"' ∉ spread body := mt (mem_spread quote).1 first
    rw [spread_append, spread_of_lt quote, string_of_closed first, string_of_closed first', inBytes,
      spread_of_lt quote, spread_append]
    rfl
  · have opened : '"' ∉ spread rest := mt (mem_spread quote).1 closed
    rw [string_of_open closed, string_of_open opened, inBytes, spread_of_lt quote]
    rfl

/-- **A slice of a source is a slice of its bytes,** if it starts below `80`. -/
theorem read_spread (low : c.toNat < 0x80) (rest : List Char) :
    read c (spread rest) = (read c rest).inBytes := by
  unfold read
  split
  · exact word_spread low rest
  · split
    · exact number_spread low rest
    · split <;> first
        | exact orEqual_spread low rest ..
        | exact string_spread rest
        | rw [inBytes, spread_of_lt low]
          rfl

/-- **Slices of bytes end where characters end.** -/
theorem readBytes_spread {b : Char} {bytes : List Char} (block : spread [c] = b :: bytes)
    (rest : List Char) : readBytes b (bytes ++ spread rest) = (read c rest).inBytes := by
  have stop := isContinuation_head?_spread rest
  by_cases h : c.toNat < 0x80
  · rw [spread_of_lt h, spread_nil, List.cons.injEq] at block
    obtain ⟨rfl, rfl⟩ := block
    unfold readBytes
    rw [List.nil_append, read_spread h]
    have all := reads c rest
    generalize read c rest = l at all ⊢
    cases all with
    | token spells => exact if_neg (spells.ne_fault .unexpectedCharacter)
    | unterminated => rfl
    | unexpected =>
      have none := takeWhile_append_of_stop (s := []) nofun stop
      have all := dropWhile_append_of_stop (s := []) nofun stop
      rw [List.nil_append] at none all
      dsimp only [inBytes]
      rw [if_pos rfl, none, all, spread_of_lt h]
      rfl
  · have high := Nat.not_lt.1 h
    obtain ⟨b', bytes', block', begins, continues⟩ := exists_spread_of_le high
    obtain ⟨rfl, rfl⟩ : b = b' ∧ bytes = bytes' := by simpa using block.symm.trans block'
    have high' : 0x80 ≤ b.toNat := by omega
    unfold readBytes
    rw [read_of_high high, read_of_high high', inBytes]
    dsimp only
    rw [if_pos rfl, takeWhile_append_of_stop continues stop,
      dropWhile_append_of_stop continues stop, block]

end Lexeme
end StackScript
