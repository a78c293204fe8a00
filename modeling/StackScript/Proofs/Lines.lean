/-
# One source below another

Two sources are put one below the other, with a newline between them. The newline ends
whatever the first one leaves open, a comment included, unless that is a string. So the
tokens are those of the first source and then those of the second
(`TokenStream.scanFrom_append`), which has moved down:

| moved down by `n` lines | changes |
| --- | --- |
| a source, its tokens | `n` is added to the line of every token |
| tokens, the tree that they are | `n` is added to every line of the tree |

Nothing else about a token or a tree depends on its lines, and if two sources are
declarations, so are both together (`Program.Derives.join`).
-/
import StackScript.Proofs.Acceptance

namespace StackScript

/-! ## Gaps and slices before a newline -/

section Newline

variable {p : Char → Bool} {inComment : Bool} {c : Char} {gap rest source : List Char}

/-- What is taken ends at the end of the line at the latest. -/
theorem takeWhile_append_newline (newline : p '\n' = false) (s t : List Char) :
    (s ++ '\n' :: t).takeWhile p = s.takeWhile p := by
  induction s with
  | nil => rw [List.nil_append, List.takeWhile_cons_of_neg (by simp [newline]), List.takeWhile_nil]
  | cons c s ih => rw [List.cons_append, List.takeWhile_cons, List.takeWhile_cons, ih]

/-- What is dropped ends at the end of the line at the latest. -/
theorem dropWhile_append_newline (newline : p '\n' = false) (s t : List Char) :
    (s ++ '\n' :: t).dropWhile p = s.dropWhile p ++ '\n' :: t := by
  induction s with
  | nil => rw [List.nil_append, List.dropWhile_cons_of_neg (by simp [newline]), List.dropWhile_nil,
      List.nil_append]
  | cons c s ih =>
    rw [List.cons_append, List.dropWhile_cons, List.dropWhile_cons]
    split
    · exact ih
    · rfl

/-- A gap that ends the source goes on behind the newline. -/
theorem splitGap_append_of_nil (t : List Char) (split : splitGap inComment source = (gap, [])) :
    splitGap inComment (source ++ '\n' :: t) =
      (gap ++ '\n' :: (splitGap false t).1, (splitGap false t).2) := by
  induction source generalizing inComment gap with
  | nil =>
    cases split
    cases inComment <;> rfl
  | cons c source ih =>
    cases inComment with
    | true =>
      rw [splitGap, Prod.mk.injEq] at split
      rw [List.cons_append, splitGap, ih (Prod.ext rfl split.2), ← split.1]
      rfl
    | false =>
      rw [splitGap] at split
      rw [List.cons_append, splitGap]
      split_ifs at split with blank comment
      · rw [Prod.mk.injEq] at split
        rw [if_pos blank, ih (Prod.ext rfl split.2), ← split.1]
        rfl
      · rw [Prod.mk.injEq] at split
        have comment' : (c = '/' && (source ++ '\n' :: t).head? = some '/') = true := by
          cases source <;> simp_all
        rw [if_neg blank, if_pos comment', ih (Prod.ext rfl split.2), ← split.1]
        rfl
      · cases split

/-- A gap in front of a slice stays as it is. -/
theorem splitGap_append_of_cons (t : List Char)
    (split : splitGap inComment source = (gap, c :: rest)) :
    splitGap inComment (source ++ '\n' :: t) = (gap, c :: (rest ++ '\n' :: t)) := by
  induction source generalizing inComment gap with
  | nil => cases inComment <;> cases split
  | cons b source ih =>
    cases inComment with
    | true =>
      rw [splitGap, Prod.mk.injEq] at split
      rw [List.cons_append, splitGap, ih (Prod.ext rfl split.2), ← split.1]
    | false =>
      rw [splitGap] at split
      rw [List.cons_append, splitGap]
      split_ifs at split with blank comment
      · rw [Prod.mk.injEq] at split
        rw [if_pos blank, ih (Prod.ext rfl split.2), ← split.1]
      · rw [Prod.mk.injEq] at split
        have comment' : (b = '/' && (source ++ '\n' :: t).head? = some '/') = true := by
          cases source <;> simp_all
        rw [if_neg blank, if_pos comment', ih (Prod.ext rfl split.2), ← split.1]
      · cases split
        have comment' : ¬ (c = '/' && (rest ++ '\n' :: t).head? = some '/') = true := by
          cases rest <;> simp_all
        rw [if_neg blank, if_neg comment']

end Newline

namespace Lexeme

variable {c : Char} {rest t : List Char}

/-- The slice with more source after it. -/
def followedBy (l : Lexeme) (t : List Char) : Lexeme :=
  { l with rest := l.rest ++ t }

/-- A word does not go on behind the end of the line. -/
theorem word_append (c : Char) (rest t : List Char) :
    word c (rest ++ '\n' :: t) = (word c rest).followedBy ('\n' :: t) := by
  unfold word followedBy
  rw [takeWhile_append_newline (by decide), dropWhile_append_newline (by decide)]

/-- Without a point and a digit, a number is whole. -/
theorem number_of_not_fraction (c : Char)
    (whole : ∀ d fraction, rest.dropWhile Char.isDigit = '.' :: d :: fraction → d.isDigit = false) :
    number c rest =
      ⟨.number, c :: rest.takeWhile Char.isDigit, rest.dropWhile Char.isDigit⟩ := by
  unfold number
  dsimp only
  split
  · rename_i d fraction eq
    rw [if_neg (by simp [whole d fraction eq]), eq]
  · rfl

/-- A number does not go on behind the end of the line. -/
theorem number_append (c : Char) (rest t : List Char) :
    number c (rest ++ '\n' :: t) = (number c rest).followedBy ('\n' :: t) := by
  have take : (rest ++ '\n' :: t).takeWhile Char.isDigit = rest.takeWhile Char.isDigit :=
    takeWhile_append_newline (by decide) rest t
  have drop : (rest ++ '\n' :: t).dropWhile Char.isDigit =
      rest.dropWhile Char.isDigit ++ '\n' :: t := dropWhile_append_newline (by decide) rest t
  by_cases point : ∃ d fraction, rest.dropWhile Char.isDigit = '.' :: d :: fraction ∧ d.isDigit
  · obtain ⟨d, fraction, eq, digit⟩ := point
    simp only [number, take, drop, eq, List.cons_append, if_pos digit]
    rw [takeWhile_append_newline (by decide), dropWhile_append_newline (by decide)]
    rfl
  · have whole (d : Char) (fraction : List Char)
        (eq : rest.dropWhile Char.isDigit = '.' :: d :: fraction) : d.isDigit = false := by
      simpa using fun digit => point ⟨d, fraction, eq, digit⟩
    rw [number_of_not_fraction c whole, number_of_not_fraction, take, drop]
    · rfl
    · intro d fraction eq
      rw [drop] at eq
      match after : rest.dropWhile Char.isDigit with
      | [] => simp [after] at eq
      | [b] =>
        obtain ⟨-, rfl, -⟩ : b = '.' ∧ '\n' = d ∧ t = fraction := by simpa [after] using eq
        rfl
      | b :: e :: more =>
        obtain ⟨rfl, rfl, -⟩ : b = '.' ∧ e = d ∧ more ++ '\n' :: t = fraction := by
          simpa [after] using eq
        exact whole e more after

/-- A string that is closed does not go on. -/
theorem string_append (t : List Char)
    (closed : (string rest).kind ≠ .fault .unterminatedString) :
    string (rest ++ t) = (string rest).followedBy t := by
  unfold string at *
  cases eq : rest.dropWhile (· != '"') with
  | nil =>
    simp only [eq] at closed
    exact absurd rfl closed
  | cons quote after =>
    have whole := List.takeWhile_append_dropWhile (p := (· != '"')) (l := rest)
    have shorter : (rest.takeWhile (· != '"')).length ≠ rest.length := by
      have := congrArg List.length whole
      rw [eq, List.length_append, List.length_cons] at this
      omega
    simp only [List.takeWhile_append, if_neg shorter, List.dropWhile_append, eq, List.isEmpty_cons,
      Bool.false_eq_true, if_false]
    rfl

/-- A sign does not go on behind the end of the line. -/
theorem orEqual_append (c : Char) (rest t : List Char) (short long : Token.Kind) :
    orEqual c (rest ++ '\n' :: t) short long =
      (orEqual c rest short long).followedBy ('\n' :: t) := by
  unfold orEqual
  cases rest with
  | nil => rfl
  | cons b rest =>
    by_cases sign : b = '='
    · subst sign
      rfl
    · rw [List.cons_append]
      split <;> split <;> simp_all [followedBy]

/-- A slice that is not an open string ends before a newline. -/
theorem read_append (t : List Char)
    (closed : (read c rest).kind ≠ .fault .unterminatedString) :
    read c (rest ++ '\n' :: t) = (read c rest).followedBy ('\n' :: t) := by
  unfold read at *
  split
  · exact word_append ..
  · split
    · exact number_append ..
    · split <;> first
        | rfl
        | exact orEqual_append ..
        | exact string_append _ closed

end Lexeme

/-! ## Tokens, moved down -/

/-- A token, `n` lines further down. -/
def Token.shift (n : Nat) (t : Token) : Token :=
  { t with line := t.line + n }

/-- A token that is no fault has no fault's kind. -/
theorem Token.kind_ne_fault (t : Token) (clear : t.isFault = false) (fault : LexicalFault) :
    t.kind ≠ .fault fault := by
  intro kind
  rw [isFault, kind] at clear
  cases clear

@[simp] theorem Token.text_shift (n : Nat) (t : Token) : (t.shift n).text = t.text := rfl

namespace TokenStream

variable {line : Nat} {source : List Char}

/-- Where only a gap is left there are no more tokens. -/
theorem scanFrom_of_nil {gap : List Char} (split : splitGap false source = (gap, [])) :
    scanFrom line source = ⟨[], line + lineEnds gap⟩ := by
  rw [scanFrom]
  split <;> simp_all

/-- Behind a gap the next token is read, and the others from where it ends. -/
theorem scanFrom_of_cons {gap rest : List Char} {c : Char}
    (split : splitGap false source = (gap, c :: rest)) :
    scanFrom line source =
      let lexeme := Lexeme.read c rest
      let line := line + lineEnds gap + lineEnds lexeme.text
      let after := scanFrom line lexeme.rest
      ⟨⟨lexeme.kind, lexeme.text, line⟩ :: after.tokens, after.lastLine⟩ := by
  rw [scanFrom]
  split
  · simp_all
  · rename_i eq
    rw [split] at eq
    obtain ⟨rfl, rfl, rfl⟩ : gap = _ ∧ c = _ ∧ rest = _ := by simpa using eq
    rfl

/-- A source ends as many lines further down as it has line ends. -/
theorem lastLine_scanFrom (line : Nat) (source : List Char) :
    (scanFrom line source).lastLine = line + lineEnds source := by
  have lineEnds_append (s t : List Char) : lineEnds (s ++ t) = lineEnds s + lineEnds t :=
    List.count_append
  fun_induction scanFrom line source with
  | case1 line source gap split =>
    obtain rfl : gap = source := by simpa [split] using splitGap_append false source
    rfl
  | case2 line source gap c rest split lexeme line' after ih =>
    have whole : gap ++ (lexeme.text ++ lexeme.rest) = source := by
      rw [Lexeme.text_append_rest]
      simpa [split] using splitGap_append false source
    dsimp only [after]
    rw [ih, ← whole, lineEnds_append, lineEnds_append]
    omega

/-- A source that starts further down has its tokens further down. -/
theorem scanFrom_add (line n : Nat) (source : List Char) :
    scanFrom (line + n) source =
      ⟨(scanFrom line source).tokens.map (Token.shift n), (scanFrom line source).lastLine + n⟩ := by
  fun_induction scanFrom line source with
  | case1 line source gap split =>
    rw [scanFrom_of_nil split, Nat.add_right_comm]
    rfl
  | case2 line source gap c rest split lexeme line' after ih =>
    have down : line + n + lineEnds gap + lineEnds lexeme.text = line' + n := by omega
    rw [scanFrom_of_cons split]
    dsimp only [lexeme] at down ⊢
    rw [down, ih]
    rfl

/-- **A source below another one** is read like one that starts there, unless the one above
has an open string. -/
theorem scanFrom_append (line : Nat) (s t : List Char)
    (closed : ∀ u ∈ (scanFrom line s).tokens, u.kind ≠ .fault .unterminatedString) :
    scanFrom line (s ++ '\n' :: t) =
      ⟨(scanFrom line s).tokens ++ (scanFrom ((scanFrom line s).lastLine + 1) t).tokens,
        (scanFrom ((scanFrom line s).lastLine + 1) t).lastLine⟩ := by
  fun_induction scanFrom line s with
  | case1 line s gap split =>
    have down : line + lineEnds (gap ++ '\n' :: (splitGap false t).1) =
        line + lineEnds gap + 1 + lineEnds (splitGap false t).1 := by
      simp only [lineEnds, List.count_append, List.count_cons_self]
      omega
    have joined := splitGap_append_of_nil t split
    cases rest : splitGap false t with
    | mk gap' rest' =>
      rw [rest] at joined down
      cases rest' with
      | nil => rw [scanFrom_of_nil joined, scanFrom_of_nil rest, down, List.nil_append]
      | cons c more => rw [scanFrom_of_cons joined, scanFrom_of_cons rest, down, List.nil_append]
  | case2 line s gap c rest split lexeme line' after ih =>
    have first := closed _ (List.mem_cons_self ..)
    have read : Lexeme.read c (rest ++ '\n' :: t) = lexeme.followedBy ('\n' :: t) :=
      Lexeme.read_append t first
    rw [scanFrom_of_cons (splitGap_append_of_cons t split), read]
    dsimp only [Lexeme.followedBy]
    rw [ih fun u mem => closed u (List.mem_cons_of_mem _ mem)]
    rfl

/-- The tokens of two sources, one below the other. -/
theorem scan_append (s t : List Char)
    (closed : ∀ u ∈ (scan s).tokens, u.kind ≠ .fault .unterminatedString) :
    scan (s ++ '\n' :: t) =
      ⟨(scan s).tokens ++ (scan t).tokens.map (Token.shift (1 + lineEnds s)),
        (scan t).lastLine + (1 + lineEnds s)⟩ := by
  have start : (scanFrom 1 s).lastLine + 1 = 1 + (1 + lineEnds s) := by
    rw [lastLine_scanFrom]
    omega
  rw [scan, scanFrom_append 1 s t closed, start, scanFrom_add]
  rfl

end TokenStream

/-! ## Trees, moved down -/

/-- An expression, `n` lines further down. -/
def Expr.shift (n : Nat) : Expr → Expr
  | literal value line => literal value (line + n)
  | nil line => nil (line + n)
  | bool b line => bool b (line + n)
  | global name line => global name (line + n)
  | assign name line value => assign name (line + n) (value.shift n)
  | group inner closeLine => group (inner.shift n) (closeLine + n)
  | unary op operand => unary op (operand.shift n)
  | binary op left right => binary op (left.shift n) (right.shift n)

/-- A declaration, `n` lines further down. -/
def Declaration.shift (n : Nat) : Declaration → Declaration
  | define name nameLine initial endLine =>
    define name (nameLine + n) (initial.map (Expr.shift n)) (endLine + n)
  | print value endLine => print (value.shift n) (endLine + n)
  | expression value endLine => expression (value.shift n) (endLine + n)

/-- A program, `n` lines further down. -/
def Program.shift (n : Nat) (p : Program) : Program :=
  ⟨p.declarations.map (Declaration.shift n), p.lastLine + n⟩

namespace Expr

variable {n : Nat}

/-- The last line is further down, too. -/
@[simp] theorem lastLine_shift (e : Expr) : (e.shift n).lastLine = e.lastLine + n := by
  induction e with
  | assign _ _ _ ih | unary _ _ ih => exact ih
  | binary _ _ _ _ ih => exact ih
  | _ => rfl

/-- The constants are the same further down. -/
@[simp] theorem constants_shift (e : Expr) : (e.shift n).constants = e.constants := by
  induction e with
  | assign name _ _ ih => exact congrArg (.text name :: ·) ih
  | group _ _ ih | unary _ _ ih => exact ih
  | binary _ _ _ ihl ihr => rw [shift, constants, ihl, ihr, constants]
  | _ => rfl

/-- An expression nests as deep further down. -/
@[simp] theorem nesting_shift (e : Expr) : (e.shift n).nesting = e.nesting := by
  induction e with
  | assign _ _ _ ih | group _ _ ih | unary _ _ ih => rw [shift, nesting, ih, nesting]
  | binary _ _ _ ihl ihr => rw [shift, nesting, ihl, ihr, nesting]
  | _ => rfl

@[simp] theorem shift_zero (e : Expr) : e.shift 0 = e := by
  induction e with
  | assign _ _ _ ih | group _ _ ih | unary _ _ ih => simp [shift, ih]
  | binary _ _ _ ihl ihr => simp [shift, ihl, ihr]
  | _ => rfl

end Expr

namespace Declaration

variable {n : Nat}

/-- The constants of a declaration are the same further down. -/
@[simp] theorem constants_shift (d : Declaration) : (d.shift n).constants = d.constants := by
  cases d with
  | define name nameLine initial endLine => cases initial <;> simp [shift, constants]
  | print value | expression value => exact value.constants_shift

/-- A declaration nests as deep further down. -/
@[simp] theorem nesting_shift (d : Declaration) : (d.shift n).nesting = d.nesting := by
  cases d with
  | define name nameLine initial endLine => cases initial <;> simp [shift, nesting]
  | print value | expression value => exact value.nesting_shift

@[simp] theorem shift_zero (d : Declaration) : d.shift 0 = d := by
  cases d with
  | define name nameLine initial endLine => cases initial <;> simp [shift]
  | print value | expression value => simp [shift]

/-- The constants of some declarations are the same further down. -/
theorem constants_map_shift (ds : List Declaration) :
    (ds.map (shift n)).flatMap constants = ds.flatMap constants := by
  simp [List.flatMap_map]

end Declaration

/-- The declarations of two programs in turn. -/
def Program.join (p q : Program) : Program :=
  ⟨p.declarations ++ q.declarations, q.lastLine⟩

/-- The constants of a program that goes on are followed by those of its continuation. -/
theorem Program.constants_join_shift (p q : Program) (n : Nat) :
    (p.join (q.shift n)).declarations.flatMap Declaration.constants =
      p.declarations.flatMap Declaration.constants ++
        q.declarations.flatMap Declaration.constants := by
  rw [join, List.flatMap_append, shift, Declaration.constants_map_shift]

@[simp] theorem Program.shift_zero (p : Program) : p.shift 0 = p := by
  have same : (Declaration.shift 0 : Declaration → Declaration) = id :=
    funext Declaration.shift_zero
  rw [shift, same, List.map_id, Nat.add_zero]

/-! ## Grammar -/

section Derives

variable {n : Nat} {k : Precedence} {t : Token} {tokens more : List Token} {e : Expr}
  {d : Declaration} {ds : List Declaration}

/-- The tree of a number further down is that number's tree, further down. -/
theorem Expr.ofNumber_shift (n : Nat) (t : Token) :
    ofNumber (t.shift n) = (ofNumber t).shift n := by
  unfold ofNumber
  rw [Token.text_shift]
  split <;> rfl

/-- A token by itself is an expression further down, too. -/
theorem Expr.Primary.shift (h : Primary t e) (n : Nat) : Primary (t.shift n) (e.shift n) := by
  cases h with
  | number kind =>
    rw [← ofNumber_shift]
    exact .number kind
  | string kind => exact .string (t := t.shift n) kind
  | name kind => exact .name (t := t.shift n) kind
  | nil kind => exact .nil (t := t.shift n) kind
  | true kind => exact .true (t := t.shift n) kind
  | false kind => exact .false (t := t.shift n) kind

/-- Tokens further down are the same expression further down. -/
theorem Expr.Derives.shift (h : Derives k tokens e) (n : Nat) :
    Derives k (tokens.map (Token.shift n)) (e.shift n) := by
  induction h with
  | primary h => exact .primary (h.shift n)
  | @group left right tokens e hl _ hr ih =>
    rw [List.map_append, List.map_cons]
    exact @Derives.group (left.shift n) (right.shift n) _ _ hl ih hr
  | unary kind _ ih => exact .unary kind ih
  | binary kind level _ _ ihl ihr =>
    rw [List.map_append, List.map_cons]
    exact .binary kind level ihl ihr
  | @assign name sign tokens e hn hs _ ih =>
    exact @Derives.assign (name.shift n) (sign.shift n) _ _ hn hs ih
  | tighter _ ih => exact .tighter ih

/-- The tokens of a declaration are one further down, too. -/
theorem Declaration.Derives.shift (h : Derives tokens d) (n : Nat) :
    Derives (tokens.map (Token.shift n)) (d.shift n) := by
  cases h with
  | @define word name semicolon hw hn hs =>
    exact @Derives.define (word.shift n) (name.shift n) (semicolon.shift n) hw hn hs
  | @initialise word name sign semicolon tokens e hw hn hsign he hs =>
    rw [List.map_append]
    exact @Derives.initialise (word.shift n) (name.shift n) (sign.shift n) (semicolon.shift n) _ _
      hw hn hsign (he.shift n) hs
  | @print word semicolon tokens e hw he hs =>
    rw [List.map_append]
    exact @Derives.print (word.shift n) (semicolon.shift n) _ _ hw (he.shift n) hs
  | @expression semicolon tokens e he hs =>
    rw [List.map_append]
    exact @Derives.expression (semicolon.shift n) _ _ (he.shift n) hs

/-- The tokens of some declarations are the same further down, too. -/
theorem Declaration.DerivesAll.shift (h : DerivesAll tokens ds) (n : Nat) :
    DerivesAll (tokens.map (Token.shift n)) (ds.map (Declaration.shift n)) := by
  induction h with
  | nil => exact .nil
  | cons first _ ih =>
    rw [List.map_append]
    exact .cons (first.shift n) ih

/-- Declarations can be followed by others. -/
theorem Declaration.DerivesAll.append {es : List Declaration} (h : DerivesAll tokens ds)
    (h' : DerivesAll more es) : DerivesAll (tokens ++ more) (ds ++ es) := by
  induction h with
  | nil => exact h'
  | cons first _ ih =>
    rw [List.append_assoc]
    exact .cons first ih

/-- **Two programs, one below the other,** are one program. -/
theorem Program.Derives.join {p q : Program} {s t : List Char} (hp : p.Derives (.scan s))
    (hq : q.Derives (.scan t)) :
    (p.join (q.shift (1 + lineEnds s))).Derives (.scan (s ++ '\n' :: t)) := by
  rw [TokenStream.scan_append s t fun u mem =>
    u.kind_ne_fault (hp.declarations.not_isFault u mem) _]
  exact ⟨hp.declarations.append (hq.declarations.shift _), by rw [Program.join, shift, hq.lastLine]⟩

end Derives
end StackScript
