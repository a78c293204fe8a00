/-
# The grammar is unambiguous

Some tokens have one tree at most. For expressions that follows from reading them: the
parser is a function, and it reads every derivation. Declarations tell themselves apart
by their first and third tokens and end at the first semicolon.
-/
import StackScript.Proofs.Parser.Completeness

namespace StackScript

/-- **The grammar is unambiguous.** Tokens that begin with an expression, in front of
something that ends it, begin with no other, and it has one tree. -/
theorem Expr.Derives.unique {k : Precedence} {tokens₁ tokens₂ rest₁ rest₂ : List Token}
    {e₁ e₂ : Expr} (h₁ : e₁.Derives k tokens₁) (h₂ : e₂.Derives k tokens₂)
    (same : tokens₁ ++ rest₁ = tokens₂ ++ rest₂)
    (plain : ∀ t ∈ tokens₁ ++ rest₁, t.isFault = Bool.false)
    (ends₁ : ∀ t ∈ rest₁.head?, Parser.Ends k t.kind)
    (ends₂ : ∀ t ∈ rest₂.head?, Parser.Ends k t.kind) :
    e₁ = e₂ ∧ tokens₁ = tokens₂ ∧ rest₁ = rest₂ := by
  -- One parser reads both, with room for the deeper of the two.
  let p : Parser := ⟨.atEnd 0, tokens₁ ++ rest₁, 0, .none, #[]⟩
  obtain ⟨q₁, read₁, left₁, -⟩ := Parser.read_of_derives (p := p) h₁
    (Nat.le_max_left e₁.nesting e₂.nesting) rfl plain ends₁
  obtain ⟨q₂, read₂, left₂, -⟩ := Parser.read_of_derives (p := p) h₂
    (Nat.le_max_right e₁.nesting e₂.nesting) same plain ends₂
  obtain ⟨rfl, rfl⟩ := Prod.mk.inj (read₁.symm.trans read₂)
  obtain rfl : rest₁ = rest₂ := left₁.symm.trans left₂
  exact ⟨rfl, List.append_cancel_right same, rfl⟩

/-- The first token of an expression, seen in front of whatever follows. -/
theorem Expr.Derives.startsExpression {k : Precedence} {tokens rest others : List Token}
    {t : Token} {e : Expr} (h : e.Derives k tokens) (same : tokens ++ others = t :: rest) :
    t.startsExpression = Bool.true := by
  obtain ⟨u, more, rfl, starts⟩ := h.exists_head
  obtain ⟨rfl, -⟩ := List.cons.inj same
  exact starts

/-- An expression in front of its semicolon is unique. -/
theorem Expr.Derives.unique_statement {tokens₁ tokens₂ rest₁ rest₂ : List Token}
    {semicolon₁ semicolon₂ : Token} {e₁ e₂ : Expr} (h₁ : e₁.Derives .assignment tokens₁)
    (h₂ : e₂.Derives .assignment tokens₂) (hs₁ : semicolon₁.kind = .semicolon)
    (hs₂ : semicolon₂.kind = .semicolon)
    (same : tokens₁ ++ semicolon₁ :: rest₁ = tokens₂ ++ semicolon₂ :: rest₂)
    (plain : ∀ t ∈ tokens₁ ++ semicolon₁ :: rest₁, t.isFault = Bool.false) :
    e₁ = e₂ ∧ semicolon₁ = semicolon₂ ∧ rest₁ = rest₂ := by
  obtain ⟨rfl, -, tail⟩ := h₁.unique h₂ same plain
    (by simpa [hs₁] using Parser.ends_semicolon _) (by simpa [hs₂] using Parser.ends_semicolon _)
  obtain ⟨rfl, rfl⟩ := List.cons.inj tail
  exact ⟨rfl, rfl, rfl⟩

namespace Declaration

/-- A declaration ends where it does, and has one tree. -/
theorem Derives.unique {tokens₁ tokens₂ rest₁ rest₂ : List Token} {d₁ d₂ : Declaration}
    (h₁ : d₁.Derives tokens₁) (h₂ : d₂.Derives tokens₂)
    (same : tokens₁ ++ rest₁ = tokens₂ ++ rest₂)
    (plain : ∀ t ∈ tokens₁ ++ rest₁, t.isFault = false) : d₁ = d₂ ∧ rest₁ = rest₂ := by
  cases h₁ with
  | define w₁ n₁ s₁ =>
    cases h₂ with
    | define w₂ n₂ s₂ =>
      simp only [List.cons_append, List.nil_append, List.cons.injEq] at same
      obtain ⟨rfl, rfl, rfl, rfl⟩ := same
      exact ⟨rfl, rfl⟩
    | initialise w₂ n₂ e₂ v₂ s₂ =>
      simp only [List.cons_append, List.nil_append, List.cons.injEq] at same
      obtain ⟨-, -, rfl, -⟩ := same
      rw [s₁] at e₂
      cases e₂
    | print w₂ v₂ s₂ =>
      obtain ⟨rfl, -⟩ := List.cons.inj same
      rw [w₁] at w₂
      cases w₂
    | expression v₂ s₂ =>
      have := v₂.startsExpression (by rw [← List.append_assoc]; exact same.symm)
      simp [Token.startsExpression, w₁] at this
  | initialise w₁ n₁ e₁ v₁ s₁ =>
    cases h₂ with
    | define w₂ n₂ s₂ =>
      simp only [List.cons_append, List.nil_append, List.cons.injEq] at same
      obtain ⟨-, -, rfl, -⟩ := same
      rw [s₂] at e₁
      cases e₁
    | initialise w₂ n₂ e₂ v₂ s₂ =>
      simp only [List.cons_append, List.append_assoc, List.nil_append, List.cons.injEq]
        at same plain
      obtain ⟨rfl, rfl, rfl, same⟩ := same
      obtain ⟨rfl, rfl, rfl⟩ := v₁.unique_statement v₂ s₁ s₂ same fun t ht =>
        plain t (by simp only [List.mem_cons]; exact .inr (.inr (.inr ht)))
      exact ⟨rfl, rfl⟩
    | print w₂ v₂ s₂ =>
      obtain ⟨rfl, -⟩ := List.cons.inj same
      rw [w₁] at w₂
      cases w₂
    | expression v₂ s₂ =>
      have := v₂.startsExpression (by rw [← List.append_assoc]; exact same.symm)
      simp [Token.startsExpression, w₁] at this
  | print w₁ v₁ s₁ =>
    cases h₂ with
    | define w₂ | initialise w₂ =>
      obtain ⟨rfl, -⟩ := List.cons.inj same
      rw [w₁] at w₂
      cases w₂
    | print w₂ v₂ s₂ =>
      simp only [List.cons_append, List.append_assoc, List.nil_append, List.cons.injEq]
        at same plain
      obtain ⟨rfl, same⟩ := same
      obtain ⟨rfl, rfl, rfl⟩ := v₁.unique_statement v₂ s₁ s₂ same fun t ht =>
        plain t (List.mem_cons_of_mem _ ht)
      exact ⟨rfl, rfl⟩
    | expression v₂ s₂ =>
      have := v₂.startsExpression (by rw [← List.append_assoc]; exact same.symm)
      simp [Token.startsExpression, w₁] at this
  | expression v₁ s₁ =>
    cases h₂ with
    | define w₂ | initialise w₂ | print w₂ =>
      have := v₁.startsExpression (by rw [← List.append_assoc]; exact same)
      simp [Token.startsExpression, w₂] at this
    | expression v₂ s₂ =>
      simp only [List.append_assoc, List.cons_append, List.nil_append] at same plain
      obtain ⟨rfl, rfl, rfl⟩ := v₁.unique_statement v₂ s₁ s₂ same plain
      exact ⟨rfl, rfl⟩

/-- **Tokens are one list of declarations at most.** -/
theorem DerivesAll.unique {tokens : List Token} {ds₁ ds₂ : List Declaration}
    (h₁ : DerivesAll tokens ds₁) (h₂ : DerivesAll tokens ds₂) : ds₁ = ds₂ := by
  induction h₁ generalizing ds₂ with
  | nil =>
    generalize eq : ([] : List Token) = tokens at h₂
    cases h₂ with
    | nil => rfl
    | cons first _ =>
      obtain ⟨t, rest, rfl, -⟩ := first.exists_head
      cases eq
  | @cons first₁ others₁ d₁ ds₁ first all ih =>
    generalize eq : first₁ ++ others₁ = tokens at h₂
    cases h₂ with
    | nil =>
      obtain ⟨t, rest, rfl, -⟩ := first.exists_head
      cases eq
    | cons first₂ all₂ =>
      obtain ⟨rfl, rfl⟩ := first.unique first₂ eq (by
        intro t ht
        rcases List.mem_append.1 ht with ht | ht
        · exact first.not_isFault t ht
        · exact all.not_isFault t ht)
      rw [ih all₂]

end Declaration
end StackScript
