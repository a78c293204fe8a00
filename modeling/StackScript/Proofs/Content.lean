/-
# What values stand for

A value refers to a string by its handle, so what it stands for depends on the pool:

| value | stands for |
| --- | --- |
| `nil`, boolean, integer, double | itself |
| reference, live | the bytes of its string |
| reference, dangling | nothing |

A pool only ever grows (`StringPool.Grows`), and what a value stands for stays the same
in a pool that has grown (`Value.content?_of_grows`). `Linked` says that the constants of
a chunk stand for the literals of a source: `linked_linkAll` is why they do after
compiling, `Linked.operand` and `Linked.name` what an operand then names.
-/
import StackScript.Compilation
import StackScript.Machine.Step

namespace StackScript

/-- What a value stands for. -/
inductive Datum where
  | nil
  | bool (b : Bool)
  | int (n : Int32)
  | double (x : Float)
  | text (bytes : List UInt8)
  deriving DecidableEq

/-- What a value stands for, if it is not dangling. -/
def Value.content? (pool : StringPool) : Value → Option Datum
  | nil => some .nil
  | bool b => some (.bool b)
  | int n => some (.int n)
  | double x => some (.double x)
  | object h => (pool.get? h).map (.text ·.bytes)

/-- What a literal stands for. -/
def Literal.datum : Literal → Datum
  | int n => .int n
  | double x => .double x
  | text s => .text (Utf8.encode s)

/-! ## Growing pools -/

namespace StringPool

/-- Strings are added after those that are there. -/
def Grows (before after : StringPool) : Prop :=
  before.strings.toList <+: after.strings.toList

variable {before after : StringPool} {h : Handle} {s : StoredString} {bytes : List UInt8}

/-- A pool is one of its own extensions. -/
theorem Grows.refl (pool : StringPool) : pool.Grows pool :=
  List.prefix_rfl

/-- An extension of an extension extends the pool. -/
theorem Grows.trans {a b c : StringPool} (h₁ : a.Grows b) (h₂ : b.Grows c) : a.Grows c :=
  List.IsPrefix.trans h₁ h₂

/-- A string is found under its handle in every extension. -/
theorem Grows.get? (grows : before.Grows after) (live : before.get? h = some s) :
    after.get? h = some s := by
  obtain ⟨more, eq⟩ := grows
  rw [StringPool.get?, ← Array.getElem?_toList] at live ⊢
  rw [← eq, List.getElem?_append_left (List.getElem?_eq_some_iff.1 live).1]
  exact live

/-- The handle of a string is the same in every extension. -/
theorem Grows.find? (grows : before.Grows after) (found : before.find? bytes = some h) :
    after.find? bytes = some h := by
  obtain ⟨s, live, eq⟩ := find?_eq_some_iff.1 found
  exact find?_eq_some_iff.2 ⟨s, grows.get? live, eq⟩

/-- Putting a string into a pool extends it. -/
theorem grows_intern (pool : StringPool) (bytes : List UInt8) :
    pool.Grows (pool.intern bytes).2 := by
  unfold intern
  split
  · exact Grows.refl pool
  · exact ⟨[{ bytes }], by simp [append]⟩

end StringPool

/-- What a value stands for is the same in every extension of the pool. -/
theorem Value.content?_of_grows {before after : StringPool} {v : Value} {d : Datum}
    (grows : before.Grows after) (h : v.content? before = some d) : v.content? after = some d := by
  cases v with
  | object k =>
    obtain ⟨s, live, rfl⟩ := Option.map_eq_some_iff.1 h
    rw [content?, grows.get? live]
    rfl
  | _ => exact h

/-- Only references stand for texts. -/
theorem Value.eq_object_of_content? {pool : StringPool} {v : Value} {bytes : List UInt8}
    (h : v.content? pool = some (.text bytes)) :
    ∃ k s, v = .object k ∧ pool.get? k = some s ∧ s.bytes = bytes := by
  cases v with
  | object k =>
    obtain ⟨s, live, eq⟩ := Option.map_eq_some_iff.1 h
    exact ⟨k, s, rfl, live, by simpa using eq⟩
  | _ => cases h

/-! ## The constants of a chunk -/

/-- Linking a constant extends the pool. -/
theorem Literal.grows_link (pool : StringPool) (l : Literal) : pool.Grows (l.link pool).2 := by
  cases l with
  | text s => exact StringPool.grows_intern pool (Utf8.encode s)
  | _ => exact StringPool.Grows.refl pool

/-- A constant that was linked has a value that stands for it. -/
theorem Literal.content?_link (pool : StringPool) (l : Literal) :
    (l.link pool).1.content? (l.link pool).2 = some l.datum := by
  cases l with
  | text s =>
    rw [link, Value.content?, StringPool.get?_intern_self]
    rfl
  | _ => rfl

/-- Linking some constants extends the pool. -/
theorem Literal.grows_linkAll (pool : StringPool) (literals : List Literal) :
    pool.Grows (linkAll pool literals).2 := by
  induction literals generalizing pool with
  | nil => exact StringPool.Grows.refl pool
  | cons l others ih => exact (l.grows_link pool).trans (ih _)

/-- Constants stand for some literals, of which the first has the number `next`. -/
structure Linked (constants : List Value) (pool : StringPool) (next : Nat)
    (literals : List Literal) : Prop where
  few : next + literals.length ≤ Chunk.maxConstants
  content : ∀ (j : Nat) (l : Literal), literals[j]? = some l →
    ∃ v, constants[next + j]? = some v ∧ v.content? pool = some l.datum

/-- Compiling links the constants of a source. -/
theorem linked_linkAll (pool : StringPool) {literals : List Literal}
    (few : literals.length ≤ Chunk.maxConstants) :
    Linked (Literal.linkAll pool literals).1 (Literal.linkAll pool literals).2 0 literals := by
  refine ⟨by omega, ?_⟩
  clear few
  induction literals generalizing pool with
  | nil => simp
  | cons l others ih =>
    intro j l' hl
    cases j with
    | zero =>
      obtain rfl : l = l' := by simpa using hl
      have grows := Literal.grows_linkAll (l.link pool).2 others
      exact ⟨_, rfl, Value.content?_of_grows grows (l.content?_link pool)⟩
    | succ j =>
      obtain ⟨v, hv, content⟩ := ih (l.link pool).2 j l' hl
      rw [Nat.zero_add] at hv
      exact ⟨v, by rw [Nat.zero_add]; exact hv, content⟩

namespace Linked

variable {constants : List Value} {pool after : StringPool} {next : Nat}
  {l : Literal} {literals more : List Literal}

/-- Constants that are linked are linked in every extension of the pool. -/
theorem grow (linked : Linked constants pool next literals) (grows : pool.Grows after) :
    Linked constants after next literals := by
  refine ⟨linked.few, fun j l hl => ?_⟩
  obtain ⟨v, hv, content⟩ := linked.content j l hl
  exact ⟨v, hv, Value.content?_of_grows grows content⟩

/-- The first ones of some linked constants are linked. -/
theorem left (linked : Linked constants pool next (literals ++ more)) :
    Linked constants pool next literals := by
  have few := linked.few
  rw [List.length_append] at few
  refine ⟨by omega, fun j l hl => linked.content j l ?_⟩
  rw [List.getElem?_append_left (List.getElem?_eq_some_iff.1 hl).1]
  exact hl

/-- The others are linked from where the first ones end. -/
theorem right (linked : Linked constants pool next (literals ++ more)) :
    Linked constants pool (next + literals.length) more := by
  have few := linked.few
  rw [List.length_append] at few
  refine ⟨by omega, fun j l hl => ?_⟩
  rw [Nat.add_assoc]
  refine linked.content _ l ?_
  rw [List.getElem?_append_right (Nat.le_add_right ..), Nat.add_sub_cancel_left]
  exact hl

/-- Behind the first constant the others are linked. -/
theorem tail (linked : Linked constants pool next (l :: literals)) :
    Linked constants pool (next + 1) literals := by
  have whole : Linked constants pool next ([l] ++ literals) := linked
  exact whole.right

/-- An operand is the index of the constant of its number. -/
theorem operand (linked : Linked constants pool next (l :: literals)) :
    ∃ v, constants[(UInt8.ofNat next).toNat]? = some v ∧ v.content? pool = some l.datum := by
  have small : next < 256 := by
    have few := linked.few
    rw [List.length_cons, Chunk.maxConstants] at few
    omega
  rw [show (UInt8.ofNat next).toNat = next from UInt8.toNat_ofNat_of_lt' small]
  exact linked.content 0 l rfl

/-- The value of a linked name is the handle of its bytes. -/
theorem name {s : List Char} (linked : Linked constants pool next (.text s :: literals)) :
    ∃ h stored, constants[(UInt8.ofNat next).toNat]? = some (.object h) ∧
      pool.get? h = some stored ∧ stored.bytes = Utf8.encode s := by
  obtain ⟨v, named, content⟩ := linked.operand
  obtain ⟨h, stored, rfl, live, eq⟩ := Value.eq_object_of_content? content
  exact ⟨h, stored, named, live, eq⟩

end Linked
end StackScript
