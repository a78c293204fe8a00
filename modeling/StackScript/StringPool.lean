/-
# The string pool

Every string that a program meets is stored once, in the order of its first
appearance, and known by its position there. Beside the strings the pool keeps an
index from a hash to the handles of the strings with that hash, so a string is
searched for in one bucket only.

| operation | answer | the pool afterwards |
| --- | --- | --- |
| `find?` | the handle of the equal string, if any | unchanged |
| `intern` | the handle of the equal string | the string appended, if it was not there |
| `get?` | the string of a handle, if the handle is live | unchanged |

What ties the parts together, `Consistent`, is part of the type: the index files each
handle once, under the hash of its string; no two handles stand for equal strings;
and the byte count is the total length. `find?_eq_some_iff` says what searching one
bucket finds, `get?_intern_self` and `get?_intern_of_live` what interning does to handles.
-/
import Std.Data.TreeMap.Lemmas
import StackScript.Fnv
import StackScript.Utf8
import StackScript.Value

namespace StackScript

/-- A byte string with its hash. -/
structure StoredString where
  bytes : List UInt8
  hash : UInt32 := Fnv.hash bytes
  hash_eq : hash = Fnv.hash bytes := by rfl
  deriving DecidableEq

/-- The readable text of a stored string. -/
def StoredString.text (s : StoredString) : List Char :=
  Utf8.lossy s.bytes

namespace StringPool

/-- The total length of some strings. -/
def totalLength (strings : List StoredString) : Nat :=
  strings.foldr (fun s n => s.bytes.length + n) 0

/-- The lengths of two lists of strings add up. -/
theorem totalLength_append (s t : List StoredString) :
    totalLength (s ++ t) = totalLength s + totalLength t := by
  induction s with
  | nil => simp [totalLength]
  | cons _ _ ih =>
    simp only [totalLength, List.cons_append, List.foldr_cons] at ih ⊢
    omega

/-- What ties strings, index and byte count together. -/
structure Consistent (strings : Array StoredString) (index : Std.TreeMap UInt32 (List Handle))
    (byteCount : Nat) : Prop where
  filed : ∀ (hash : UInt32) (h : Handle),
    h ∈ index.getD hash [] ↔ ∃ s, strings[h.index]? = some s ∧ s.hash = hash
  once : ∀ hash : UInt32, (index.getD hash []).Nodup
  distinct : ∀ (i j : Nat) (s t : StoredString),
    strings[i]? = some s → strings[j]? = some t → s.bytes = t.bytes → i = j
  counted : byteCount = totalLength strings.toList

/-- An empty pool is consistent. -/
theorem Consistent.empty : Consistent #[] ∅ 0 where
  filed := by simp
  once := by simp
  distinct := by simp
  counted := rfl

/-- A string that is not there yet can be appended and filed. -/
theorem Consistent.append {strings : Array StoredString}
    {index : Std.TreeMap UInt32 (List Handle)} {byteCount : Nat}
    (h : Consistent strings index byteCount) (s : StoredString)
    (absent : ∀ (i : Nat) (t : StoredString), strings[i]? = some t → t.bytes ≠ s.bytes) :
    Consistent (strings.push s)
      (index.insert s.hash (index.getD s.hash [] ++ [⟨strings.size⟩]))
      (byteCount + s.bytes.length) where
  filed := by
    intro hash k
    rw [Std.TreeMap.getD_insert]
    have fresh : k.index = strings.size ↔ k = ⟨strings.size⟩ := by cases k; simp
    have filed := h.filed hash k
    have dead : k.index = strings.size → strings[k.index]? = none := by simp +contextual
    rw [Array.getElem?_push]
    split <;> rename_i eq
    · obtain rfl : s.hash = hash := by simpa using eq
      rw [List.mem_append, filed]
      split <;> simp_all
    · have ne : s.hash ≠ hash := by simpa using eq
      rw [filed]
      split <;> simp_all
  once := by
    intro hash
    rw [Std.TreeMap.getD_insert]
    split
    · refine List.nodup_append.2 ⟨h.once _, by simp, ?_⟩
      intro k hk l hl eq
      obtain ⟨t, ht, -⟩ := (h.filed _ _).1 hk
      simp_all
    · exact h.once hash
  distinct := by
    intro i j t u ht hu eq
    rw [Array.getElem?_push] at ht hu
    split at ht <;> split at hu
    · omega
    · obtain rfl : s = t := by simpa using ht
      exact absurd eq.symm (absent j u hu)
    · obtain rfl : s = u := by simpa using hu
      exact absurd eq (absent i t ht)
    · exact h.distinct i j t u ht hu eq
  counted := by
    rw [Array.toList_push, totalLength_append, h.counted]
    rfl

end StringPool

/-- The strings of a session, each stored once. -/
structure StringPool where
  /-- The strings, in the order of their handles. -/
  strings : Array StoredString
  /-- The handles of the strings with a given hash. -/
  index : Std.TreeMap UInt32 (List Handle)
  /-- The total length of the strings. -/
  byteCount : Nat
  consistent : StringPool.Consistent strings index byteCount

namespace StringPool

/-- The pool without strings. -/
def empty : StringPool := ⟨#[], ∅, 0, .empty⟩

instance : Inhabited StringPool := ⟨empty⟩

/-- The number of strings. -/
def size (pool : StringPool) : Nat :=
  pool.strings.size

/-- The string that a handle stands for, if the handle is live. -/
def get? (pool : StringPool) (h : Handle) : Option StoredString :=
  pool.strings[h.index]?

/-- Whether a handle stands for a string. -/
def isLive (pool : StringPool) (h : Handle) : Bool :=
  (pool.get? h).isSome

/-- The handles filed under a hash. -/
def bucket (pool : StringPool) (hash : UInt32) : List Handle :=
  pool.index.getD hash []

/-- The handle of the string with these bytes. -/
def find? (pool : StringPool) (bytes : List UInt8) : Option Handle :=
  (pool.bucket (Fnv.hash bytes)).find? fun h => (pool.get? h).any (·.bytes == bytes)

/-- A handle is live if it is one of the first ones, of which there are as many as strings. -/
theorem isLive_iff {pool : StringPool} {h : Handle} : pool.isLive h ↔ h.index < pool.size := by
  simp [isLive, get?, size]

/-- A bucket holds the handles of the strings with its hash. -/
theorem mem_bucket_iff {pool : StringPool} {hash : UInt32} {h : Handle} :
    h ∈ pool.bucket hash ↔ ∃ s, pool.get? h = some s ∧ s.hash = hash :=
  pool.consistent.filed hash h

/-- **Equal strings share one handle.** -/
theorem eq_of_bytes_eq {pool : StringPool} {h k : Handle} {s t : StoredString}
    (hs : pool.get? h = some s) (ht : pool.get? k = some t) (eq : s.bytes = t.bytes) : h = k := by
  have := pool.consistent.distinct h.index k.index s t hs ht eq
  cases h; cases k; simpa using this

/-- **One bucket is enough:** a handle is found exactly for the bytes it stands for. -/
theorem find?_eq_some_iff {pool : StringPool} {bytes : List UInt8} {h : Handle} :
    pool.find? bytes = some h ↔ ∃ s, pool.get? h = some s ∧ s.bytes = bytes := by
  have sound : ∀ k, pool.find? bytes = some k → ∃ s, pool.get? k = some s ∧ s.bytes = bytes := by
    intro k found
    have := List.find?_some found
    cases hs : pool.get? k <;> simp_all
  refine ⟨sound h, ?_⟩
  rintro ⟨s, hs, rfl⟩
  have filed : h ∈ pool.bucket (Fnv.hash s.bytes) := mem_bucket_iff.2 ⟨s, hs, s.hash_eq⟩
  cases found : pool.find? s.bytes with
  | none =>
    rw [find?, List.find?_eq_none] at found
    simpa [hs] using found h filed
  | some k =>
    obtain ⟨t, ht, eq⟩ := sound k found
    rw [eq_of_bytes_eq ht hs eq]

/-- No handle is found for some bytes exactly if no string consists of them. -/
theorem find?_eq_none_iff {pool : StringPool} {bytes : List UInt8} :
    pool.find? bytes = none ↔ ∀ h s, pool.get? h = some s → s.bytes ≠ bytes := by
  rw [Option.eq_none_iff_forall_ne_some]
  simp only [ne_eq, find?_eq_some_iff, not_exists, not_and]

/-- The pool with one string more. -/
def append (pool : StringPool) (bytes : List UInt8) (absent : pool.find? bytes = none) :
    StringPool :=
  let s : StoredString := { bytes }
  { strings := pool.strings.push s
    index := pool.index.insert s.hash (pool.bucket s.hash ++ [⟨pool.size⟩])
    byteCount := pool.byteCount + bytes.length
    consistent := pool.consistent.append s fun i t ht => find?_eq_none_iff.1 absent ⟨i⟩ t ht }

/-- The handle of the string with these bytes, which is appended if it is not there. -/
def intern (pool : StringPool) (bytes : List UInt8) : Handle × StringPool :=
  match found : pool.find? bytes with
  | some h => (h, pool)
  | none => (⟨pool.size⟩, pool.append bytes found)

/-- The new string is found under the next handle, and the others where they were. -/
theorem get?_append {pool : StringPool} {bytes : List UInt8} {absent : pool.find? bytes = none}
    {h : Handle} :
    (pool.append bytes absent).get? h =
      if h = ⟨pool.size⟩ then some { bytes } else pool.get? h := by
  cases h; simp [append, get?, size, Array.getElem?_push]

/-- The handle that interning answers stands for the bytes. -/
theorem get?_intern_self (pool : StringPool) (bytes : List UInt8) :
    (pool.intern bytes).2.get? (pool.intern bytes).1 = some { bytes } := by
  unfold intern
  split
  · rename_i h found
    obtain ⟨⟨_, _, hash_eq⟩, hs, rfl⟩ := find?_eq_some_iff.1 found
    subst hash_eq; exact hs
  · rw [get?_append, if_pos rfl]

/-- Interning leaves every live handle as it is. -/
theorem get?_intern_of_live {pool : StringPool} {bytes : List UInt8} {h : Handle}
    {s : StoredString} (live : pool.get? h = some s) :
    (pool.intern bytes).2.get? h = some s := by
  unfold intern
  split
  · exact live
  · rw [get?_append, if_neg, live]
    rintro rfl
    simp [get?, size] at live

end StringPool
end StackScript
