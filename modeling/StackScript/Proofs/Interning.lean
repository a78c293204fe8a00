/-
# The pool is a list of distinct strings

Whoever calls a pool sees a list of byte strings in which none comes twice. Hashes and
buckets do not show, not even where two strings share a hash:

| call | answer | the list afterwards |
| --- | --- | --- |
| intern, take over | the position of the string | with the string at its end, if it was new |
| look up | the position of the string, if it is there | as before |
| read | the string at a position, with its hash | as before |
| free | | empty |

`StringPool.contents` is the list of a pool, and each operation is one equation about it.
A sequence of calls leaves the strings that came since the pool was last freed, each where
it came first (`Call.kept`).
-/
import Mathlib.Algebra.GroupWithZero.Nat
import Mathlib.Data.List.DropRight
import Mathlib.Data.List.Nodup
import StackScript.StringPool

namespace StackScript

/-- A stored string is known by its bytes. -/
theorem StoredString.eq_of_bytes (s : StoredString) : s = { bytes := s.bytes } := by
  rcases s with ⟨bytes, hash, rfl⟩
  rfl

namespace StringPool

/-! ## The list of a pool -/

/-- The byte strings of a pool, in the order of their handles. -/
def contents (pool : StringPool) : List (List UInt8) :=
  pool.strings.toList.map (·.bytes)

variable (pool : StringPool) (bytes : List UInt8) (h : Handle)

/-- There are as many contents as strings. -/
theorem length_contents : pool.contents.length = pool.size := by
  simp [contents, size]

/-- Reading a handle is reading a position of the list. -/
theorem get?_eq : pool.get? h = pool.contents[h.index]?.map fun bytes => { bytes } := by
  rw [get?, contents, List.getElem?_map, Array.getElem?_toList, Option.map_map]
  cases pool.strings[h.index]? with
  | none => rfl
  | some s => exact congrArg some s.eq_of_bytes

/-- The string of a live handle is the content with its index. -/
theorem getElem?_contents_of_get? {pool : StringPool} {h : Handle} {s : StoredString}
    (live : pool.get? h = some s) : pool.contents[h.index]? = some s.bytes := by
  rw [contents, List.getElem?_map, Array.getElem?_toList, ← get?, live]
  rfl

/-- **No string comes twice.** -/
theorem nodup_contents : pool.contents.Nodup := by
  rw [List.nodup_iff_getElem?_ne_getElem?]
  intro i j lt inside same
  have first : i < pool.contents.length := Nat.lt_trans lt inside
  have hi := pool.get?_eq ⟨i⟩
  have hj := pool.get?_eq ⟨j⟩
  rw [← same] at hj
  dsimp only at hi hj
  rw [List.getElem?_eq_getElem first, Option.map_some] at hi hj
  have eq : Handle.mk i = Handle.mk j := eq_of_bytes_eq hi hj rfl
  exact Nat.ne_of_lt lt (congrArg Handle.index eq)

/-- The contents are the bytes that a handle is found for. -/
theorem mem_contents_iff : bytes ∈ pool.contents ↔ (pool.find? bytes).isSome := by
  rw [List.mem_iff_getElem?, Option.isSome_iff_exists]
  constructor
  · rintro ⟨i, at_i⟩
    refine ⟨⟨i⟩, find?_eq_some_iff.2 ⟨{ bytes }, ?_, rfl⟩⟩
    rw [get?_eq, at_i]
    rfl
  · rintro ⟨h, found⟩
    obtain ⟨s, live, rfl⟩ := find?_eq_some_iff.1 found
    exact ⟨h.index, getElem?_contents_of_get? live⟩

/-- **Looking up is searching the list,** whatever the hashes are. -/
theorem find?_eq : pool.find? bytes = (pool.contents.idxOf? bytes).map Handle.mk := by
  cases found : pool.find? bytes with
  | none =>
    have absent : bytes ∉ pool.contents := by simp [mem_contents_iff, found]
    rw [List.idxOf?_eq_none_iff.2 absent]
    rfl
  | some h =>
    obtain ⟨s, live, rfl⟩ := find?_eq_some_iff.1 found
    obtain ⟨inside, at_h⟩ := List.getElem?_eq_some_iff.1 (getElem?_contents_of_get? live)
    have position : pool.contents.idxOf? s.bytes = some h.index := by
      refine List.idxOf?_eq_some_iff.2 ⟨inside, at_h, fun j lt same => ?_⟩
      have eq : j = h.index :=
        (List.Nodup.getElem_inj_iff pool.nodup_contents).1 (same.trans at_h.symm)
      exact Nat.ne_of_lt lt eq
    rw [position]
    rfl

/-- **Interning answers the position of the string,** which is the next one if it is new. -/
theorem fst_intern : (pool.intern bytes).1 = ⟨pool.contents.idxOf bytes⟩ := by
  unfold intern
  split
  · rename_i h found
    rw [find?_eq, Option.map_eq_some_iff] at found
    obtain ⟨i, position, rfl⟩ := found
    obtain ⟨inside, rfl, -⟩ := List.idxOf?_eq_some_iff.1 position
    rw [pool.nodup_contents.idxOf_getElem]
  · rename_i found
    have absent : bytes ∉ pool.contents := by simp [mem_contents_iff, found]
    rw [List.idxOf_eq_length_iff.2 absent, length_contents]

/-- **Interning appends a new string and nothing else.** -/
theorem contents_intern : (pool.intern bytes).2.contents =
    if bytes ∈ pool.contents then pool.contents else pool.contents ++ [bytes] := by
  unfold intern
  split
  · rename_i h found
    rw [if_pos (by simp [mem_contents_iff, found])]
  · rename_i found
    rw [if_neg (by simp [mem_contents_iff, found])]
    simp [append, contents]

/-- **Each live handle is filed once,** under the hash of its string; no other is. -/
theorem count_bucket (hash : UInt32) : (pool.bucket hash).count h =
    if (pool.get? h).map (·.hash) = some hash then 1 else 0 := by
  have filed : h ∈ pool.bucket hash ↔ (pool.get? h).map (·.hash) = some hash := by
    rw [mem_bucket_iff, Option.map_eq_some_iff]
  have once : (pool.bucket hash).Nodup := pool.consistent.once hash
  rw [once.count, if_congr filed rfl rfl]

/-- The byte count is the total length. -/
theorem byteCount_eq : pool.byteCount = (pool.contents.map List.length).sum := by
  have total (strings : List StoredString) :
      totalLength strings = ((strings.map (·.bytes)).map List.length).sum := by
    induction strings with
    | nil => rfl
    | cons s strings ih => exact congrArg (s.bytes.length + ·) ih
  rw [pool.consistent.counted, total, contents]

/-! ## Calls -/

/-- A call on a pool. A string that is taken over has no other use. -/
inductive Call where
  | intern (bytes : List UInt8)
  | take (bytes : List UInt8)
  | lookUp (bytes : List UInt8)
  | read (h : Handle)
  | free
  deriving DecidableEq

/-- What a call answers. A string comes with the hash that is stored for it. -/
inductive Answer where
  | handle (h : Handle)
  | found (h : Option Handle)
  | string (s : Option (List UInt8 × UInt32))
  | freed
  deriving DecidableEq

/-- What a pool answers to a call, and the pool after it. -/
def call (pool : StringPool) : Call → Answer × StringPool
  | .intern bytes | .take bytes => (.handle (pool.intern bytes).1, (pool.intern bytes).2)
  | .lookUp bytes => (.found (pool.find? bytes), pool)
  | .read h => (.string ((pool.get? h).map fun s => (s.bytes, s.hash)), pool)
  | .free => (.freed, empty)

/-- The answers to some calls, and the pool after them. -/
def callAll (pool : StringPool) : List Call → List Answer × StringPool
  | [] => ([], pool)
  | c :: calls =>
    let (answer, pool) := pool.call c
    let (answers, pool) := pool.callAll calls
    (answer :: answers, pool)

namespace Call

/-- What a list of distinct strings answers to a call. -/
def answer (strings : List (List UInt8)) : Call → Answer
  | intern bytes | take bytes => .handle ⟨strings.idxOf bytes⟩
  | lookUp bytes => .found ((strings.idxOf? bytes).map Handle.mk)
  | read h => .string (strings[h.index]?.map fun bytes => (bytes, Fnv.hash bytes))
  | free => .freed

/-- The string that a call brings. -/
def brings : Call → Option (List UInt8)
  | intern bytes | take bytes => some bytes
  | _ => none

/-- The strings that some calls leave: those that came since the last time the pool was
freed, each where it came first. -/
def kept (calls : List Call) : List (List UInt8) :=
  ((calls.rtakeWhile (· != free)).filterMap brings).eraseDups

/-- The strings that are left after one call more. -/
theorem kept_concat (calls : List Call) (c : Call) : kept (calls ++ [c]) =
    if c = free then []
    else match c.brings with
      | some bytes => if bytes ∈ kept calls then kept calls else kept calls ++ [bytes]
      | none => kept calls := by
  unfold kept
  rw [List.rtakeWhile_concat]
  by_cases last : c = free
  · subst last
    rfl
  · rw [if_neg last, if_pos (by simpa using last), List.filterMap_append, List.eraseDups_append]
    cases brought : c.brings with
    | none => simp [brought]
    | some bytes =>
      simp only [List.mem_eraseDups]
      split <;> simp_all [List.removeAll, List.eraseDups_cons]

end Call

/-! ## Refinement -/

/-- **One call:** a pool answers what its list does. -/
theorem fst_call (c : Call) : (pool.call c).1 = c.answer pool.contents := by
  cases c with
  | intern bytes | take bytes => exact congrArg Answer.handle (pool.fst_intern bytes)
  | lookUp bytes => exact congrArg Answer.found (pool.find?_eq bytes)
  | read h =>
    rw [call, Call.answer, get?_eq, Option.map_map]
    rfl
  | free => rfl

/-- A call adds the bytes that it brings behind the others if they are new, and freeing drops
all. -/
theorem contents_call (c : Call) : (pool.call c).2.contents =
    if c = .free then []
    else match c.brings with
      | some bytes => if bytes ∈ pool.contents then pool.contents else pool.contents ++ [bytes]
      | none => pool.contents := by
  cases c with
  | intern bytes | take bytes => exact pool.contents_intern bytes
  | lookUp bytes | read h | free => rfl

/-- Calls that follow one another are answered in turn. -/
theorem callAll_append (calls later : List Call) : pool.callAll (calls ++ later) =
    ((pool.callAll calls).1 ++ ((pool.callAll calls).2.callAll later).1,
      ((pool.callAll calls).2.callAll later).2) := by
  induction calls generalizing pool with
  | nil => rfl
  | cons c calls ih =>
    rw [List.cons_append, callAll, callAll]
    dsimp only
    rw [ih]
    rfl

/-- **A run of calls** on a new pool leaves the strings that the calls keep. -/
theorem contents_callAll (calls : List Call) :
    (empty.callAll calls).2.contents = Call.kept calls := by
  induction calls using List.reverseRecOn with
  | nil => rfl
  | append_singleton calls c ih =>
    rw [callAll_append, Call.kept_concat, ← ih]
    exact contents_call _ c

/-! ## Main statement -/

/-- **A pool is a list of distinct strings,** after any calls on a new pool. The next call is
answered as that list answers it; two handles that are live are equal if their strings are;
each is filed in one bucket, and once; and a pool that was freed is as good as new. -/
theorem calls_refine_distinct_strings (calls : List Call) :
    let pool := (empty.callAll calls).2
    let strings := Call.kept calls
    strings.Nodup ∧ pool.contents = strings ∧ pool.size = strings.length ∧
    (∀ c, empty.callAll (calls ++ [c]) =
      ((empty.callAll calls).1 ++ [c.answer strings], (pool.call c).2) ∧
      (c.brings = none → c ≠ .free → (pool.call c).2 = pool)) ∧
    (∀ h, (pool.get? h).isSome ↔ h.index < strings.length) ∧
    (∀ h k s t, pool.get? h = some s → pool.get? k = some t → (h = k ↔ s.bytes = t.bytes)) ∧
    (∀ h hash, (pool.bucket hash).count h =
      if strings[h.index]?.map Fnv.hash = some hash then 1 else 0) ∧
    pool.byteCount = (strings.map List.length).sum ∧
    ∀ later, empty.callAll (calls ++ .free :: later) =
      ((empty.callAll calls).1 ++ .freed :: (empty.callAll later).1, (empty.callAll later).2) := by
  intro pool strings
  have contents : pool.contents = strings := contents_callAll calls
  refine ⟨?_, contents, ?_, fun c => ⟨?_, fun idle keeps => ?_⟩, fun h => ?_, ?_, fun h hash => ?_,
    ?_, fun later => ?_⟩
  · rw [← contents]
    exact pool.nodup_contents
  · rw [← contents, length_contents]
  · rw [callAll_append, ← contents, ← pool.fst_call c]
    rfl
  · cases c with
    | intern bytes | take bytes => cases idle
    | lookUp bytes | read h => rfl
    | free => exact absurd rfl keeps
  · rw [get?_eq, contents, Option.isSome_map, isSome_getElem?]
  · intro h k s t hs ht
    refine ⟨?_, eq_of_bytes_eq hs ht⟩
    rintro rfl
    rw [hs, Option.some.injEq] at ht
    rw [ht]
  · rw [count_bucket, get?_eq, contents, Option.map_map]
    rfl
  · rw [byteCount_eq, contents]
  · rw [callAll_append]
    rfl

/-- Two strings of one hash stay two strings. -/
example :
    let costarring := "costarring".toUTF8.toList
    let liquid := "liquid".toUTF8.toList
    Fnv.hash costarring = Fnv.hash liquid ∧
      (empty.callAll [.intern costarring, .lookUp liquid, .intern liquid, .take costarring]).1 =
        [.handle ⟨0⟩, .found none, .handle ⟨1⟩, .handle ⟨0⟩] := by
  decide +kernel

end StringPool
end StackScript
