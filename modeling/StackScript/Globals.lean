/-
# Global variables

The global variables bind handles of names to values. A name is defined when its
handle is bound; `find?_bind` and `find?_erase` say how each operation changes the
bindings. The bindings are listed by increasing handle.
-/
import Std.Data.TreeMap.Lemmas
import StackScript.Value

namespace StackScript

/-- The bindings of the global variables. -/
structure Globals where
  bindings : Std.TreeMap Nat Value

namespace Globals

/-- No bindings. -/
def empty : Globals := ⟨∅⟩

instance : Inhabited Globals := ⟨empty⟩

/-- The value bound to a name. -/
def find? (globals : Globals) (name : Handle) : Option Value :=
  globals.bindings[name.index]?

/-- Whether a name is bound. -/
def isBound (globals : Globals) (name : Handle) : Bool :=
  globals.bindings.contains name.index

/-- The bindings with a name bound, in place of what it was bound to before. -/
def bind (globals : Globals) (name : Handle) (v : Value) : Globals :=
  ⟨globals.bindings.insert name.index v⟩

/-- The bindings without a name. -/
def erase (globals : Globals) (name : Handle) : Globals :=
  ⟨globals.bindings.erase name.index⟩

/-- The number of bindings. -/
def size (globals : Globals) : Nat :=
  globals.bindings.size

/-- The bindings, by increasing handle. -/
def toList (globals : Globals) : List (Handle × Value) :=
  globals.bindings.toList.map fun (index, v) => (⟨index⟩, v)

/-- In the beginning no name is bound. -/
@[simp] theorem find?_empty (name : Handle) : empty.find? name = none := by
  simp [empty, find?]

/-- Binding a name changes what this name is bound to, and nothing else. -/
theorem find?_bind (globals : Globals) (name other : Handle) (v : Value) :
    (globals.bind name v).find? other = if name = other then some v else globals.find? other := by
  cases name; cases other
  simp [bind, find?, Std.TreeMap.getElem?_insert]

/-- Erasing a name unbinds this name, and nothing else. -/
theorem find?_erase (globals : Globals) (name other : Handle) :
    (globals.erase name).find? other = if name = other then none else globals.find? other := by
  cases name; cases other
  simp [erase, find?, Std.TreeMap.getElem?_erase]

/-- A name is bound if something is found under it. -/
theorem isBound_eq_isSome (globals : Globals) (name : Handle) :
    globals.isBound name = (globals.find? name).isSome := by
  simp [isBound, find?]

end Globals
end StackScript
