/-
# Text in columns

Texts of a given width at least, filled up on the left or on the right.
-/

namespace StackScript
namespace Columns

/-- A text of at least `width` characters, filled up on the left. -/
def padLeft (width : Nat) (fill : Char) (s : String) : String :=
  String.ofList (List.replicate (width - s.length) fill) ++ s

/-- A text of at least `width` characters, filled up on the right with blanks. -/
def padRight (width : Nat) (s : String) : String :=
  s ++ String.ofList (List.replicate (width - s.length) ' ')

end Columns
end StackScript
