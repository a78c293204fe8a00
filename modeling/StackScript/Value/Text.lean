/-
# The text of a value

A value prints as a keyword, a decimal integer, a double in six significant digits,
or the text of the string it refers to. A reference that outlived its string prints
as such.
-/
import StackScript.Decimal
import StackScript.StringPool

namespace StackScript

/-- The text of a value. -/
def Value.text (pool : StringPool) : Value → String
  | nil => "nil"
  | bool true => "true"
  | bool false => "false"
  | int n => toString n.toInt
  | double x => String.ofList (Decimal.text x)
  | object h =>
    match pool.get? h with
    | some s => String.ofList s.text
    | none => s!"<dangling obj {h.index}>"

end StackScript
