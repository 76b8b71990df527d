import TaylorTape.Value.Basic

/-!
The text of a value: that of its element, or those of its elements between brackets.
-/

set_option autoImplicit false
set_option relaxedAutoImplicit false

namespace TaylorTape.Value

/-- A value as text, given the text of an element. -/
def text {F : Type} (element : F → String) : Value F → String
  | .scalar x => element x
  | .array xs => "[" ++ String.intercalate ", " (xs.map element) ++ "]"

end TaylorTape.Value
