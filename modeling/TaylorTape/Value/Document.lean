import TaylorTape.Value.Basic

/-!
Values as structured documents.

A value is written as an object of one member that names its shape, and only such documents are
read back.
-/

set_option autoImplicit false
set_option relaxedAutoImplicit false

namespace TaylorTape

/-- A structured document whose numbers are of type `F`. -/
inductive Document (F : Type) where
  | null
  | bool (b : Bool)
  | number (x : F)
  | text (s : String)
  | list (items : List (Document F))
  | object (members : List (String × Document F))

namespace Document

variable {F : Type}

/-- The number that a document is, if it is one. -/
def number? : Document F → Option F
  | .number x => some x
  | _ => none

/-- The numbers of a list of numbers. -/
def numbers? : Document F → Option (List F)
  | .list items => items.mapM number?
  | _ => none

end Document

namespace Value

variable {F : Type}

/-- The document of a value. -/
def toDocument : Value F → Document F
  | .scalar x => .object [("Scalar", .number x)]
  | .array xs => .object [("Array", .list (xs.map .number))]

/-- The value that a document writes down, if it writes one. -/
def ofDocument? : Document F → Option (Value F)
  | .object [("Scalar", d)] => d.number?.map .scalar
  | .object [("Array", d)] => d.numbers?.map .array
  | _ => none

end Value

end TaylorTape
