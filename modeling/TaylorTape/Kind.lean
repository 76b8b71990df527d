import TaylorTape.Decimal.Literal
import TaylorTape.Value.Text
import TaylorTape.Base

/-!
The four bases of machine numbers: the two binary formats, each alone and in scalars or arrays.
-/

set_option autoImplicit false
set_option relaxedAutoImplicit false

namespace TaylorTape

/-- A base of machine numbers. -/
inductive Kind where
  | binary32 | binary64 | array32 | array64
  deriving DecidableEq

namespace Kind

/-- The elements of a base. -/
abbrev Elem : Kind → Type
  | binary32 | array32 => Float32
  | binary64 | array64 => Float

/-- The values of a base. -/
abbrev Carrier : Kind → Type
  | binary32 => Float32
  | binary64 => Float
  | array32 => Value Float32
  | array64 => Value Float

instance : (kind : Kind) → Scalar kind.Elem
  | binary32 | array32 => inferInstanceAs (Scalar Float32)
  | binary64 | array64 => inferInstanceAs (Scalar Float)

instance : (kind : Kind) → Base kind.Carrier kind.Elem
  | binary32 => inferInstanceAs (Base Float32 Float32)
  | binary64 => inferInstanceAs (Base Float Float)
  | array32 => inferInstanceAs (Base (Value Float32) Float32)
  | array64 => inferInstanceAs (Base (Value Float) Float)

/-- The bytes of an element. -/
def width : Kind → Nat
  | binary32 | array32 => 4
  | binary64 | array64 => 8

/-- The element nearest to a binary64 number. -/
def ofBinary64 : (kind : Kind) → Float → kind.Elem
  | binary32, x | array32, x => x.toFloat32
  | binary64, x | array64, x => x

/-- The element that a literal is read as: the binary64 number, rounded to the base. -/
def ofLiteral? (kind : Kind) (l : Decimal.Literal) : Option kind.Elem :=
  l.toBinary64?.map kind.ofBinary64

/-- The element that a literal inside a document is read as: an integer is rounded only once. -/
def ofMember? (kind : Kind) (l : Decimal.Literal) : Option kind.Elem :=
  match l.integer? with
  | some (.ofNat n) => some (Scalar.ofNat n)
  | some (.negSucc n) => some (-Scalar.ofNat (n + 1))
  | none => kind.ofLiteral? l

/-- The shortest decimal that reads back as an element. -/
def elementText : (kind : Kind) → kind.Elem → String
  | binary32, x | array32, x => Decimal.binary32.text x.toBits.toNat
  | binary64, x | array64, x => Decimal.binary64.text x.toBits.toNat

/-- A value as text. -/
def text : (kind : Kind) → kind.Carrier → String
  | binary32, x => elementText binary32 x
  | binary64, x => elementText binary64 x
  | array32, v => Value.text (elementText array32) v
  | array64, v => Value.text (elementText array64) v

/-- Equality of values: of shape, and of elements as numbers. -/
def beq : (kind : Kind) → kind.Carrier → kind.Carrier → Bool
  | binary32, a, b => Scalar.beq a b
  | binary64, a, b => Scalar.beq a b
  | array32, a, b => Value.beq a b
  | array64, a, b => Value.beq a b

end Kind

end TaylorTape
