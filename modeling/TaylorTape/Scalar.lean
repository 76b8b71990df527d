/-!
Elements of the values that a tape is recorded over.

A scalar type carries the four operations, six elementary functions, a partial order read as two
tests, and the numerals.  No law is asked of it: the machine numbers keep none exactly, and a field
may be given the same operations when exact statements are wanted.
-/

set_option autoImplicit false
set_option relaxedAutoImplicit false

namespace TaylorTape

/-- The operations on elements, without laws. -/
class Scalar (F : Type) extends Zero F, One F, Add F, Sub F, Mul F, Div F, Neg F where
  /-- The exponential function. -/
  exp : F → F
  /-- The natural logarithm. -/
  ln : F → F
  /-- The square root. -/
  sqrt : F → F
  /-- The sine. -/
  sin : F → F
  /-- The cosine. -/
  cos : F → F
  /-- The absolute value. -/
  abs : F → F
  /-- The strict order, as a test. -/
  lt : F → F → Bool
  /-- The order, as a test. -/
  le : F → F → Bool
  /-- Equality of numbers, as a test. -/
  beq : F → F → Bool
  /-- The element nearest to a natural number. -/
  ofNat : Nat → F

namespace Scalar

variable {F : Type} [Scalar F]

/-- The sign of an element; an element that is neither above nor below zero has sign zero. -/
def sign (x : F) : F :=
  if lt 0 x then 1 else if lt x 0 then -1 else 0

/-- The quotient of two natural numbers as an element. -/
def ratio (j k : Nat) : F :=
  ofNat j / ofNat k

/-- Elements added from the left, starting at zero. -/
def total (xs : List F) : F :=
  xs.foldl (· + ·) 0

end Scalar

/-- The six ways to compare two elements. -/
inductive Comparison where
  | eq | ne | lt | le | gt | ge
  deriving DecidableEq

/-- Whether a comparison holds of two elements; on numbers without order only `ne` holds. -/
def Comparison.holds {F : Type} [Scalar F] : Comparison → F → F → Bool
  | .eq, a, b => Scalar.beq a b
  | .ne, a, b => !Scalar.beq a b
  | .lt, a, b => Scalar.lt a b
  | .le, a, b => Scalar.le a b
  | .gt, a, b => Scalar.lt b a
  | .ge, a, b => Scalar.le b a

/-- Binary64 numbers; numerals below `2 ^ 64` are rounded to nearest. -/
instance : Scalar Float where
  zero := 0
  one := 1
  exp := Float.exp
  ln := Float.log
  sqrt := Float.sqrt
  sin := Float.sin
  cos := Float.cos
  abs := Float.abs
  lt a b := decide (a < b)
  le a b := decide (a ≤ b)
  beq a b := a == b
  ofNat n := n.toUInt64.toFloat

/-- Binary32 numbers; numerals below `2 ^ 64` are rounded to nearest. -/
instance : Scalar Float32 where
  zero := 0
  one := 1
  exp := Float32.exp
  ln := Float32.log
  sqrt := Float32.sqrt
  sin := Float32.sin
  cos := Float32.cos
  abs := Float32.abs
  lt a b := decide (a < b)
  le a b := decide (a ≤ b)
  beq a b := a == b
  ofNat n := n.toUInt64.toFloat32

end TaylorTape
