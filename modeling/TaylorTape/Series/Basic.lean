import TaylorTape.Elementary

/-!
Truncated Taylor series.

The coefficient of order `k` is the `k`-th derivative divided by `k!`.  A series holds the
coefficients of the orders that are known; asking for another order is an error, never a silent
zero.  The coefficients of one series need not have one shape, since a scalar coefficient stands for
that scalar in every element.
-/

set_option autoImplicit false
set_option relaxedAutoImplicit false

namespace TaylorTape

/-- The known coefficients of a Taylor series, from order zero on. -/
abbrev Series (B : Type) : Type := Array B

namespace Series

variable {B F : Type}

/-- The coefficient of an order. -/
def coeff (s : Series B) (k : Nat) : Except Error B :=
  fetch s k

/-- The series of an order count whose coefficients are all the scalar zero. -/
def zeros [Scalar F] [Base B F] (n : Nat) : Series B :=
  Array.replicate n Base.zero

/-- A series with an amount added to one coefficient. -/
def addAt [Scalar F] [Base B F] (s : Series B) (k : Nat) (v : B) : Except Error (Series B) := do
  let old ← s.coeff k
  store s k (← Base.add old v)

/-- A series with an amount taken from one coefficient. -/
def subAt [Scalar F] [Base B F] (s : Series B) (k : Nat) (v : B) : Except Error (Series B) := do
  let old ← s.coeff k
  store s k (← Base.sub old v)

/-- A series with one coefficient divided by a value. -/
def divAt [Scalar F] [Base B F] (s : Series B) (k : Nat) (v : B) : Except Error (Series B) := do
  let old ← s.coeff k
  store s k (← Base.div old v)

/-- The orders `1, ..., q`, the highest first. -/
def descending (q : Nat) : List Nat :=
  (List.range' 1 q).reverse

end Series

end TaylorTape
