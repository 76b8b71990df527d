import TaylorTape.Series.Basic

/-!
The Taylor coefficients of all variables of a tape, along several directions.

The order-zero coefficient of a variable is shared by all directions; each higher order has one
coefficient for each direction.  The cells of one variable lie together: first order zero, then the
directions of order one, then those of order two, and so on.  There may be room for more orders than
are valid, and the cells of an order that is not valid hold anything.
-/

set_option autoImplicit false
set_option relaxedAutoImplicit false

namespace TaylorTape

/-- A table of coefficients by variable, order and direction. -/
structure Coefficients (B : Type) where
  /-- The cells of all variables in a row. -/
  cells : Array B
  /-- The number of variables. -/
  numVariables : Nat
  /-- The number of orders that there is room for. -/
  capacity : Nat
  /-- The number of valid orders. -/
  numOrders : Nat
  /-- The number of directions of the orders above zero. -/
  numDirections : Nat

namespace Coefficients

variable {B F : Type} [Scalar F] [Base B F]

/-- The table of some variables, with room for order zero along one direction and nothing valid. -/
def empty (numVariables : Nat) : Coefficients B where
  cells := Array.replicate numVariables Base.zero
  numVariables
  capacity := 1
  numOrders := 0
  numDirections := 1

/-- The number of cells of one variable. -/
def stride (c : Coefficients B) : Nat :=
  1 + (c.capacity - 1) * c.numDirections

/-- The cell of an order of a variable along a direction. -/
def index (c : Coefficients B) (v k d : Nat) : Nat :=
  v * c.stride + if k = 0 then 0 else 1 + (k - 1) * c.numDirections + d

/-- The coefficient of an order of a variable along a direction. -/
def coeff (c : Coefficients B) (v k d : Nat) : Except Error B :=
  fetch c.cells (c.index v k d)

/-- The table with one coefficient replaced. -/
def put (c : Coefficients B) (v k d : Nat) (x : B) : Except Error (Coefficients B) := do
  return { c with cells := ← store c.cells (c.index v k d) x }

/-- The first orders of a variable along a direction. -/
def series (c : Coefficients B) (v orders d : Nat) : Except Error (Series B) := do
  return (← (List.range orders).mapM fun k => c.coeff v k d).toArray

/-- The coefficient that a cell of a wider table takes over, where the first `keep` orders are kept;
`s` is the place of the cell among those of its variable. -/
def carried (c : Coefficients B) (keep directions v s : Nat) : Except Error B :=
  let k := if s = 0 then 0 else (s - 1) / directions + 1
  let d := if s = 0 then 0 else (s - 1) % directions
  if k < keep then c.coeff v k d else .ok Base.zero

/-- The table with room for some orders along some directions.  Room is never given up.  With
another number of directions only order zero is kept. -/
def reserve (c : Coefficients B) (orders directions : Nat) : Except Error (Coefficients B) := do
  if orders ≤ c.capacity ∧ directions = c.numDirections then
    return c
  else
    let keep := if directions = c.numDirections then c.numOrders else min c.numOrders 1
    let capacity := max orders c.capacity
    let stride := 1 + (capacity - 1) * directions
    let cells ← (List.range (c.numVariables * stride)).mapM fun i =>
      c.carried keep directions (i / stride) (i % stride)
    return {
      cells := cells.toArray
      numVariables := c.numVariables
      capacity
      numOrders := keep
      numDirections := directions }

/-- The bytes that the coefficients take when each element takes the given number. -/
def footprint (width : Nat) (c : Coefficients B) : Nat :=
  c.cells.foldl (fun bytes x => bytes + Base.footprint width x) 0

end Coefficients

end TaylorTape
