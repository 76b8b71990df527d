import TaylorTape.Evaluator.Reverse

/-!
Jacobians, gradients and products with Hessians, made of sweeps.

Column `j` of a Jacobian is one forward sweep along the `j`-th unit direction, row `i` one reverse
sweep from the `i`-th unit weight.  With an array among the inputs the unit direction is the array
of ones; with an array among the outputs the unit weight asks for the sum of its elements.
-/

set_option autoImplicit false
set_option relaxedAutoImplicit false

namespace TaylorTape

namespace Evaluator

variable {B F : Type} [Scalar F] [Base B F]

/-- The list of zeros with a one at one position. -/
def unit (n i : Nat) : List B :=
  (List.range n).map fun j => if j = i then Base.one else Base.zero

/-- The rows of the matrix with some columns. -/
def rowsOfColumns (m : Nat) (columns : List (List B)) : Except Error (List (List B)) :=
  (List.range m).mapM fun i => columns.mapM fun column => pick column i

/-- The order-zero partials of a reverse sweep. -/
def lowest (px : List (List B)) : Except Error (List B) :=
  px.mapM fun p => pick p 0

/-- The Jacobian at a point by forward sweeps, one for each input. -/
def jacobianForward (x : List B) : Evaluation B (List (List B)) := do
  let e ← get
  let _ ← forwardZero x
  let columns ← (List.range e.numInputs).mapM fun j => forwardOne (unit e.numInputs j)
  rowsOfColumns e.numOutputs columns

/-- The rows of the Jacobian at the present point by reverse sweeps, one for each output. -/
def reverseRows (e : Evaluator B) : Except Error (List (List B)) :=
  (List.range e.numOutputs).mapM fun i => do
    lowest (← e.reverse 1 ((unit e.numOutputs i).map fun w => [w]))

/-- The Jacobian at a point by reverse sweeps, one for each output. -/
def jacobianReverse (x : List B) : Evaluation B (List (List B)) := do
  let _ ← forwardZero x
  (← get).reverseRows

/-- The Jacobian at a point, by forward sweeps if there are no more inputs than outputs. -/
def jacobian (x : List B) : Evaluation B (List (List B)) := do
  let e ← get
  if e.numInputs ≤ e.numOutputs then jacobianForward x else jacobianReverse x

/-- The gradient at a point of the only output. -/
def gradient (x : List B) : Evaluation B (List B) := do
  let e ← get
  if e.numOutputs ≠ 1 then
    throw (.shapeMismatch "gradient outputs" 1 e.numOutputs)
  let _ ← forwardZero x
  lowest (← (← get).reverse 1 [[Base.one]])

/-- The Hessian at a point of the only output, times a vector: the gradient of the derivative along
the vector. -/
def hessianVector (x v : List B) : Evaluation B (List B) := do
  let e ← get
  if e.numOutputs ≠ 1 then
    throw (.shapeMismatch "hessian outputs" 1 e.numOutputs)
  let _ ← forwardZero x
  let _ ← forwardOne v
  lowest (← (← get).reverse 2 [[Base.zero, Base.one]])

end Evaluator

end TaylorTape
