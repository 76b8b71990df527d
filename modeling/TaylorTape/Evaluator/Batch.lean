import TaylorTape.Evaluator.Derivatives

/-!
Evaluation at many points, shared out among workers.

A worker takes a copy of the evaluator and evaluates its points on that copy, one after another.
The answers are put into the order of the points; if some point fails, the error of one of them is
the answer.
-/

set_option autoImplicit false
set_option relaxedAutoImplicit false

namespace TaylorTape

namespace Evaluator

variable {B α : Type}

/-- What one worker answers at its points, on one copy of the evaluator. -/
def work (e : Evaluator B) (task : List B → Evaluation B α) :
    List (List B) → List (Except Error α)
  | [] => []
  | x :: rest =>
    let (answer, e) := (task x).run e
    answer :: work e task rest

/-- The answers at all points, given by one worker; the error is that of the first failing point. -/
def batch (e : Evaluator B) (task : List B → Evaluation B α) (points : List (List B)) :
    Except Error (List α) :=
  (e.work task points).mapM id

variable {F : Type} [Scalar F] [Base B F]

/-- The Jacobians at many points. -/
def jacobianBatch (e : Evaluator B) (points : List (List B)) : Except Error (List (List (List B))) :=
  e.batch jacobian points

/-- The values of the outputs at many points. -/
def forwardZeroBatch (e : Evaluator B) (points : List (List B)) : Except Error (List (List B)) :=
  e.batch forwardZero points

end Evaluator

end TaylorTape
