import TaylorTape.Coefficients
import TaylorTape.Recording

/-!
Frozen recordings, ready to be evaluated.

An evaluator holds a tape without its dead entries, the positions of its outputs, and the Taylor
coefficients computed so far.
-/

set_option autoImplicit false
set_option relaxedAutoImplicit false

namespace TaylorTape

/-- A frozen tape with its outputs and the coefficients of its variables. -/
structure Evaluator (B : Type) where
  tape : Tape B
  outputs : List Nat
  table : Coefficients B

/-- Computations on an evaluator; the coefficients computed before an error stay. -/
abbrev Evaluation (B : Type) : Type → Type :=
  ExceptT Error (StateM (Evaluator B))

namespace Evaluator

variable {B F : Type}

/-- The number of independent variables. -/
def numInputs (e : Evaluator B) : Nat :=
  e.tape.numInputs

/-- The number of outputs. -/
def numOutputs (e : Evaluator B) : Nat :=
  e.outputs.length

/-- The number of entries, inputs and parameters included. -/
def size (e : Evaluator B) : Nat :=
  e.tape.size

/-- The number of orders that are there. -/
def numOrders (e : Evaluator B) : Nat :=
  e.table.numOrders

/-- The number of directions of the orders above zero. -/
def numDirections (e : Evaluator B) : Nat :=
  e.table.numDirections

/-- The values of the outputs at the recording point. -/
def recordedOutputs (e : Evaluator B) : Except Error (List B) :=
  e.outputs.mapM e.tape.value

end Evaluator

variable {B F : Type} [Scalar F] [Base B F]

/-- The evaluator of a tape with no coefficient computed yet. -/
def Evaluator.ofTape (tape : Tape B) (outputs : List Nat) : Evaluator B :=
  ⟨tape, outputs, Coefficients.empty tape.size⟩

/-- The evaluator of some outputs of a recording. -/
def Tape.freeze (tape : Tape B) (ys : List (Tracked B)) : Except Error (Evaluator B) := do
  let (tape, outputs) ← tape.outputs ys
  let pruned ← tape.prune outputs
  return .ofTape pruned.tape pruned.outputs

end TaylorTape
