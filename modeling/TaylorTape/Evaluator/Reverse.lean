import TaylorTape.Evaluator.Forward
import TaylorTape.Series.Reverse

/-!
Reverse sweeps: the partials of a weighted sum of output coefficients.

A sweep gives every output coefficient its weight and walks the tape from its end.  When an entry's
turn comes, all entries that read it have passed their share on to it, and it passes its own share
on to its operands.  A share is collapsed onto the order-zero shape of the operand, because a scalar
that was spread over an array collects from every element.  Parameters collect nothing, and an entry
whose partials are all zero is left out.
-/

set_option autoImplicit false
set_option relaxedAutoImplicit false

namespace TaylorTape

namespace Evaluator

variable {B F : Type} [Scalar F] [Base B F]

/-- Whether a reverse sweep through some orders with some weights may begin. -/
def checkReverse (e : Evaluator B) (q : Nat) (weights : List (List B)) : Except Error Unit := do
  if q = 0 then
    throw (.state .noOrder)
  if q > e.numOrders then
    throw (.state (.reverseOrdersMissing q e.numOrders))
  if q > 1 ∧ e.numDirections ≠ 1 then
    throw (.state (.reverseDirections q e.numDirections))
  if weights.length ≠ e.numOutputs then
    throw (.shapeMismatch "reverse weights" e.numOutputs weights.length)
  if let some w := weights.find? (·.length != q) then
    throw (.shapeMismatch "reverse weight orders" q w.length)

/-- The partials of all variables, of which one has received a share. -/
def accumulate (e : Evaluator B) (partials : Array (Series B)) (v : Nat) (share : Series B) :
    Except Error (Array (Series B)) := do
  if (← e.tape.entry v) = .const then
    return partials
  else
    let shape ← e.table.coeff v 0 0
    let sum ← (List.range share.size).foldlM
      (fun s k => do s.addAt k (Base.reduceLike (← share.coeff k) shape))
      (← fetch partials v)
    store partials v sum

/-- The partials after the entry at a position has passed its share on.  The test says which
coefficients pass nothing on; an entry with such coefficients only is left out. -/
def retreat (e : Evaluator B) (idle : B → Bool) (q : Nat) (partials : Array (Series B)) (i : Nat) :
    Except Error (Array (Series B)) := do
  match ← e.tape.entry i with
  | .input | .const | .result _ => return partials
  | .unary op a =>
    let pz ← fetch partials i
    if pz.all idle then
      return partials
    else
      let sa ← e.table.series a q 0
      let z ← e.table.series i q 0
      let pa ← (op.pullback sa z pz (Series.zeros q)).mapError (.op i op.name)
      e.accumulate partials a pa
  | .binary op a b =>
    let pz ← fetch partials i
    if pz.all idle then
      return partials
    else
      let sa ← e.table.series a q 0
      let sb ← e.table.series b q 0
      let z ← e.table.series i q 0
      let (pa, pb) ←
        (op.pullback sa sb z pz (Series.zeros q) (Series.zeros q)).mapError (.op i op.name)
      e.accumulate (← e.accumulate partials a pa) b pb
  | .call place args numResults =>
    let adjoints ← (List.range' i numResults).mapM (fetch partials)
    if adjoints.all (·.all idle) then
      return partials
    else
      let callee ← fetch e.tape.atomics place
      let xs ← args.mapM fun a => e.table.series a q 0
      let ys ← (List.range' i numResults).mapM fun j => e.table.series j q 0
      let shares ← Tape.answered callee i (q - 1) (callee.op.reverse (q - 1) xs ys adjoints)
      (args.zip shares).foldlM (fun partials (a, share) => e.accumulate partials a share) partials

/-- The partials with respect to the first `q` orders of each input, given the weights of those
orders of each output.  The test says which coefficients pass nothing on. -/
def reverseWith (idle : B → Bool) (e : Evaluator B) (q : Nat) (weights : List (List B)) :
    Except Error (List (List B)) := do
  e.checkReverse q weights
  let weighted ← (e.outputs.zip weights).foldlM
    (fun partials (y, w) => e.accumulate partials y w.toArray)
    (Array.replicate e.size (Series.zeros q))
  let partials ← (List.range e.size).reverse.foldlM (e.retreat idle q) weighted
  (List.range e.numInputs).mapM fun j => do
    let x0 ← e.table.coeff j 0 0
    (← fetch partials j).toList.mapM fun p => Base.broadcastLike (Base.reduceLike p x0) x0

/-- The partials with respect to the first `q` orders of each input, where entries whose partials
are all zero are left out. -/
def reverse (e : Evaluator B) (q : Nat) (weights : List (List B)) :
    Except Error (List (List B)) :=
  e.reverseWith Base.isAllZero q weights

end Evaluator

end TaylorTape
