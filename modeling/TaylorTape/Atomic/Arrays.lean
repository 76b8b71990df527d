import TaylorTape.Atomic.Basic

/-!
The sum, the concatenation and the reversal of arrays.

A scalar coefficient of an array argument stands for that scalar in every element, so each
coefficient is first brought to the order-zero shape of its argument.
-/

set_option autoImplicit false
set_option relaxedAutoImplicit false

namespace TaylorTape.Atomic

open Block (place fill)

variable {B F : Type} [Scalar F] [Base B F]

/-- The sum of the elements of one argument. -/
def sum : Atomic B where
  extend p q varIn varOut tx ty := do
    if varIn.size ≠ 1 then
      throw (.shapeMismatch "sum arguments" 1 varIn.size)
    let marks ← mark p varOut (← fetch varIn 0)
    let x0 ← fetch tx 0
    let ty ← fill p q ty fun k => do
      return [Base.ofElem (Base.sum (← Base.broadcastLike (← fetch tx k) x0))]
    return some (marks, ty)
  pull q tx _ px py := do
    let x0 ← fetch tx (place 0 0 q)
    let px ← fill 0 q px fun k => do
      let w ← fetch py k
      let _ ← Base.scalarElem "sum adjoint" w
      return [← Base.broadcastLike w x0]
    return some px

/-- The elements of one argument followed by those of another; always an array. -/
def concat : Atomic B where
  extend p q varIn varOut tx ty := do
    if varIn.size ≠ 2 then
      throw (.shapeMismatch "concat arguments" 2 varIn.size)
    let marks ← mark p varOut ((← fetch varIn 0) || (← fetch varIn 1))
    let n := Base.length (← fetch tx (place 0 0 q))
    let m := Base.length (← fetch tx (place 1 0 q))
    let ty ← fill p q ty fun k => do
      let head ← Base.expand "concat argument" (← fetch tx (place 0 k q)) n
      let tail ← Base.expand "concat argument" (← fetch tx (place 1 k q)) m
      return [← Base.ofList (head ++ tail)]
    return some (marks, ty)
  pull q tx _ px py := do
    let x0 ← fetch tx (place 0 0 q)
    let y0 ← fetch tx (place 1 0 q)
    let px ← fill 0 q px fun k => do
      let elems ← Base.expand "concat adjoint" (← fetch py k) (Base.length x0 + Base.length y0)
      let (head, tail) ← splitOff elems (Base.length x0)
      return [← Base.shapedLike head x0, ← Base.shapedLike tail y0]
    return some px

/-- The elements of an array in the opposite order; a scalar stays. -/
def flipped (v : B) : Except Error B :=
  if Base.isScalar v then .ok v else Base.ofList (Base.toList v).reverse

/-- The elements of one argument in the opposite order. -/
def flip : Atomic B where
  extend p q varIn varOut tx ty := do
    if varIn.size ≠ 1 then
      throw (.shapeMismatch "reverse arguments" 1 varIn.size)
    let marks ← mark p varOut (← fetch varIn 0)
    let ty ← fill p q ty fun k => do return [← flipped (← fetch tx k)]
    return some (marks, ty)
  pull q _ _ px py := do
    let px ← fill 0 q px fun k => do return [← flipped (← fetch py k)]
    return some px

end TaylorTape.Atomic
