import TaylorTape.Atomic.Basic

/-!
Arrays made of scalars, and scalars taken out of arrays.

The length of `make` and `unpack` belongs to the atomic, so each length is an atomic of its own.
-/

set_option autoImplicit false
set_option relaxedAutoImplicit false

namespace TaylorTape.Atomic

open Block (place row fill)

variable {B F : Type} [Scalar F] [Base B F]

/-- The array of `n` copies of one scalar argument. -/
def make (n : Nat) : Atomic B where
  extend p q varIn varOut tx ty := do
    if varIn.size ≠ 1 then
      throw (.shapeMismatch "make arguments" 1 varIn.size)
    let marks ← mark p varOut (← fetch varIn 0)
    let ty ← fill p q ty fun k => do
      let e ← Base.scalarElem "make argument" (← fetch tx k)
      return [← Base.ofList (List.replicate n e)]
    return some (marks, ty)
  pull q _ _ px py := do
    let px ← fill 0 q px fun k => do
      let w ← fetch py k
      if Base.isScalar w then
        return [Base.scale w (Scalar.ratio n 1)]
      else if Base.length w = n then
        return [Base.ofElem (Base.sum w)]
      else
        .error (.shapeMismatch "make adjoint" n (Base.length w))
    return some px

/-- The array whose elements are the scalar arguments in order. -/
def pack : Atomic B where
  extend p q varIn varOut tx ty := do
    let marks ← mark p varOut (varIn.any id)
    let ty ← fill p q ty fun k => do
      let elems ← (List.range varIn.size).mapM fun j => do
        Base.scalarElem "pack argument" (← fetch tx (place j k q))
      return [← Base.ofList elems]
    return some (marks, ty)
  pull q tx _ px py := do
    let n := tx.size / (q + 1)
    let px ← fill 0 q px fun k => do
      return (← Base.expand "pack adjoint" (← fetch py k) n).map Base.ofElem
    return some px

/-- The `n` elements of one argument as separate scalars. -/
def unpack (n : Nat) : Atomic B where
  numResults _ := n
  extend p q varIn varOut tx ty := do
    if varIn.size ≠ 1 then
      throw (.shapeMismatch "unpack arguments" 1 varIn.size)
    let x0 ← fetch tx 0
    if Base.length x0 ≠ n then
      throw (.shapeMismatch "unpack argument" n (Base.length x0))
    let flag ← fetch varIn 0
    let marks := if p = 0 then varOut.map fun _ => flag else varOut
    let ty ← fill p q ty fun k => do
      return (← Base.expand "unpack argument" (← fetch tx k) n).map Base.ofElem
    return some (marks, ty)
  pull q tx _ px py := do
    let px ← fill 0 q px fun k => do
      let elems ← (List.range n).mapM fun i => do
        Base.scalarElem "unpack adjoint" (← fetch py (place i k q))
      return [← Base.shapedLike elems (← fetch tx 0)]
    return some px

end TaylorTape.Atomic
