import TaylorTape.Series.Basic

/-!
The recurrences that extend the series of an operation by one order.

With `k` the number of coefficients of the result that are known already, each rule gives the
coefficient of order `k` from the arguments' orders up to `k` and the result's orders below `k`.
-/

set_option autoImplicit false
set_option relaxedAutoImplicit false

namespace TaylorTape

variable {B F : Type} [Scalar F] [Base B F]

namespace Series

/-- The series of the sine and the cosine of a series, up to order `n`:
`k * s k = ∑ j * a j * c (k - j)` and `k * c k = -∑ j * a j * s (k - j)`, over `1 ≤ j ≤ k`. -/
def sinCos (a : Series B) (n : Nat) : Except Error (Series B × Series B) := do
  let a0 ← a.coeff 0
  (List.range' 1 n).foldlM
    (fun (pair : Series B × Series B) k => do
      let next ← (List.range' 1 k).foldlM
        (fun (next : B × B) j => do
          let weighted := Base.scale (← a.coeff j) (Scalar.ratio j k)
          let sine ← Base.add next.1 (← Base.mul weighted (← pair.2.coeff (k - j)))
          let cosine ← Base.sub next.2 (← Base.mul weighted (← pair.1.coeff (k - j)))
          return (sine, cosine))
        (Base.zero, Base.zero)
      return (pair.1.push next.1, pair.2.push next.2))
    (#[UnaryOp.sin.eval a0], #[UnaryOp.cos.eval a0])

end Series

/-- The coefficient of order `k ≥ 1` of an operation of one argument. -/
def UnaryOp.recurrence (op : UnaryOp) (a z : Series B) (k : Nat) : Except Error B :=
  match op with
  | .neg => do
    return Base.negate (← a.coeff k)
  | .abs => do
    Base.mul (Base.map Scalar.sign (← a.coeff 0)) (← a.coeff k)
  | .exp =>
    (List.range' 1 k).foldlM
      (fun sum j => do
        let term ← Base.mul (← a.coeff j) (← z.coeff (k - j))
        Base.add sum (Base.scale term (Scalar.ratio j k)))
      Base.zero
  | .ln => do
    let sum ← (List.range' 1 (k - 1)).foldlM
      (fun sum j => do
        let term ← Base.mul (← z.coeff j) (← a.coeff (k - j))
        Base.sub sum (Base.scale term (Scalar.ratio j k)))
      (← a.coeff k)
    Base.div sum (← a.coeff 0)
  | .sqrt => do
    let sum ← (List.range' 1 (k - 1)).foldlM
      (fun sum j => do
        Base.sub sum (← Base.mul (← z.coeff j) (← z.coeff (k - j))))
      (← a.coeff k)
    Base.div sum (Base.scale (← z.coeff 0) (Scalar.ratio 2 1))
  | .sin => do
    (← a.sinCos k).1.coeff k
  | .cos => do
    (← a.sinCos k).2.coeff k

/-- The coefficient of order `k ≥ 1` of an operation of two arguments. -/
def BinaryOp.recurrence (op : BinaryOp) (a b z : Series B) (k : Nat) : Except Error B :=
  match op with
  | .add => do
    Base.add (← a.coeff k) (← b.coeff k)
  | .sub => do
    Base.sub (← a.coeff k) (← b.coeff k)
  | .mul =>
    (List.range (k + 1)).foldlM
      (fun sum j => do
        Base.add sum (← Base.mul (← a.coeff j) (← b.coeff (k - j))))
      Base.zero
  | .div => do
    let sum ← (List.range' 1 k).foldlM
      (fun sum j => do
        Base.sub sum (← Base.mul (← b.coeff j) (← z.coeff (k - j))))
      (← a.coeff k)
    Base.div sum (← b.coeff 0)

/-- The coefficient that follows the known ones of an operation of one argument. -/
def UnaryOp.next (op : UnaryOp) (a z : Series B) : Except Error B := do
  if z.size = 0 then
    return op.eval (← a.coeff 0)
  else
    op.recurrence a z z.size

/-- The coefficient that follows the known ones of an operation of two arguments. -/
def BinaryOp.next (op : BinaryOp) (a b z : Series B) : Except Error B := do
  if z.size = 0 then
    op.eval (← a.coeff 0) (← b.coeff 0)
  else
    op.recurrence a b z z.size

end TaylorTape
