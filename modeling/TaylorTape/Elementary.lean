import TaylorTape.Base

/-!
The elementary operations that a tape records, and what they give on plain values.
-/

set_option autoImplicit false
set_option relaxedAutoImplicit false

namespace TaylorTape

/-- The operations of one argument. -/
inductive UnaryOp where
  | neg | exp | ln | sqrt | sin | cos | abs
  deriving DecidableEq

/-- The operations of two arguments. -/
inductive BinaryOp where
  | add | sub | mul | div
  deriving DecidableEq

/-- The name that errors give to an operation of one argument. -/
def UnaryOp.name : UnaryOp → String
  | .neg => "neg"
  | .exp => "exp"
  | .ln => "ln"
  | .sqrt => "sqrt"
  | .sin => "sin"
  | .cos => "cos"
  | .abs => "abs"

/-- The name that errors give to an operation of two arguments. -/
def BinaryOp.name : BinaryOp → String
  | .add => "add"
  | .sub => "sub"
  | .mul => "mul"
  | .div => "div"

variable {B F : Type} [Scalar F] [Base B F]

/-- The function on elements that an operation of one argument applies everywhere. -/
def UnaryOp.onElem : UnaryOp → F → F
  | .neg => (- ·)
  | .exp => Scalar.exp
  | .ln => Scalar.ln
  | .sqrt => Scalar.sqrt
  | .sin => Scalar.sin
  | .cos => Scalar.cos
  | .abs => Scalar.abs

/-- An operation of one argument on a plain value. -/
def UnaryOp.eval (op : UnaryOp) (a : B) : B :=
  Base.map op.onElem a

/-- An operation of two arguments on plain values. -/
def BinaryOp.eval (op : BinaryOp) (a b : B) : Except Error B :=
  match op with
  | .add => Base.add a b
  | .sub => Base.sub a b
  | .mul => Base.mul a b
  | .div => Base.div a b

end TaylorTape
