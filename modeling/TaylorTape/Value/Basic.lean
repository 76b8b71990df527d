import TaylorTape.Scalar
import TaylorTape.Checked

/-!
Values that are one element or a finite array of elements.

A scalar combines with an array by standing at every position of it; two arrays combine position by
position and must have one length.  Equality tells a scalar from an array of length one.
-/

set_option autoImplicit false
set_option relaxedAutoImplicit false

namespace TaylorTape

/-- One element, or a finite array of elements. -/
inductive Value (F : Type) where
  | scalar (x : F)
  | array (xs : List F)
  deriving DecidableEq

namespace Value

variable {F : Type}

/-- An array that holds one element a number of times. -/
def filled (x : F) (n : Nat) : Value F :=
  .array (List.replicate n x)

/-- Whether the value is one element and not an array. -/
def isScalar : Value F → Bool
  | .scalar _ => true
  | .array _ => false

/-- The elements in order; a scalar has one. -/
def toList : Value F → List F
  | .scalar x => [x]
  | .array xs => xs

/-- The elements of an array, and none for a scalar. -/
def array? : Value F → Option (List F)
  | .scalar _ => none
  | .array xs => some xs

/-- The number of elements; a scalar has one. -/
def length (v : Value F) : Nat :=
  v.toList.length

/-- Whether the value is the array without elements. -/
def isEmpty (v : Value F) : Bool :=
  v.toList.isEmpty

/-- The element at a position; a scalar has position zero only. -/
def elementAt (v : Value F) (i : Nat) : Except Error F :=
  pick v.toList i

/-- A function applied to every element. -/
def map (f : F → F) : Value F → Value F
  | .scalar x => .scalar (f x)
  | .array xs => .array (xs.map f)

/-- Two values combined position by position, a scalar standing at every position of an array. -/
def zipWith (context : String) (f : F → F → F) : Value F → Value F → Except Error (Value F)
  | .scalar a, .scalar b => .ok (.scalar (f a b))
  | .scalar a, .array bs => .ok (.array (bs.map (f a)))
  | .array as, .scalar b => .ok (.array (as.map (f · b)))
  | .array as, .array bs =>
    if as.length = bs.length then .ok (.array (List.zipWith f as bs))
    else .error (.shapeMismatch context as.length bs.length)

/-- The elements repeated to a length: those of an array must have it already. -/
def broadcastTo (v : Value F) (n : Nat) : Except Error (List F) :=
  match v with
  | .scalar x => .ok (List.replicate n x)
  | .array xs => if xs.length = n then .ok xs else .error (.shapeMismatch "broadcast" n xs.length)

/-- A value given the shape of another: a scalar fills an array, and all else must fit already. -/
def broadcastLike (v shape : Value F) : Except Error (Value F) :=
  match shape, v with
  | .scalar _, .scalar x => .ok (.scalar x)
  | .scalar _, .array xs => .error (.shapeMismatch "broadcast" 1 xs.length)
  | .array ys, v => (v.broadcastTo ys.length).map .array

variable [Scalar F]

/-- Every element multiplied by one element. -/
def scale (v : Value F) (s : F) : Value F :=
  v.map (· * s)

/-- The sum of the elements; a scalar is its own sum. -/
def sum : Value F → F
  | .scalar x => x
  | .array xs => Scalar.total xs

/-- Whether a comparison holds at every position, a scalar standing at every position of an array. -/
def compare (c : Comparison) : Value F → Value F → Except Error Bool
  | .scalar a, .scalar b => .ok (c.holds a b)
  | .scalar a, .array bs => .ok (bs.all (c.holds a))
  | .array as, .scalar b => .ok (as.all (c.holds · b))
  | .array as, .array bs =>
    if as.length = bs.length then .ok ((as.zip bs).all fun p => c.holds p.1 p.2)
    else .error (.shapeMismatch "compare" as.length bs.length)

/-- Equality of shape and of all elements as numbers. -/
def beq : Value F → Value F → Bool
  | .scalar a, .scalar b => Scalar.beq a b
  | .array as, .array bs => as.length == bs.length && (as.zip bs).all fun p => Scalar.beq p.1 p.2
  | _, _ => false

/-- A contribution collapsed onto a shape: what an array gives to a scalar is its sum. -/
def reduceLike (v shape : Value F) : Value F :=
  match v, shape with
  | .array xs, .scalar _ => .scalar (Scalar.total xs)
  | v, _ => v

end Value

end TaylorTape
