import TaylorTape.Value.Basic

/-!
The types of value that a tape can be recorded over.

A base has elements, a shape, and operations that act element by element.  There are two: the
elements themselves, which have one shape, and scalars-or-arrays of them.  All that recording and
sweeping need is stated here once, over any base.
-/

set_option autoImplicit false
set_option relaxedAutoImplicit false

namespace TaylorTape

/-- The types a tape can be recorded over, with `F` as the type of their elements. -/
class Base (B : Type) (F : outParam Type) where
  /-- The scalar-shaped value of an element. -/
  ofElem : F → B
  /-- Whether a value is scalar-shaped. -/
  isScalar : B → Bool
  /-- The elements in order. -/
  toList : B → List F
  /-- The array of some elements; a base without arrays takes exactly one element. -/
  ofList : List F → Except Error B
  /-- A function applied to every element. -/
  map : (F → F) → B → B
  /-- Two values combined element by element; the text names the operation in an error. -/
  zipWith : String → (F → F → F) → B → B → Except Error B
  /-- Whether a comparison holds of every pair of elements. -/
  compare : Comparison → B → B → Except Error Bool
  /-- The sum of the elements. -/
  sum : B → F
  /-- The first value given the shape of the second. -/
  broadcastLike : B → B → Except Error B
  /-- The first value collapsed onto the shape of the second. -/
  reduceLike : B → B → B
  /-- The bytes that a value takes when each of its elements takes the given number. -/
  footprint : Nat → B → Nat

namespace Base

variable {B F : Type} [Scalar F] [Base B F]

/-- The scalar-shaped zero. -/
def zero : B :=
  ofElem 0

/-- The scalar-shaped one. -/
def one : B :=
  ofElem 1

/-- The number of elements; a scalar has one. -/
def length (v : B) : Nat :=
  (toList v).length

/-- The sum of two values. -/
def add (a b : B) : Except Error B :=
  zipWith "add" (· + ·) a b

/-- The difference of two values. -/
def sub (a b : B) : Except Error B :=
  zipWith "sub" (· - ·) a b

/-- The product of two values, element by element. -/
def mul (a b : B) : Except Error B :=
  zipWith "mul" (· * ·) a b

/-- The quotient of two values, element by element. -/
def div (a b : B) : Except Error B :=
  zipWith "div" (· / ·) a b

/-- Every element multiplied by one element. -/
def scale (v : B) (s : F) : B :=
  map (· * s) v

/-- Every element negated. -/
def negate (v : B) : B :=
  map (- ·) v

/-- Whether every element equals zero, whatever its sign. -/
def isAllZero (v : B) : Bool :=
  (toList v).all (Scalar.beq · 0)

end Base

/-- Elements as values of one shape: nothing has to be broadcast, and nothing can fail to fit. -/
instance {F : Type} [Scalar F] : Base F F where
  ofElem x := x
  isScalar _ := true
  toList x := [x]
  ofList
    | [x] => .ok x
    | xs => .error (.shapeMismatch "scalar base" 1 xs.length)
  map f x := f x
  zipWith _ f a b := .ok (f a b)
  compare c a b := .ok (c.holds a b)
  sum x := x
  broadcastLike x _ := .ok x
  reduceLike x _ := x
  footprint width _ := width

/-- Scalars and arrays of elements; every value takes three words beside its array's elements. -/
instance {F : Type} [Scalar F] : Base (Value F) F where
  ofElem := .scalar
  isScalar := Value.isScalar
  toList := Value.toList
  ofList xs := .ok (.array xs)
  map := Value.map
  zipWith := Value.zipWith
  compare := Value.compare
  sum := Value.sum
  broadcastLike := Value.broadcastLike
  reduceLike := Value.reduceLike
  footprint width v := 24 + width * (v.array?.getD []).length

end TaylorTape
