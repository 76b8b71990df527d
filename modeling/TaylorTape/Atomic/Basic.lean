import TaylorTape.Atomic.Block
import TaylorTape.IndexSet

/-!
Vector operations that a tape records as one call.

An atomic extends the series of its results by some orders, passes partials back to its arguments,
and says which of its results depend on which arguments.  It is handed blocks of coefficients and
works on them in place; a sweep lays the series of a call out as blocks and takes them apart again.
An atomic may decline an order by answering `none`.  Its rules are plain functions, so one atomic
can serve every call on every tape.
-/

set_option autoImplicit false
set_option relaxedAutoImplicit false

namespace TaylorTape

/-- One argument or one result of a call: its series, and whether it is a variable. -/
structure Wire (B : Type) where
  series : Series B
  isVariable : Bool

/-- Every result depends on every argument: each has the union of the sets. -/
def denseSparsity (sets : List IndexSet) (count : Nat) : List IndexSet :=
  List.replicate count (IndexSet.unions sets)

/-- A vector operation of any number of arguments and results. -/
structure Atomic (B : Type) where
  /-- The number of results for a number of arguments. -/
  numResults : Nat → Nat := fun _ => 1
  /-- The results with their orders `p, ..., q` computed; the orders below `p` are there already.
  Given are which arguments and which results are variables, the block of the arguments and the
  block of the results; at order zero a result may be marked as no variable. -/
  extend : (p q : Nat) → (varIn varOut : Array Bool) → (tx ty : Array B) →
    Except Error (Option (Array Bool × Array B))
  /-- The partials of the arguments, of orders `0, ..., q`, from those of the results.  Given are the
  blocks of the arguments, of the results, of the arguments' partials, which are zero, and of the
  results' partials. -/
  pull : (q : Nat) → (tx ty px py : Array B) → Except Error (Option (Array B))
  /-- What each result depends on, given what each argument depends on. -/
  forwardSparsity : List IndexSet → Nat → List IndexSet := denseSparsity
  /-- What each argument feeds, given what each result feeds. -/
  reverseSparsity : List IndexSet → Nat → List IndexSet := denseSparsity

variable {B F : Type}

/-- The block of some arguments or results. -/
def Wire.block (wires : List (Wire B)) : Array B :=
  Block.join (wires.map Wire.series)

/-- Which of some arguments or results are variables. -/
def Wire.flags (wires : List (Wire B)) : Array Bool :=
  (wires.map Wire.isVariable).toArray

namespace Atomic

/-- Whether the only result is a variable, which is settled at order zero. -/
def mark (p : Nat) (varOut : Array Bool) (isVariable : Bool) : Except Error (Array Bool) :=
  if p = 0 then store varOut 0 isVariable else .ok varOut

/-- A call for the orders `p, ..., q`, whose arguments and results have the orders up to `q`. -/
def forward (op : Atomic B) (p q : Nat) (args results : List (Wire B)) :
    Except Error (Option (List (Wire B))) := do
  match ← op.extend p q (Wire.flags args) (Wire.flags results) (Wire.block args)
      (Wire.block results) with
  | none => return none
  | some (marks, block) =>
    return some (← (List.range results.length).mapM fun i => do
      return ⟨← Block.series q block i, ← fetch marks i⟩)

variable [Scalar F] [Base B F]

/-- A call back for the orders `0, ..., q`, whose arguments, results and partials have these
orders. -/
def reverse (op : Atomic B) (q : Nat) (args results adjoints : List (Series B)) :
    Except Error (Option (List (Series B))) := do
  let zeros := Array.replicate (args.length * (q + 1)) Base.zero
  match ← op.pull q (Block.join args) (Block.join results) zeros (Block.join adjoints) with
  | none => return none
  | some px => return some (← (List.range args.length).mapM (Block.series q px))

end Atomic

variable [Scalar F] [Base B F]

/-- The elements of a value at a length: a scalar is repeated, and all else must have it already. -/
def Base.expand (context : String) (v : B) (n : Nat) : Except Error (List F) :=
  if Base.isScalar v then .ok (List.replicate n (Base.sum v))
  else if Base.length v = n then .ok (Base.toList v)
  else .error (.shapeMismatch context n (Base.length v))

/-- The value of some elements in the shape of another value: a scalar takes their sum. -/
def Base.shapedLike (elems : List F) (shape : B) : Except Error B :=
  if Base.isScalar shape then .ok (Base.ofElem (Scalar.total elems)) else Base.ofList elems

/-- The element of a scalar-shaped value; another shape is refused. -/
def Base.scalarElem (context : String) (v : B) : Except Error F :=
  if Base.isScalar v then .ok (Base.sum v)
  else .error (.shapeMismatch context 1 (Base.length v))

end TaylorTape
