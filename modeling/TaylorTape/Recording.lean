import TaylorTape.Tape.Live

/-!
Arithmetic that is evaluated at once and written down as it goes.

A recorder holds the tape that is being recorded, if one is, and the atomics that can be called.
Every operation computes its value from plain values; where an operand is a variable of the tape, the
operation is also written down, and its result is a new variable.  A value of an ended recording
counts as a parameter.  An operation that fails writes nothing.
-/

set_option autoImplicit false
set_option relaxedAutoImplicit false

namespace TaylorTape

/-- The tape being recorded, and the atomics that can be called. -/
structure Recorder (B : Type) where
  tape : Option (Tape B)
  registry : Registry B

/-- Computations that may record; what was recorded before an error stays recorded. -/
abbrev Recording (B : Type) : Type → Type :=
  ExceptT Error (StateM (Recorder B))

namespace Recorder

variable {B F : Type} [Scalar F] [Base B F]

/-- The recorder that records nothing and knows the built-in atomics. -/
def idle : Recorder B :=
  ⟨none, Registry.builtins⟩

/-- The index that a value has as a variable of the tape being recorded. -/
def indexOf? (r : Recorder B) (x : Tracked B) : Option Nat :=
  r.tape.bind fun tape => x.indexOn tape.id

end Recorder

namespace Tracked

variable {B F : Type} [Scalar F] [Base B F]

/-- An operation of one argument. -/
def unary (op : UnaryOp) (x : Tracked B) : Recording B (Tracked B) := do
  let r ← get
  let value := op.eval x.value
  match r.tape, r.indexOf? x with
  | some tape, some arg =>
    let (index, next) := tape.push (.unary op arg) value
    set { r with tape := some next }
    return ⟨value, .onTape tape.id index⟩
  | _, _ => return parameter value

/-- An operation of two arguments. -/
def binary (op : BinaryOp) (x y : Tracked B) : Recording B (Tracked B) := do
  let r ← get
  let value ← op.eval x.value y.value
  match r.tape with
  | none => return parameter value
  | some tape =>
    if (x.indexOn tape.id).isNone && (y.indexOn tape.id).isNone then
      return parameter value
    else
      let (a, next) := tape.embed x
      let (b, next) := next.embed y
      let (index, next) := next.push (.binary op a b) value
      set { r with tape := some next }
      return ⟨value, .onTape tape.id index⟩

/-- Whether a comparison holds of the values; nothing is recorded. -/
def compare (c : Comparison) (x y : Tracked B) : Except Error Bool :=
  Base.compare c x.value y.value

/-- The operand that is at least the other one in every element, or else the second.  The choice is
made on the values at hand and is not recorded: a replay keeps to the chosen operand. -/
def max (x y : Tracked B) : Except Error (Tracked B) := do
  return if ← x.compare .ge y then x else y

/-- The operand that is at most the other one in every element, or else the second. -/
def min (x y : Tracked B) : Except Error (Tracked B) := do
  return if ← x.compare .le y then x else y

/-- A value limited to the range between two others, chosen as by `max` and `min`. -/
def clip (x lo hi : Tracked B) : Except Error (Tracked B) := do
  (← x.max lo).min hi

/-- The order-zero coefficients of some results. -/
def constantTerms (results : List (Wire B)) : Except Error (List B) :=
  results.mapM fun y => y.series.coeff 0

/-- The results of an atomic on some arguments.  The call is recorded when an argument is a variable
and the atomic leaves some result one. -/
def call (id : Nat) (args : List (Tracked B)) : Recording B (List (Tracked B)) := do
  let r ← get
  let e ← r.registry.entry id
  let count := e.op.numResults args.length
  if count = 0 then
    throw (.state (.noResults e.name))
  let wires := args.map fun x => Wire.mk #[x.value] (r.indexOf? x).isSome
  let anyVariable := wires.any Wire.isVariable
  match ← e.op.forward 0 0 wires (List.replicate count ⟨#[Base.zero], anyVariable⟩) with
  | none => throw (.unsupportedOrder e.name 0)
  | some results =>
    let values ← constantTerms results
    match r.tape with
    | some tape =>
      if anyVariable && results.any Wire.isVariable then
        let (indices, next) := tape.embedAll args
        let (first, next) := next.pushCall e indices values
        set { r with tape := some next }
        return (results.zip values).zipIdx.map fun ((y, v), i) =>
          if y.isVariable then ⟨v, .onTape tape.id (first + i)⟩ else parameter v
      else
        return values.map parameter
    | none => return values.map parameter

/-- The only result of a call; a call of another number of results is refused. -/
def only (results : List (Tracked B)) : Except Error (Tracked B) :=
  match results with
  | [y] => .ok y
  | _ => .error (.shapeMismatch "atomic results" 1 results.length)

/-- The sum of the elements. -/
def sum (x : Tracked B) : Recording B (Tracked B) := do
  only (← call Registry.sumId [x])

/-- The elements of one value followed by those of another. -/
def concat (x y : Tracked B) : Recording B (Tracked B) := do
  only (← call Registry.concatId [x, y])

/-- The elements in the opposite order. -/
def flip (x : Tracked B) : Recording B (Tracked B) := do
  only (← call Registry.flipId [x])

/-- The array of some scalars. -/
def pack (xs : List (Tracked B)) : Recording B (Tracked B) := do
  only (← call Registry.packId xs)

/-- The id of an atomic that is entered into the registry when first asked for. -/
def enter (request : Registry B → Nat × Registry B) : Recording B Nat := do
  let r ← get
  let (id, registry) := request r.registry
  set { r with registry }
  return id

/-- The array of `n` copies of a scalar. -/
def make (x : Tracked B) (n : Nat) : Recording B (Tracked B) := do
  only (← call (← enter (Registry.makeId · n)) [x])

/-- The `n` elements as separate scalars. -/
def unpack (x : Tracked B) (n : Nat) : Recording B (List (Tracked B)) := do
  call (← enter (Registry.unpackId · n)) [x]

end Tracked

end TaylorTape
