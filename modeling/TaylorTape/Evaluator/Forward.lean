import TaylorTape.Evaluator.Basic
import TaylorTape.Series.Forward

/-!
Forward sweeps: one more order of every variable.

A sweep walks the tape once for each direction and computes one order of every entry from the lower
orders.  Order zero sets the point of evaluation; it makes every higher order invalid.  A sweep that
fails leaves the orders below its own as they were.
-/

set_option autoImplicit false
set_option relaxedAutoImplicit false

namespace TaylorTape

/-- Computations on a table of coefficients; what was written before an error stays written. -/
abbrev Sweep (B : Type) : Type → Type :=
  ExceptT Error (StateM (Coefficients B))

variable {B F : Type} [Scalar F] [Base B F]

namespace Sweep

/-- One coefficient written down. -/
def put (v k d : Nat) (x : B) : Sweep B Unit := do
  set (← (← get).put v k d x)

end Sweep

namespace Tape

/-- The result of asking an atomic for an order, where a refusal becomes an error. -/
def answered {α : Type} (e : Registered B) (i order : Nat) (answer : Except Error (Option α)) :
    Except Error α :=
  match answer with
  | .ok (some a) => .ok a
  | .ok none => .error (.unsupportedOrder e.name order)
  | .error source => .error (.atomic i e.name source)

/-- The arguments of a call with their first orders; only parameters are no variables. -/
def arguments (tape : Tape B) (c : Coefficients B) (args : List Nat) (orders d : Nat) :
    Except Error (List (Wire B)) :=
  args.mapM fun a => do
    return ⟨← c.series a orders d, (← tape.entry a) != .const⟩

/-- The results of the call at a position with their first orders, the last of which is to come. -/
def results (c : Coefficients B) (i numResults orders d : Nat) : Except Error (List (Wire B)) :=
  (List.range' i numResults).mapM fun j => do
    return ⟨← c.series j orders d, true⟩

/-- Order `q`, along direction `d`, of the variables that the entry at a position produces: one for
most entries, all of its results for a call, and none for a result, which its call has produced. -/
def produced (tape : Tape B) (c : Coefficients B) (q d : Nat) (seed : List B) (i : Nat) :
    Except Error (List B) := do
  match ← tape.entry i with
  | .input => return [← pick seed i]
  | .const => return [← if q = 0 then tape.value i else .ok Base.zero]
  | .unary op a =>
    let sa ← c.series a (q + 1) d
    let z ← c.series i q d
    return [← (op.next sa z).mapError (Error.op i op.name)]
  | .binary op a b =>
    let sa ← c.series a (q + 1) d
    let sb ← c.series b (q + 1) d
    let z ← c.series i q d
    return [← (op.next sa sb z).mapError (Error.op i op.name)]
  | .call place args numResults =>
    let e ← fetch tape.atomics place
    let wires ← tape.arguments c args (q + 1) d
    let known ← results c i numResults (q + 1) d
    let computed ← answered e i q (e.op.forward q q wires known)
    (List.range numResults).mapM fun r => do (← pick computed r).series.coeff q
  | .result _ => return []

/-- Order `q` of the entry at a position, along direction `d`, written down. -/
def advance (tape : Tape B) (q d : Nat) (seed : List B) (i : Nat) : Sweep B Unit := do
  let xs ← tape.produced (← get) q d seed i
  xs.zipIdx.forM fun (x, r) => Sweep.put (i + r) q d x

/-- Order `q` of every entry along direction `d`, in the order of the tape. -/
def sweep (tape : Tape B) (q d : Nat) (seed : List B) : Sweep B Unit :=
  (List.range tape.size).forM (tape.advance q d seed)

end Tape

namespace Evaluator

/-- Whether a forward sweep of an order along some seeds may begin. -/
def checkForward (e : Evaluator B) (q r : Nat) (seeds : List (List B)) : Except Error Unit := do
  if r = 0 then
    throw (.state .noDirection)
  if seeds.length ≠ r then
    throw (.shapeMismatch "forward directions" r seeds.length)
  if let some seed := seeds.find? (·.length != e.numInputs) then
    throw (.shapeMismatch "forward seed" e.numInputs seed.length)
  if q = 0 ∧ r ≠ 1 then
    throw (.state (.pointDirections r))
  if q > e.numOrders then
    throw (.state (.ordersMissing q e.numOrders))
  if q > 1 ∧ r ≠ e.numDirections then
    throw (.state (.directionsDiffer q r e.numDirections))

/-- A computation on the table of an evaluator. -/
def onTable {α : Type} (work : Sweep B α) : Evaluation B α :=
  fun e =>
    let (outcome, table) := work e.table
    (outcome, { e with table })

/-- The number of valid orders, changed. -/
def setOrders (n : Nat) : Sweep B Unit :=
  modify fun c => { c with numOrders := n }

/-- Order `q` of the outputs along the first `r` directions. -/
def outputCoefficients (e : Evaluator B) (q r : Nat) : Except Error (List (List B)) :=
  (List.range r).mapM fun d => e.outputs.mapM fun y => e.table.coeff y q d

/-- Order `q` of every variable along `r` directions, given order `q` of the inputs along each.
The result is order `q` of the outputs along each direction. -/
def forward (q r : Nat) (seeds : List (List B)) : Evaluation B (List (List B)) := do
  let e ← get
  e.checkForward q r seeds
  onTable do
    set (← (← get).reserve (q + 1) (if q = 0 then e.numDirections else r))
    setOrders q
    seeds.zipIdx.forM fun (seed, d) => e.tape.sweep q d seed
    setOrders (q + 1)
  (← get).outputCoefficients q r

/-- The values of the outputs at a point, which becomes the point of evaluation. -/
def forwardZero (x : List B) : Evaluation B (List B) := do
  pick (← forward 0 1 [x]) 0

/-- The derivatives of the outputs along one direction. -/
def forwardOne (dx : List B) : Evaluation B (List B) := do
  pick (← forward 1 1 [dx]) 0

end Evaluator

end TaylorTape
