import TaylorTape.Evaluator.Basic

/-!
Which outputs may depend on which inputs.

One walk carries to each variable the inputs that it depends on; the other carries back from each
output the outputs that a variable feeds.  Parameters depend on no input.
-/

set_option autoImplicit false
set_option relaxedAutoImplicit false

namespace TaylorTape

/-- The places of a Jacobian that may differ from zero, by row and then by column. -/
structure Pattern where
  numOutputs : Nat
  numInputs : Nat
  /-- Pairs of an output and an input. -/
  entries : List (Nat × Nat)
  deriving DecidableEq

namespace Pattern

/-- The output of each entry. -/
def rows (p : Pattern) : List Nat :=
  p.entries.map Prod.fst

/-- The input of each entry. -/
def cols (p : Pattern) : List Nat :=
  p.entries.map Prod.snd

/-- The number of entries. -/
def count (p : Pattern) : Nat :=
  p.entries.length

/-- Whether there is no entry. -/
def isEmpty (p : Pattern) : Bool :=
  p.entries.isEmpty

/-- Whether an output may depend on an input. -/
def contains (p : Pattern) (i j : Nat) : Bool :=
  p.entries.contains (i, j)

end Pattern

/-- Sets put at a position and those after it. -/
def storeFrom (sets : Array IndexSet) (i : Nat) (new : List IndexSet) :
    Except Error (Array IndexSet) :=
  new.zipIdx.foldlM (fun sets (s, r) => store sets (i + r) s) sets

/-- A set joined to that at a position. -/
def joinAt (sets : Array IndexSet) (i : Nat) (s : IndexSet) : Except Error (Array IndexSet) := do
  store sets i ((← fetch sets i).union s)

namespace Tape

variable {B : Type}

/-- The inputs that each variable depends on, once the entry at a position is known too. -/
def gather (tape : Tape B) (sets : Array IndexSet) (i : Nat) : Except Error (Array IndexSet) := do
  match ← tape.entry i with
  | .input => store sets i (.singleton i)
  | .const | .result _ => return sets
  | .unary _ a => store sets i (← fetch sets a)
  | .binary _ a b => store sets i ((← fetch sets a).union (← fetch sets b))
  | .call place args numResults =>
    let e ← fetch tape.atomics place
    let given ← args.mapM (fetch sets)
    storeFrom sets i ((e.op.forwardSparsity given numResults).take numResults)

/-- The outputs that each variable feeds, once the entry at a position has passed its own on. -/
def spread (tape : Tape B) (sets : Array IndexSet) (i : Nat) : Except Error (Array IndexSet) := do
  match ← tape.entry i with
  | .input | .const | .result _ => return sets
  | .unary _ a => joinAt sets a (← fetch sets i)
  | .binary _ a b =>
    let s ← fetch sets i
    joinAt (← joinAt sets a s) b s
  | .call place args numResults =>
    let given ← (List.range' i numResults).mapM (fetch sets)
    if given.all IndexSet.isEmpty then
      return sets
    else
      let e ← fetch tape.atomics place
      let passed := e.op.reverseSparsity given args.length
      (args.zip passed).foldlM (fun sets (a, s) => joinAt sets a s) sets

end Tape

namespace Evaluator

variable {B : Type}

/-- The pattern found by carrying sets of inputs forward. -/
def forwardSparsity (e : Evaluator B) : Except Error Pattern := do
  let sets ← (List.range e.size).foldlM e.tape.gather (Array.replicate e.size .empty)
  let rows ← e.outputs.mapM (fetch sets)
  return {
    numOutputs := e.numOutputs
    numInputs := e.numInputs
    entries := rows.zipIdx.flatMap fun (s, row) => s.toList.map fun col => (row, col) }

/-- The pattern found by carrying sets of outputs backward. -/
def reverseSparsity (e : Evaluator B) : Except Error Pattern := do
  let start ← e.outputs.zipIdx.foldlM (fun sets (y, row) => joinAt sets y (.singleton row))
    (Array.replicate e.size .empty)
  let sets ← (List.range e.size).reverse.foldlM e.tape.spread start
  let columns ← (List.range e.numInputs).mapM (fetch sets)
  let rows := IndexSet.unions columns
  return {
    numOutputs := e.numOutputs
    numInputs := e.numInputs
    entries := rows.toList.flatMap fun row =>
      (columns.zipIdx.filter fun (s, _) => s.contains row).map fun (_, col) => (row, col) }

end Evaluator

end TaylorTape
