import TaylorTape.Tape.Basic

/-!
Removing the entries that no output depends on.

An entry is live if it is an input, an output, or reached from a live entry.  A call and its results
reach each other, so they stay or go together; the call reaches its arguments.  Since entries read
smaller indices only, one walk from the last entry to the first finds all of them.
-/

set_option autoImplicit false
set_option relaxedAutoImplicit false

namespace TaylorTape

/-- The positions that an entry keeps alive when it stands at a position itself. -/
def Entry.reaches (position : Nat) : Entry → List Nat
  | .input | .const => []
  | .unary _ a => [a]
  | .binary _ a b => [a, b]
  | .call _ args numResults => List.range' (position + 1) (numResults - 1) ++ args
  | .result owner => [owner]

/-- An entry whose operands are renamed. -/
def Entry.rename (f : Nat → Except Error Nat) : Entry → Except Error Entry
  | .input => .ok .input
  | .const => .ok .const
  | .unary op a => do return .unary op (← f a)
  | .binary op a b => do return .binary op (← f a) (← f b)
  | .call atomic args numResults => do return .call atomic (← args.mapM f) numResults
  | .result owner => do return .result (← f owner)

namespace Tape

variable {B : Type}

/-- Some positions marked. -/
def mark (live : Array Bool) (positions : List Nat) : Except Error (Array Bool) :=
  positions.foldlM (fun live i => store live i true) live

/-- The live entries, given the positions of the outputs. -/
def live (tape : Tape B) (outputs : List Nat) : Except Error (Array Bool) := do
  let start ← mark (Array.replicate tape.size false) (List.range tape.numInputs ++ outputs)
  (List.range tape.size).reverse.foldlM
    (fun live i => do
      if ← fetch live i then
        mark live ((← tape.entry i).reaches i)
      else
        return live)
    start

/-- For each position, the number of marked positions before it. -/
def ranks (marks : Array Bool) : Array Nat :=
  (marks.foldl (fun (ranks, n) b => (ranks.push n, if b then n + 1 else n))
    ((#[] : Array Nat), 0)).1

/-- The marked entries in their order, with their operands renamed to their new positions. -/
def compact (tape : Tape B) (marks : Array Bool) : Except Error (Tape B) := do
  let places := ranks marks
  let nodes ← (List.range tape.size).foldlM
    (fun (nodes : Array (Node B)) i => do
      if ← fetch marks i then
        let node ← fetch tape.nodes i
        return nodes.push ⟨← node.entry.rename (fetch places), node.value⟩
      else
        return nodes)
    #[]
  return { tape with nodes }

/-- A tape without its dead entries. -/
structure Pruned (B : Type) where
  /-- The entries that stay. -/
  tape : Tape B
  /-- The new positions of the outputs. -/
  outputs : List Nat
  /-- The number of entries taken out. -/
  removed : Nat

/-- The tape without its dead entries, given the positions of the outputs. -/
def prune (tape : Tape B) (outputs : List Nat) : Except Error (Pruned B) := do
  let marks ← tape.live outputs
  let kept ← tape.compact marks
  return ⟨kept, ← outputs.mapM (fetch (ranks marks)), tape.size - kept.size⟩

/-- The positions of the outputs of a recording.  A parameter becomes an entry of its own, and a
variable of another tape is refused. -/
def outputs (tape : Tape B) (ys : List (Tracked B)) : Except Error (Tape B × List Nat) :=
  ys.zipIdx.foldlM
    (fun (tape, indices) (y, i) =>
      match y.place with
      | .inline =>
        let (index, tape) := tape.push .const y.value
        .ok (tape, indices ++ [index])
      | .onTape t index =>
        if t = tape.id then .ok (tape, indices ++ [index])
        else .error (.state (.foreignOutput i t tape.id)))
    (tape, [])

end Tape

end TaylorTape
