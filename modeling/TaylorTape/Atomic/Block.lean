import TaylorTape.Series.Basic

/-!
Coefficients of several series in one row.

An atomic works on blocks: the coefficients of all arguments in one row, and those of all results in
another.  A block of the orders `0, ..., q` has the series one after another and `q + 1` places for
each of them, so that a coefficient stands at another place whenever the block is of other orders.
-/

set_option autoImplicit false
set_option relaxedAutoImplicit false

namespace TaylorTape.Block

variable {B : Type}

/-- The place of order `k` of the series at a position, in a block of the orders `0, ..., q`. -/
def place (j k q : Nat) : Nat :=
  j * (q + 1) + k

/-- The block of some series. -/
def join (ss : List (Series B)) : Array B :=
  (ss.flatMap Array.toList).toArray

/-- The series at a position of a block. -/
def series (q : Nat) (block : Array B) (j : Nat) : Except Error (Series B) := do
  return (← (List.range (q + 1)).mapM fun k => fetch block (place j k q)).toArray

/-- Order `k` of the first series of a block, as many as is said. -/
def row (n q : Nat) (block : Array B) (k : Nat) : Except Error (List B) :=
  (List.range n).mapM fun j => fetch block (place j k q)

/-- A block in which order `k` of the first series is replaced by some values, one for each. -/
def put (q k : Nat) (block : Array B) (xs : List B) : Except Error (Array B) :=
  xs.zipIdx.foldlM (fun block (x, j) => store block (place j k q) x) block

/-- A block whose orders `p, ..., q` are replaced one after another by what a rule gives. -/
def fill (p q : Nat) (block : Array B) (rule : Nat → Except Error (List B)) :
    Except Error (Array B) :=
  (List.range' p (q + 1 - p)).foldlM (fun block k => do put q k block (← rule k)) block

end TaylorTape.Block
