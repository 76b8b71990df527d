import TaylorTape.Atomic.Registry

/-!
Tapes: what a recording writes down.

Every entry of a tape produces one variable, whose index is the position of the entry.  The inputs
come first; every other entry reads variables of smaller index.  A call with several results takes
as many entries in a row: the call itself, which is the first result, and one entry for each further
result.  Beside its entry a position keeps the value that it had at the recording point.
-/

set_option autoImplicit false
set_option relaxedAutoImplicit false

namespace TaylorTape

/-- One entry of a tape. -/
inductive Entry where
  /-- An independent variable. -/
  | input
  /-- A parameter; its value is the one kept beside the entry. -/
  | const
  /-- An operation of one argument. -/
  | unary (op : UnaryOp) (arg : Nat)
  /-- An operation of two arguments. -/
  | binary (op : BinaryOp) (lhs rhs : Nat)
  /-- A call of an atomic, given by its place in the table of the tape. -/
  | call (atomic : Nat) (args : List Nat) (numResults : Nat)
  /-- A further result of the call at a position. -/
  | result (owner : Nat)
  deriving DecidableEq

/-- The variables that an entry reads. -/
def Entry.operands : Entry → List Nat
  | .input | .const | .result _ => []
  | .unary _ a => [a]
  | .binary _ a b => [a, b]
  | .call _ args _ => args

/-- An entry and the value that it had at the recording point. -/
structure Node (B : Type) where
  entry : Entry
  value : B

/-- The entries of one recording. -/
structure Tape (B : Type) where
  /-- The number that tells this recording from all others. -/
  id : Nat
  /-- The entries with their values. -/
  nodes : Array (Node B)
  /-- The number of inputs, which are the first entries. -/
  numInputs : Nat
  /-- The atomics that the calls refer to. -/
  atomics : Array (Registered B)

namespace Tape

variable {B : Type}

/-- The number of entries. -/
def size (tape : Tape B) : Nat :=
  tape.nodes.size

/-- The entry at a position. -/
def entry (tape : Tape B) (i : Nat) : Except Error Entry := do
  return (← fetch tape.nodes i).entry

/-- The value kept at a position. -/
def value (tape : Tape B) (i : Nat) : Except Error B := do
  return (← fetch tape.nodes i).value

/-- A tape of inputs only. -/
def ofInputs (id : Nat) (values : List B) : Tape B where
  id
  nodes := (values.map fun v => ⟨.input, v⟩).toArray
  numInputs := values.length
  atomics := #[]

/-- One more entry at the end, and its index. -/
def push (tape : Tape B) (entry : Entry) (value : B) : Nat × Tape B :=
  (tape.size, { tape with nodes := tape.nodes.push ⟨entry, value⟩ })

/-- The place of an atomic in the table of the tape, entered if it is not there. -/
def intern (tape : Tape B) (e : Registered B) : Nat × Tape B :=
  match tape.atomics.findIdx? (·.id == e.id) with
  | some place => (place, tape)
  | none => (tape.atomics.size, { tape with atomics := tape.atomics.push e })

/-- A call with the values of its results, and the index of its first result. -/
def pushCall (tape : Tape B) (e : Registered B) (args : List Nat) (results : List B) :
    Nat × Tape B :=
  let (place, tape) := tape.intern e
  match results with
  | [] => (tape.size, tape)
  | first :: rest =>
    let (index, tape) := tape.push (.call place args results.length) first
    (index, rest.foldl (fun tape v => (tape.push (.result index) v).2) tape)

end Tape

/-- Where a value lives: nowhere, or as a variable of a tape. -/
inductive Place where
  | inline
  | onTape (tape index : Nat)
  deriving DecidableEq

/-- A value together with the place where it was recorded. -/
structure Tracked (B : Type) where
  value : B
  place : Place

namespace Tracked

variable {B : Type}

/-- A plain value, which is on no tape. -/
def parameter (value : B) : Tracked B :=
  ⟨value, .inline⟩

/-- The index of a value on a tape, if it is a variable of that tape. -/
def indexOn (x : Tracked B) (tape : Nat) : Option Nat :=
  match x.place with
  | .onTape t index => if t = tape then some index else none
  | .inline => none

end Tracked

namespace Tape

variable {B : Type}

/-- The index of a value on the tape; one that is no variable of the tape is entered as a
parameter. -/
def embed (tape : Tape B) (x : Tracked B) : Nat × Tape B :=
  match x.indexOn tape.id with
  | some index => (index, tape)
  | none => tape.push .const x.value

/-- The indices of some values on the tape, entered one after another. -/
def embedAll (tape : Tape B) (xs : List (Tracked B)) : List Nat × Tape B :=
  xs.foldl
    (fun (indices, tape) x =>
      let (index, tape) := tape.embed x
      (indices ++ [index], tape))
    ([], tape)

end Tape

end TaylorTape
