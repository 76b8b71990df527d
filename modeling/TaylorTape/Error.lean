/-!
What can go wrong while a tape is recorded or evaluated.

An error names its cause and carries the numbers of the case; the wording of every cause stands in
the two functions `Misuse.message` and `Error.message` and nowhere else.
-/

set_option autoImplicit false
set_option relaxedAutoImplicit false

namespace TaylorTape

/-- The ways in which a recording or an evaluation is driven out of turn. -/
inductive Misuse where
  /-- A recording was to begin while `tape` is being recorded. -/
  | alreadyRecording (tape : Nat)
  /-- The recording of `tape` was to end, but `tape` is not being recorded. -/
  | notRecording (tape : Nat)
  /-- Output `output` of the recording `expected` is a variable of another tape. -/
  | foreignOutput (output tape expected : Nat)
  /-- A forward sweep was asked along no direction. -/
  | noDirection
  /-- An evaluation point was given along `directions` directions. -/
  | pointDirections (directions : Nat)
  /-- A forward sweep of an order whose lower orders are not all there. -/
  | ordersMissing (order available : Nat)
  /-- A forward sweep along another number of directions than the orders below it. -/
  | directionsDiffer (order directions present : Nat)
  /-- A reverse sweep was asked through no order. -/
  | noOrder
  /-- A reverse sweep through more orders than there are. -/
  | reverseOrdersMissing (orders available : Nat)
  /-- A reverse sweep of higher order needs one direction. -/
  | reverseDirections (orders present : Nat)
  /-- An atomic of this name is registered already. -/
  | nameTaken (name : String)
  /-- No atomic is registered at this position. -/
  | unknownAtomic (id : Nat)
  /-- The atomic gives no result for the arguments of the call. -/
  | noResults (name : String)
  /-- A cause that only its author knows, such as a user's atomic. -/
  | other (text : String)
  deriving DecidableEq

/-- The text of each misuse. -/
def Misuse.message : Misuse → String
  | .alreadyRecording tape =>
    s!"cannot begin recording: tape {tape} is already being recorded on this thread"
  | .notRecording tape => s!"tape {tape} is no longer being recorded"
  | .foreignOutput output tape expected =>
    s!"output {output} is a variable of tape {tape}, not of tape {expected}"
  | .noDirection => "forward needs at least one direction"
  | .pointDirections directions => s!"forward(0) takes a single direction, got {directions}"
  | .ordersMissing order available =>
    s!"forward({order}) needs orders 0..{order} cached, only {available} available"
  | .directionsDiffer order directions present =>
    s!"forward({order}) with {directions} directions, " ++
      s!"but orders below were computed with {present}"
  | .noOrder => "reverse needs at least one order"
  | .reverseOrdersMissing orders available =>
    s!"reverse({orders}) needs {orders} cached orders, only {available} available; " ++
      "call forward first"
  | .reverseDirections orders present =>
    s!"reverse({orders}) needs a single cached direction, found {present}"
  | .nameTaken name => s!"atomic `{name}` is already registered"
  | .unknownAtomic id => s!"unknown atomic id {id}"
  | .noResults name => s!"atomic `{name}` produces no results"
  | .other text => text

/-- The errors of recording and evaluation. -/
inductive Error where
  /-- Shapes or counts do not agree. -/
  | shapeMismatch (context : String) (expected actual : Nat)
  /-- A position past the end of a sequence of the given length. -/
  | indexOutOfRange (index length : Nat)
  /-- A recording or an evaluation driven out of turn. -/
  | state (cause : Misuse)
  /-- The atomic does not implement this order. -/
  | unsupportedOrder (atomic : String) (order : Nat)
  /-- The elementary operation at this tape position failed during a sweep. -/
  | op (index : Nat) (name : String) (source : Error)
  /-- The atomic called at this tape position failed during a sweep. -/
  | atomic (index : Nat) (name : String) (source : Error)
  deriving DecidableEq

/-- The text of each error; the two errors of a sweep end with the text of their source. -/
def Error.message : Error → String
  | .shapeMismatch context expected actual =>
    s!"shape mismatch in {context}: expected {expected}, got {actual}"
  | .indexOutOfRange index length => s!"index {index} is out of range for length {length}"
  | .state cause => s!"invalid state: {cause.message}"
  | .unsupportedOrder name order => s!"atomic `{name}` does not support order {order}"
  | .op index name source => s!"`{name}` failed at operation {index}: {source.message}"
  | .atomic index name source =>
    s!"atomic `{name}` failed at operation {index}: {source.message}"

end TaylorTape
