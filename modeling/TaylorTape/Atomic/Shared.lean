import Mathlib.Data.List.Basic
import TaylorTape.Atomic.Registry

/-!
The table of atomics as several callers share it.

Beside its entries the table has the id of each name.  It stands under a lock, and a call reads it or
adds to it only while it holds the lock.  To find a name or else enter it a call takes the lock twice:
first it only looks; where the name is missing it comes again, looks once more, and enters the name if
it is still missing.  Between these two turns any other call may have turns of its own, so what
several callers do is told by the list of those whose turn it is.
-/

set_option autoImplicit false
set_option relaxedAutoImplicit false

namespace TaylorTape

/-- The registered atomics in the order in which they came, and the id of each name. -/
structure NameTable (B : Type) where
  entries : Array (Registered B)
  byName : Std.HashMap String Nat

namespace NameTable

variable {B F : Type}

/-- The table that holds nothing. -/
def empty : NameTable B where
  entries := #[]
  byName := ∅

/-- The entries alone. -/
def registry (t : NameTable B) : Registry B where
  entries := t.entries

/-- The id of a name. -/
def lookup (t : NameTable B) (name : String) : Option Nat :=
  t.byName[name]?

/-- A new entry at the end, and its id, which has 32 bits. -/
def insert (t : NameTable B) (name : String) (op : Atomic B) : Nat × NameTable B :=
  let id := t.entries.size.toUInt32.toNat
  (id, ⟨t.entries.push ⟨id, name, op⟩, t.byName.insert name id⟩)

/-- An atomic entered under a name of its own; a name that is taken is refused. -/
def register (t : NameTable B) (name : String) (op : Atomic B) :
    Except Error (Nat × NameTable B) :=
  if t.byName.contains name then
    .error (.state (.nameTaken name))
  else
    .ok (t.insert name op)

/-- The id under a name, where an atomic is entered if there is none yet. -/
def findOrInsert (t : NameTable B) (name : String) (op : Atomic B) : Nat × NameTable B :=
  match t.lookup name with
  | some id => (id, t)
  | none => t.insert name op

/-- The built-ins of fixed arity under their names, in the order of their ids. -/
def fixed [Scalar F] [Base B F] : List (String × Atomic B) :=
  [("sum", Atomic.sum), ("concat", Atomic.concat), ("reverse", Atomic.flip), ("pack", Atomic.pack)]

/-- The table after a registration of which nobody reads the outcome. -/
def enter (t : NameTable B) (b : String × Atomic B) : NameTable B :=
  match t.register b.1 b.2 with
  | .ok (_, next) => next
  | .error _ => t

/-- The table of the built-ins of fixed arity. -/
def withBuiltins [Scalar F] [Base B F] : NameTable B :=
  fixed.foldl enter empty

/-- What a caller asks of a table. -/
inductive Call (B : Type) where
  | lookup (name : String)
  | register (name : String) (op : Atomic B)
  | findOrRegister (name : String) (op : Atomic B)

/-- The name that a call is about. -/
def Call.name : Call B → String
  | .lookup name | .register name _ | .findOrRegister name _ => name

/-- The call for the array of `n` copies. -/
def Call.make [Scalar F] [Base B F] (n : Nat) : Call B :=
  .findOrRegister (Registry.makeName n) (Atomic.make n)

/-- The call for the `n` elements taken apart. -/
def Call.unpack [Scalar F] [Base B F] (n : Nat) : Call B :=
  .findOrRegister (Registry.unpackName n) (Atomic.unpack n)

/-- How far a call has come: it is about to take the lock, it has looked and missed its name, or it
has its answer. -/
inductive Stage where
  | ready
  | missed
  | answered (outcome : Except Error (Option Nat))

/-- One turn of a call, from taking the lock to giving it back. -/
def turn (t : NameTable B) : Call B → Stage → NameTable B × Stage
  | .lookup name, .ready => (t, .answered (.ok (t.lookup name)))
  | .register name op, .ready =>
    match t.register name op with
    | .ok (id, next) => (next, .answered (.ok (some id)))
    | .error err => (t, .answered (.error err))
  | .findOrRegister name _, .ready =>
    match t.lookup name with
    | some id => (t, .answered (.ok (some id)))
    | none => (t, .missed)
  | .findOrRegister name op, .missed =>
    let (id, next) := t.findOrInsert name op
    (next, .answered (.ok (some id)))
  | _, stage => (t, stage)

end NameTable

/-- A table and the calls on it, each as far as it has come. -/
structure SharedRegistry (B : Type) where
  table : NameTable B
  calls : List (NameTable.Call B × NameTable.Stage)

namespace SharedRegistry

open NameTable

variable {B F : Type}

/-- The built-ins of fixed arity, and calls that have yet to begin. -/
def start [Scalar F] [Base B F] (calls : List (Call B)) : SharedRegistry B where
  table := withBuiltins
  calls := calls.map (·, .ready)

/-- The turn of one of the calls. -/
def step (s : SharedRegistry B) (i : Nat) : SharedRegistry B :=
  match s.calls[i]? with
  | none => s
  | some (call, stage) =>
    let (table, stage) := s.table.turn call stage
    ⟨table, s.calls.set i (call, stage)⟩

/-- Turns of the calls, one after another. -/
def run (s : SharedRegistry B) (schedule : List Nat) : SharedRegistry B :=
  schedule.foldl step s

end SharedRegistry

end TaylorTape
