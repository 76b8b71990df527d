import TaylorTape.Atomic.Arrays
import TaylorTape.Atomic.Packing

/-!
The table of atomics that can be called.

Entries are only ever added, at the end, and each keeps its position as its id; so an id once given
out means the same atomic for ever.  The built-ins of fixed arity hold the first four ids, and those
of a given length are entered under a name made of their kind and length when first asked for.
-/

set_option autoImplicit false
set_option relaxedAutoImplicit false

namespace TaylorTape

/-- An atomic under its name and id. -/
structure Registered (B : Type) where
  id : Nat
  name : String
  op : Atomic B

/-- The registered atomics, each at the position that is its id. -/
structure Registry (B : Type) where
  entries : Array (Registered B)

namespace Registry

variable {B F : Type}

/-- The number of registered atomics. -/
def size (r : Registry B) : Nat :=
  r.entries.size

/-- Whether no atomic is registered. -/
def isEmpty (r : Registry B) : Bool :=
  r.entries.isEmpty

/-- The id of the atomic of a name. -/
def lookup (r : Registry B) (name : String) : Option Nat :=
  (r.entries.find? (·.name == name)).map (·.id)

/-- The atomic of an id. -/
def entry (r : Registry B) (id : Nat) : Except Error (Registered B) :=
  match r.entries[id]? with
  | some e => .ok e
  | none => .error (.state (.unknownAtomic id))

/-- The name of an id. -/
def name? (r : Registry B) (id : Nat) : Option String :=
  r.entries[id]?.map (·.name)

/-- A new entry at the end, and its id. -/
def append (r : Registry B) (name : String) (op : Atomic B) : Nat × Registry B :=
  (r.size, ⟨r.entries.push ⟨r.size, name, op⟩⟩)

/-- An atomic entered under a name of its own; a name that is taken is refused. -/
def register (r : Registry B) (name : String) (op : Atomic B) :
    Except Error (Nat × Registry B) :=
  match r.lookup name with
  | some _ => .error (.state (.nameTaken name))
  | none => .ok (r.append name op)

/-- The id under a name, where an atomic is entered if there is none yet. -/
def findOrRegister (r : Registry B) (name : String) (op : Atomic B) : Nat × Registry B :=
  match r.lookup name with
  | some id => (id, r)
  | none => r.append name op

/-- The id of the sum. -/
def sumId : Nat := 0

/-- The id of the concatenation. -/
def concatId : Nat := 1

/-- The id of the reversal. -/
def flipId : Nat := 2

/-- The id of the packing. -/
def packId : Nat := 3

/-- The name of the array of `n` copies. -/
def makeName (n : Nat) : String :=
  s!"make[{n}]"

/-- The name of the `n` elements taken apart. -/
def unpackName (n : Nat) : String :=
  s!"unpack[{n}]"

variable [Scalar F] [Base B F]

/-- The id of the array of `n` copies, entered when first asked for. -/
def makeId (r : Registry B) (n : Nat) : Nat × Registry B :=
  r.findOrRegister (makeName n) (Atomic.make n)

/-- The id of the `n` elements taken apart, entered when first asked for. -/
def unpackId (r : Registry B) (n : Nat) : Nat × Registry B :=
  r.findOrRegister (unpackName n) (Atomic.unpack n)

/-- The registry of the built-ins of fixed arity. -/
def builtins : Registry B where
  entries := #[⟨sumId, "sum", Atomic.sum⟩, ⟨concatId, "concat", Atomic.concat⟩,
    ⟨flipId, "reverse", Atomic.flip⟩, ⟨packId, "pack", Atomic.pack⟩]

end Registry

end TaylorTape
