import TaylorTape.Proofs.Calls
import TaylorTape.Recording
import Std.Data.String.ToNat

/-!
Straight-line programs.

A program is a list of steps, each of which names its operands by their places among the values so
far and adds its results behind them.  It can be recorded, with tracked values, and it can be
evaluated on plain values.  Recording also says which operand each choice fell on, and the resolved
program takes that operand instead of choosing.
-/

set_option autoImplicit false
set_option relaxedAutoImplicit false

namespace TaylorTape

variable {B F : Type} [Scalar F] [Base B F]

namespace BuiltIn

/-- The id of a built-in; one of a given length is entered into the registry when needed. -/
def enter : BuiltIn → Recording B Nat
  | .sum => return Registry.sumId
  | .concat => return Registry.concatId
  | .flip => return Registry.flipId
  | .pack => return Registry.packId
  | .make n => Tracked.enter (Registry.makeId · n)
  | .unpack n => Tracked.enter (Registry.unpackId · n)

/-- A built-in on tracked values. -/
def record : BuiltIn → List (Tracked B) → Recording B (List (Tracked B))
  | .sum, [x] => do return [← x.sum]
  | .concat, [x, y] => do return [← x.concat y]
  | .flip, [x] => do return [← x.flip]
  | .pack, xs => do return [← Tracked.pack xs]
  | .make n, [x] => do return [← x.make n]
  | .unpack n, [x] => x.unpack n
  | b, xs => do Tracked.call (← b.enter) xs

/-- What a built-in gives on plain values, from the elements of its arguments. -/
def eval : BuiltIn → List B → Except Error (List B)
  | .sum, [x] => return [Base.ofElem (Base.sum x)]
  | .concat, [x, y] => do return [← Base.ofList (Base.toList x ++ Base.toList y)]
  | .flip, [x] =>
    if Base.isScalar x then return [x]
    else do return [← Base.ofList (backwards (Base.toList x))]
  | .pack, xs =>
    match xs.find? (!Base.isScalar ·) with
    | none => do return [← Base.ofList (xs.flatMap Base.toList)]
    | some x => .error (.shapeMismatch "pack argument" 1 (Base.length x))
  | .make n, [x] =>
    if Base.isScalar x then do return [← Base.ofList ((List.replicate n x).flatMap Base.toList)]
    else .error (.shapeMismatch "make argument" 1 (Base.length x))
  | .unpack n, [x] =>
    if Base.length x = n then return (Base.toList x).map Base.ofElem
    else .error (.shapeMismatch "unpack argument" n (Base.length x))
  | _, xs => .error (.shapeMismatch "arguments" 1 xs.length)

end BuiltIn

/-- One step of a program. -/
inductive Step (B : Type) where
  /-- A value from outside: a parameter, or one that is left over from an ended recording. -/
  | bring (x : Tracked B)
  /-- A value that is there already. -/
  | copy (a : Nat)
  | unary (op : UnaryOp) (a : Nat)
  | binary (op : BinaryOp) (a b : Nat)
  /-- A comparison, which adds no value. -/
  | compare (c : Comparison) (a b : Nat)
  | max (a b : Nat)
  | min (a b : Nat)
  | clip (a lo hi : Nat)
  | builtIn (b : BuiltIn) (args : List Nat)
  /-- A call of any registered atomic by its id. -/
  | call (id : Nat) (args : List Nat)

namespace Step

/-- The values at some places. -/
def gather {α : Type} (env : List α) (places : List Nat) : Except Error (List α) :=
  places.mapM (pick env)

/-- The operand that a maximum takes. -/
def chooseMax (env : List (Tracked B)) (a b : Nat) : Except Error Nat := do
  return if ← (← pick env a).compare .ge (← pick env b) then a else b

/-- The operand that a minimum takes. -/
def chooseMin (env : List (Tracked B)) (a b : Nat) : Except Error Nat := do
  return if ← (← pick env a).compare .le (← pick env b) then a else b

/-- The step that takes the operand on which a choice falls. -/
def resolve (env : List (Tracked B)) : Step B → Except Error (Step B)
  | .max a b => do return .copy (← chooseMax env a b)
  | .min a b => do return .copy (← chooseMin env a b)
  | .clip a lo hi => do return .copy (← chooseMin env (← chooseMax env a lo) hi)
  | s => .ok s

/-- The results of a step on tracked values. -/
def record (env : List (Tracked B)) : Step B → Recording B (List (Tracked B))
  | .bring x => return [x]
  | .copy a => do return [← pick env a]
  | .unary op a => do return [← (← pick env a).unary op]
  | .binary op a b => do return [← (← pick env a).binary op (← pick env b)]
  | .compare c a b => do
    let _ ← (← pick env a).compare c (← pick env b)
    return []
  | .max a b => do return [← (← pick env a).max (← pick env b)]
  | .min a b => do return [← (← pick env a).min (← pick env b)]
  | .clip a lo hi => do return [← (← pick env a).clip (← pick env lo) (← pick env hi)]
  | .builtIn b args => do b.record (← gather env args)
  | .call id args => do Tracked.call id (← gather env args)

/-- The results of a step on plain values; an atomic that is no built-in has none. -/
def evaluate (env : List B) : Step B → Except Error (List B)
  | .bring x => return [x.value]
  | .copy a => do return [← pick env a]
  | .unary op a => do return [op.eval (← pick env a)]
  | .binary op a b => do return [← op.eval (← pick env a) (← pick env b)]
  | .compare c a b => do
    let _ ← Base.compare c (← pick env a) (← pick env b)
    return []
  | .max a b => do
    let x ← pick env a
    let y ← pick env b
    return [if ← Base.compare .ge x y then x else y]
  | .min a b => do
    let x ← pick env a
    let y ← pick env b
    return [if ← Base.compare .le x y then x else y]
  | .clip a lo hi => do
    let x ← pick env a
    let y ← pick env lo
    let z ← pick env hi
    let m := if ← Base.compare .ge x y then x else y
    return [if ← Base.compare .le m z then m else z]
  | .builtIn b args => do b.eval (← gather env args)
  | .call id _ => .error (.state (.unknownAtomic id))

/-- The step brings in nothing of the tape that is being recorded. -/
def Foreign (tape : Nat) : Step B → Prop
  | .bring x => x.indexOn tape = none
  | _ => True

end Step

namespace Program

/-- The values of a program on tracked values, and its resolved steps. -/
def record : List (Step B) → List (Tracked B) → Recording B (List (Tracked B) × List (Step B))
  | [], env => return (env, [])
  | s :: rest, env => do
    let resolved ← s.resolve env
    let results ← s.record env
    let (final, steps) ← record rest (env ++ results)
    return (final, resolved :: steps)

/-- The values of a program on plain values. -/
def evaluate : List (Step B) → List B → Except Error (List B)
  | [], env => return env
  | s :: rest, env => do evaluate rest (env ++ (← s.evaluate env))

/-- The inputs of a new recording as variables of its tape. -/
def inputs (tape : Nat) (x : List B) : List (Tracked B) :=
  x.zipIdx.map fun (v, i) => ⟨v, .onTape tape i⟩

end Program

/-- A scalar-shaped value has its sum as its only element, and a value has its own shape. -/
class LawfulBase (B : Type) {F : Type} [Scalar F] [Base B F] : Prop where
  toList_scalar : ∀ v : B, Base.isScalar v = true → Base.toList v = [Base.sum v]
  broadcastLike_self : ∀ v : B, Base.broadcastLike v v = .ok v

instance : LawfulBase F where
  toList_scalar _ _ := rfl
  broadcastLike_self _ := rfl

instance : LawfulBase (Value F) where
  toList_scalar v scalar := by
    cases v with
    | scalar x => rfl
    | array xs => cases scalar
  broadcastLike_self v := by
    cases v with
    | scalar x => rfl
    | array xs =>
      show ((Value.array xs).broadcastTo xs.length).map Value.array = .ok (Value.array xs)
      simp [Value.broadcastTo, Except.map]

private theorem expand_self [LawfulBase B] (context : String) (v : B) :
    Base.expand context v (Base.length v) = .ok (Base.toList v) := by
  unfold Base.expand
  by_cases scalar : Base.isScalar v
  · have single := LawfulBase.toList_scalar v scalar
    rw [if_pos scalar, Base.length, single]
    rfl
  · rw [if_neg scalar, if_pos rfl]

private theorem flatMap_toList [LawfulBase B] {xs : List B}
    (scalars : ∀ x ∈ xs, Base.isScalar x = true) :
    xs.flatMap Base.toList = xs.map Base.sum := by
  rw [List.map_eq_flatMap]
  exact List.flatMap_congr fun x member => LawfulBase.toList_scalar x (scalars x member)

/-- At order zero a built-in computes what it gives on plain values. -/
theorem BuiltIn.step_self_iff [LawfulBase B] {b : BuiltIn} {xs ys : List B} :
    b.step xs xs = .ok ys ↔ b.eval xs = .ok ys := by
  cases b with
  | pack =>
    simp only [step, eval]
    split
    · rename_i none
      have scalars : ∀ x ∈ xs, Base.isScalar x = true := by simpa using none
      have read : xs.mapM (Base.scalarElem "pack argument") = .ok (xs.map Base.sum) :=
        mapM_eq_map fun x member => if_pos (scalars x member)
      rw [read, flatMap_toList scalars]
      rfl
    · rename_i x found
      have array : Base.isScalar x = false := by simpa using List.find?_some found
      constructor
      · intro done
        obtain ⟨es, read, _⟩ := bind_eq_ok.1 done
        obtain ⟨i, there⟩ := List.mem_iff_getElem?.1 (List.mem_of_find?_eq_some found)
        obtain ⟨e, -, scalar⟩ := getElem?_of_mapM read there
        rw [Base.scalarElem, if_neg (by simp [array])] at scalar
        cases scalar
      · intro done
        cases done
  | sum =>
    rcases xs with _ | ⟨x, _ | ⟨y, rest⟩⟩
    · simp [step, eval]
    · simp only [step, eval, LawfulBase.broadcastLike_self, ok_bind]
    · simp [step, eval]
  | concat =>
    rcases xs with _ | ⟨x, _ | ⟨y, _ | ⟨z, rest⟩⟩⟩
    · simp [step, eval]
    · simp [step, eval]
    · simp only [step, eval, expand_self, ok_bind]
    · simp [step, eval]
  | flip =>
    rcases xs with _ | ⟨x, _ | ⟨y, rest⟩⟩
    · simp [step, eval]
    · simp only [step, eval, turned]
      split <;> rfl
    · simp [step, eval]
  | make n =>
    rcases xs with _ | ⟨x, _ | ⟨y, rest⟩⟩
    · simp [step, eval]
    · simp only [step, eval, Base.scalarElem]
      split
      · rename_i scalar
        rw [flatMap_toList fun y member => List.eq_of_mem_replicate member ▸ scalar,
          List.map_replicate]
        rfl
      · rfl
    · simp [step, eval]
  | unpack n =>
    rcases xs with _ | ⟨x, _ | ⟨y, rest⟩⟩
    · simp [step, eval]
    · by_cases fits : Base.length x = n
      · subst fits
        simp only [step, eval, if_true, expand_self, ok_bind]
      · simp only [step, eval, if_neg fits, reduceCtorEq]
    · simp [step, eval]

end TaylorTape
