import TaylorTape.Error

/-!
Access to sequences that answers with an error where there is no such position.

All reading and writing of tapes, tables, series and blocks goes through these functions, so that an
access out of range can never pass for a value.
-/

set_option autoImplicit false
set_option relaxedAutoImplicit false

namespace TaylorTape

variable {α : Type}

/-- The element at a position of an array. -/
def fetch (xs : Array α) (i : Nat) : Except Error α :=
  match xs[i]? with
  | some x => .ok x
  | none => .error (.indexOutOfRange i xs.size)

/-- The element at a position of a list. -/
def pick (xs : List α) (i : Nat) : Except Error α :=
  match xs[i]? with
  | some x => .ok x
  | none => .error (.indexOutOfRange i xs.length)

/-- The first elements of a list, as many as is said, and the others. -/
def splitOff (xs : List α) (n : Nat) : Except Error (List α × List α) :=
  if n ≤ xs.length then .ok (xs.take n, xs.drop n) else .error (.indexOutOfRange n xs.length)

/-- An array with one position replaced. -/
def store (xs : Array α) (i : Nat) (x : α) : Except Error (Array α) :=
  if h : i < xs.size then .ok (xs.set i x) else .error (.indexOutOfRange i xs.size)

theorem fetch_eq_ok_iff {xs : Array α} {i : Nat} {x : α} : fetch xs i = .ok x ↔ xs[i]? = some x := by
  unfold fetch
  split
  · rename_i y found
    rw [found]
    constructor
    · intro same
      injection same with same
      rw [same]
    · intro same
      injection same with same
      rw [same]
  · rename_i missing
    simp [missing]

theorem pick_eq_ok_iff {xs : List α} {i : Nat} {x : α} : pick xs i = .ok x ↔ xs[i]? = some x := by
  unfold pick
  split
  · rename_i y found
    rw [found]
    constructor
    · intro same
      injection same with same
      rw [same]
    · intro same
      injection same with same
      rw [same]
  · rename_i missing
    simp [missing]

theorem store_eq_ok_iff {xs ys : Array α} {i : Nat} {x : α} :
    store xs i x = .ok ys ↔ ∃ h : i < xs.size, xs.set i x = ys := by
  unfold store
  split
  · rename_i inside
    constructor
    · intro same
      injection same with same
      exact ⟨inside, same⟩
    · intro ⟨_, same⟩
      rw [same]
  · rename_i outside
    constructor
    · intro same
      cases same
    · intro ⟨inside, _⟩
      exact absurd inside outside

end TaylorTape
