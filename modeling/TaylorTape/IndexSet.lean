/-!
Finite sets of natural numbers, kept as strictly increasing lists.
-/

set_option autoImplicit false
set_option relaxedAutoImplicit false

namespace TaylorTape

/-- A finite set of natural numbers. -/
structure IndexSet where
  /-- The members in order. -/
  toList : List Nat
  /-- Each member stands once, and before all larger ones. -/
  increasing : toList.Pairwise (· < ·)

namespace IndexSet

/-- A number put at its place among increasing ones. -/
def insertSorted (x : Nat) : List Nat → List Nat
  | [] => [x]
  | y :: ys => if x < y then x :: y :: ys else if x = y then y :: ys else y :: insertSorted x ys

private theorem mem_insertSorted {x y : Nat} {xs : List Nat} :
    y ∈ insertSorted x xs ↔ y = x ∨ y ∈ xs := by
  induction xs with
  | nil => simp [insertSorted]
  | cons z zs ih =>
    simp only [insertSorted]
    split
    · simp
    · split
      · rename_i same
        simp [same]
      · simp only [List.mem_cons, ih]
        exact or_left_comm

private theorem insertSorted_increasing {x : Nat} {xs : List Nat} (h : xs.Pairwise (· < ·)) :
    (insertSorted x xs).Pairwise (· < ·) := by
  induction xs with
  | nil => simp [insertSorted]
  | cons z zs ih =>
    obtain ⟨below, rest⟩ := List.pairwise_cons.1 h
    simp only [insertSorted]
    split
    · rename_i less
      refine List.pairwise_cons.2 ⟨fun a member => ?_, h⟩
      rcases List.mem_cons.1 member with rfl | later
      · exact less
      · exact Nat.lt_trans less (below a later)
    · split
      · exact h
      · refine List.pairwise_cons.2 ⟨fun a member => ?_, ih rest⟩
        rcases mem_insertSorted.1 member with rfl | later
        · omega
        · exact below a later

/-- The set without members. -/
def empty : IndexSet :=
  ⟨[], .nil⟩

/-- The set of one number. -/
def singleton (x : Nat) : IndexSet :=
  ⟨[x], List.pairwise_singleton _ _⟩

/-- A set with one more number. -/
def insert (s : IndexSet) (x : Nat) : IndexSet :=
  ⟨insertSorted x s.toList, insertSorted_increasing s.increasing⟩

/-- The numbers of two sets. -/
def union (s t : IndexSet) : IndexSet :=
  t.toList.foldl insert s

/-- The set of some numbers in any order. -/
def ofList (xs : List Nat) : IndexSet :=
  xs.foldl insert empty

/-- The numbers of any of some sets. -/
def unions (sets : List IndexSet) : IndexSet :=
  sets.foldl union empty

/-- Whether a number belongs to a set. -/
def contains (s : IndexSet) (x : Nat) : Bool :=
  s.toList.contains x

/-- Whether a set has no member. -/
def isEmpty (s : IndexSet) : Bool :=
  s.toList.isEmpty

private theorem mem_insert {s : IndexSet} {x y : Nat} :
    y ∈ (s.insert x).toList ↔ y = x ∨ y ∈ s.toList :=
  mem_insertSorted

private theorem mem_foldl_insert {xs : List Nat} {s : IndexSet} {y : Nat} :
    y ∈ (xs.foldl insert s).toList ↔ y ∈ s.toList ∨ y ∈ xs := by
  induction xs generalizing s with
  | nil => simp
  | cons x xs ih =>
    rw [List.foldl_cons, ih, mem_insert, List.mem_cons, or_comm (a := y = x), or_assoc]

theorem mem_union {s t : IndexSet} {y : Nat} :
    y ∈ (s.union t).toList ↔ y ∈ s.toList ∨ y ∈ t.toList :=
  mem_foldl_insert

theorem mem_ofList {xs : List Nat} {y : Nat} : y ∈ (ofList xs).toList ↔ y ∈ xs := by
  simp [ofList, mem_foldl_insert, empty]

example : (ofList [3, 1, 3]).toList = [1, 3] := by decide

end IndexSet

end TaylorTape
