import TaylorTape.Proofs.History

/-!
The table of an evaluator stays a map, whatever is asked of the evaluator.

Sweeps only replace the contents of cells, also where they fail, and on any tape.  Room is made in
front of the sweeps and never given up.  So the laws of the table hold after any requests: each
variable, order and direction has its cell, two of them meet only at order zero, a write changes one
cell, and making room carries over the orders that stay valid.
-/

set_option autoImplicit false
set_option relaxedAutoImplicit false

namespace TaylorTape

variable {B F : Type} [Scalar F] [Base B F]

namespace Coefficients

/-- The laws of a map from variables, orders and directions to coefficients. -/
structure ActsAsMap (c : Coefficients B) : Prop where
  /-- There is a cell for order zero of each variable and one for each direction of each order
  above it that there is room for. -/
  size : c.cells.size = c.numVariables * (1 + (c.capacity - 1) * c.numDirections)
  orders : c.numOrders ≤ c.capacity
  inRange : ∀ v k d, c.Inside v k d → c.index v k d < c.cells.size
  /-- A cell is shared only by the directions of order zero. -/
  apart : ∀ v k d v' k' d', c.Inside v k d → c.Inside v' k' d' →
    (c.index v k d = c.index v' k' d' ↔ v = v' ∧ k = k' ∧ (k = 0 ∨ d = d'))
  /-- A write changes one cell and nothing else. -/
  put : ∀ v k d x, c.Inside v k d → ∃ cells, c.put v k d x = .ok { c with cells } ∧
    cells.size = c.cells.size ∧ cells[c.index v k d]? = some x ∧
    ∀ i, i ≠ c.index v k d → cells[i]? = c.cells[i]?
  /-- There is room for what is asked, and all that can be found afterwards of the orders that are
  kept is what has been there: of all valid orders along the same number of directions, and of order
  zero along another. -/
  reserve : ∀ orders r, ∃ t, c.reserve orders r = .ok t ∧ t.numVariables = c.numVariables ∧
    t.numDirections = r ∧ orders ≤ t.capacity ∧ c.capacity ≤ t.capacity ∧
    (∀ v k d, t.Inside v k d → t.index v k d < t.cells.size) ∧
    t.numOrders = (if r = c.numDirections then c.numOrders else min c.numOrders 1) ∧
    ∀ v k d, v < c.numVariables → k < t.numOrders → (k = 0 ∨ d < r) →
      ∃ x, c.coeff v k d = .ok x ∧ t.coeff v k d = .ok x

private theorem index_eq_iff {c : Coefficients B} {v k d v' k' d' : Nat} (inside : c.Inside v k d)
    (inside' : c.Inside v' k' d') :
    c.index v k d = c.index v' k' d' ↔ v = v' ∧ k = k' ∧ (k = 0 ∨ d = d') := by
  constructor
  · exact index_inj inside inside'
  · rintro ⟨rfl, rfl, rfl | rfl⟩
    · rfl
    · rfl

private theorem WellFormed.actsAsMap {c : Coefficients B} (wf : c.WellFormed) : c.ActsAsMap where
  size := wf.size
  orders := wf.orders
  inRange _ _ _ inside := index_lt wf inside
  apart _ _ _ _ _ _ inside inside' := index_eq_iff inside inside'
  put v k d x inside := by
    refine ⟨_, put_eq wf inside x, by simp, ?_, fun i other => ?_⟩
    · exact Array.getElem?_setIfInBounds_self_of_lt (index_lt wf inside)
    · exact Array.getElem?_setIfInBounds_ne other.symm
  reserve orders r := by
    obtain ⟨t, done, size, vars, room, along, valid, values⟩ := reserve_carries wf orders r
    have wider : c.capacity ≤ t.capacity := room ▸ Nat.le_max_right _ _
    have inRange : ∀ v k d, t.Inside v k d → t.index v k d < t.cells.size :=
      fun _ _ _ => index_lt_of_size size
    refine ⟨t, done, vars, along, room ▸ Nat.le_max_left _ _, wider, inRange, valid, ?_⟩
    intro v k d var kept there
    have kept' : k < c.kept r := valid ▸ kept
    have old : c.Inside v k d := inside_of_kept wf var kept' there
    have new : t.Inside v k d := ⟨vars ▸ var, old.2.1.trans_le wider, along ▸ there⟩
    have same := values v k d var new.2.1 there
    rw [if_pos (.inl kept')] at same
    exact ⟨c.value v k d, coeff_eq wf old, same ▸ coeff_eq_of_lt (inRange v k d new)⟩

/-- A table that another has become, of the same variables and with no less room. -/
structure Becomes (c t : Coefficients B) : Prop where
  sameVariables : t.numVariables = c.numVariables
  capacity : c.capacity ≤ t.capacity
  wellFormed : t.WellFormed

namespace Becomes

variable {c t u : Coefficients B}

theorem refl (wf : c.WellFormed) : c.Becomes c :=
  ⟨rfl, le_rfl, wf⟩

theorem trans (first : c.Becomes t) (second : t.Becomes u) : c.Becomes u :=
  ⟨second.sameVariables.trans first.sameVariables, first.capacity.trans second.capacity,
    second.wellFormed⟩

end Becomes

/-- A table in which the contents of cells may have been replaced, and nothing else. -/
abbrev Overwritten (c t : Coefficients B) : Prop :=
  c.Frame (fun _ _ _ => True) t

private theorem overwritten_of_extent {c t : Coefficients B} (extent : c.SameExtent t)
    (orders : t.numOrders = c.numOrders) : c.Overwritten t :=
  ⟨extent, orders, fun _ _ _ _ kept => absurd trivial kept⟩

end Coefficients

private theorem Sweep.put_overwrites (v k d : Nat) (x : B) (c : Coefficients B) :
    c.Overwritten (Sweep.put v k d x c).2 := by
  unfold Sweep.put
  rw [run_bind_ok (run_get c), run_bind, run_lift]
  cases written : c.put v k d x with
  | error err => exact .refl c
  | ok t =>
    obtain ⟨cells, stored, last⟩ := bind_eq_ok.1 written
    obtain rfl := pure_eq_ok.1 last
    obtain ⟨inside, rfl⟩ := store_eq_ok_iff.1 stored
    exact Coefficients.overwritten_of_extent ⟨rfl, rfl, rfl, Array.size_set inside⟩ rfl

namespace Tape

private theorem advance_overwrites (tape : Tape B) (q d : Nat) (seed : List B) (i : Nat)
    (c : Coefficients B) : c.Overwritten (tape.advance q d seed i c).2 := by
  unfold advance
  rw [run_bind_ok (run_get c), run_bind, run_lift]
  cases tape.produced c q d seed i with
  | error err => exact .refl c
  | ok xs =>
    refine forM_preserves (P := c.Overwritten) ?_ (.refl c)
    rintro ⟨x, r⟩ _ t overwritten
    exact overwritten.trans (Sweep.put_overwrites (i + r) q d x t)

private theorem sweeps_overwrite (tape : Tape B) (q d : Nat) (seeds : List (List B))
    (c : Coefficients B) : c.Overwritten (tape.sweeps q d seeds c).2 := by
  refine forM_preserves (P := c.Overwritten) ?_ (.refl c)
  rintro ⟨seed, d'⟩ _ t overwritten
  refine forM_preserves (P := c.Overwritten) ?_ overwritten
  intro i _ u overwritten'
  exact overwritten'.trans (tape.advance_overwrites q d' seed i u)

end Tape

namespace Evaluator

variable {e : Evaluator B}

private theorem forward_becomes (wf : e.table.WellFormed) (q r : Nat) (seeds : List (List B)) :
    e.table.Becomes (forward q r seeds e).2.table := by
  by_cases accepts : e.Accepts q r seeds
  · have positive : 1 ≤ if q = 0 then e.numDirections else r := by
      split
      · exact wf.directions
      · exact Nat.one_le_iff_ne_zero.2 accepts.positive
    obtain ⟨t, room, wf', vars, capacity, _⟩ := Coefficients.reserve_eq wf (q + 1) positive
    have enough : q + 1 ≤ t.capacity := capacity ▸ Nat.le_max_left _ _
    have wider : e.table.capacity ≤ t.capacity := capacity ▸ Nat.le_max_right _ _
    have overwritten := e.tape.sweeps_overwrite q 0 seeds { t with numOrders := q }
    rw [forward_of_reserve accepts room]
    have swept : ∀ u : Coefficients B, t.SameExtent u → u.numOrders ≤ q + 1 →
        e.table.Becomes u := fun u extent low =>
      ⟨extent.1.trans vars, wider.trans extent.2.1.ge, extent.wellFormed wf' (low.trans enough)⟩
    cases ran : e.tape.sweeps q 0 seeds { t with numOrders := q } with
    | mk outcome u =>
      rw [ran] at overwritten
      cases outcome with
      | ok _ => exact swept _ overwritten.extent le_rfl
      | error err => exact swept u overwritten.extent (overwritten.orders.le.trans (Nat.le_succ q))
  · obtain ⟨err, refused⟩ := forward_refused accepts
    rw [refused]
    exact .refl wf

private theorem perform_becomes (wf : e.table.WellFormed) (asks : List (Ask B)) :
    e.table.Becomes (perform asks e).2.table := by
  refine forM_preserves (P := fun e' : Evaluator B => e.table.Becomes e'.table) ?_ (.refl wf)
  intro a _ e' becomes
  have next := forward_becomes becomes.wellFormed a.order a.directions a.seeds
  rw [run_bind]
  cases ran : forward a.order a.directions a.seeds e' with
  | mk outcome e'' =>
    rw [ran] at next
    cases outcome with
    | ok _ => exact becomes.trans next
    | error err => exact becomes.trans next

private theorem requests_become (wf : e.table.WellFormed) (requests : List (Request B)) :
    e.table.Becomes (requests.foldl (fun e request => request.after e) e).table := by
  induction requests generalizing e with
  | nil => exact .refl wf
  | cons request requests ih =>
    have first : e.table.Becomes (request.after e).table := by
      rw [after_eq]
      exact perform_becomes wf _
    exact first.trans (ih first.wellFormed)

/-- After any requests to an evaluator that has begun with nothing computed, its tape any, the table
acts as a map; and further requests never take room away. -/
theorem table_acts_as_map (tape : Tape B) (outputs : List Nat) (requests further : List (Request B)) :
    let e := requests.foldl (fun e request => request.after e) (ofTape tape outputs)
    e.table.numVariables = tape.size ∧ e.table.ActsAsMap ∧
      e.table.capacity ≤ (further.foldl (fun e request => request.after e) e).table.capacity := by
  have start : (ofTape tape outputs).table.WellFormed := Coefficients.empty_wellFormed tape.size
  have reached := requests_become start requests
  exact ⟨reached.sameVariables, reached.wellFormed.actsAsMap,
    (requests_become reached.wellFormed further).capacity⟩

end Evaluator

end TaylorTape
