import Mathlib.Tactic.Common
import Mathlib.Algebra.Order.Ring.Nat
import TaylorTape.Proofs.Traversal
import TaylorTape.Coefficients

/-!
The table of coefficients behaves as a map from variables, orders and directions.

A cell of a well-formed table is found by the place of its order and direction among the cells of
its variable.  Two triples meet in one cell only where they name the same variable and order, and
the same direction unless the order is zero.  Writing changes one cell, and making room keeps the
coefficients of the orders that stay valid.
-/

set_option autoImplicit false
set_option relaxedAutoImplicit false

namespace TaylorTape

variable {B F : Type} [Scalar F] [Base B F]

/-- The series of the first coefficients that a function gives. -/
def Series.of (f : Nat → B) (n : Nat) : Series B :=
  ((List.range n).map f).toArray

namespace Series

@[simp] theorem size_of (f : Nat → B) (n : Nat) : (Series.of f n).size = n := by
  simp [Series.of]

theorem getElem?_of (f : Nat → B) (n k : Nat) :
    (Series.of f n)[k]? = if k < n then some (f k) else none := by
  by_cases inside : k < n
  · simp [Series.of, inside]
  · simp [Series.of, inside]

theorem toList_of (f : Nat → B) (n : Nat) : (Series.of f n).toList = (List.range n).map f := by
  simp [Series.of]

theorem coeff_of {f : Nat → B} {n k : Nat} (inside : k < n) : (Series.of f n).coeff k = .ok (f k) := by
  rw [coeff, fetch_eq_ok_iff, getElem?_of, if_pos inside]

theorem of_congr {f g : Nat → B} {n : Nat} (same : ∀ k < n, f k = g k) :
    Series.of f n = Series.of g n := by
  unfold Series.of
  rw [List.map_congr_left fun k member => same k (List.mem_range.1 member)]

/-- A series is known by its coefficients. -/
theorem eq_of_size {s : Series B} {n : Nat} (size : s.size = n) (c : B) :
    s = .of (fun k => (s[k]?).getD c) n := by
  apply Array.ext_getElem?
  intro k
  rw [getElem?_of]
  by_cases below : k < n
  · rw [if_pos below, Array.getElem?_eq_getElem (size ▸ below)]
    rfl
  · rw [if_neg below, Array.getElem?_eq_none (by omega)]

theorem of_succ (f : Nat → B) (n : Nat) : Series.of f (n + 1) = (Series.of f n).push (f n) := by
  simp [Series.of, List.range_succ]

theorem take_of (f : Nat → B) {m n : Nat} (low : m ≤ n) :
    (Series.of f n).take m = Series.of f m := by
  apply Array.ext_getElem?
  intro k
  rw [Array.take_eq_extract, Array.getElem?_extract, getElem?_of, getElem?_of, size_of, Nat.sub_zero,
    Nat.zero_add, Nat.min_eq_left low]
  split
  · rw [if_pos (by omega)]
  · rfl

end Series

namespace Coefficients

/-- The table has a cell for every order and direction that there is room for, and no more orders
are valid than that. -/
structure WellFormed (c : Coefficients B) : Prop where
  size : c.cells.size = c.numVariables * c.stride
  capacity : 1 ≤ c.capacity
  orders : c.numOrders ≤ c.capacity
  directions : 1 ≤ c.numDirections

/-- There is a cell for this order of this variable along this direction. -/
def Inside (c : Coefficients B) (v k d : Nat) : Prop :=
  v < c.numVariables ∧ k < c.capacity ∧ (k = 0 ∨ d < c.numDirections)

/-- The place of an order and a direction among the cells of a variable. -/
def offset (directions k d : Nat) : Nat :=
  if k = 0 then 0 else 1 + (k - 1) * directions + d

private theorem offset_lt {directions capacity k d : Nat} (room : k < capacity)
    (along : k = 0 ∨ d < directions) : offset directions k d < 1 + (capacity - 1) * directions := by
  unfold offset
  split
  · omega
  · have below : d < directions := by omega
    have rows : (k - 1 + 1) * directions ≤ (capacity - 1) * directions :=
      Nat.mul_le_mul_right _ (by omega)
    rw [Nat.add_mul, Nat.one_mul] at rows
    omega

private theorem order_of_offset {directions k d : Nat} (along : k = 0 ∨ d < directions) :
    (if offset directions k d = 0 then 0 else (offset directions k d - 1) / directions + 1) = k := by
  by_cases zero : k = 0
  · simp [offset, zero]
  · have below : d < directions := along.resolve_left zero
    have place : offset directions k d = (k - 1) * directions + d + 1 := by
      simp [offset, zero]
      omega
    rw [place, if_neg (Nat.succ_ne_zero _), Nat.add_sub_cancel, Nat.add_comm _ d,
      Nat.add_mul_div_right _ _ (by omega), Nat.div_eq_of_lt below]
    omega

private theorem direction_of_offset {directions k d : Nat} (positive : k ≠ 0)
    (below : d < directions) :
    (offset directions k d - 1) % directions = d := by
  have place : offset directions k d - 1 = d + (k - 1) * directions := by
    simp [offset, positive]
    omega
  rw [place, Nat.add_mul_mod_self_right, Nat.mod_eq_of_lt below]

private theorem index_eq (c : Coefficients B) (v k d : Nat) :
    c.index v k d = v * c.stride + offset c.numDirections k d := rfl

private theorem offset_lt_stride {c : Coefficients B} {v k d : Nat} (inside : c.Inside v k d) :
    offset c.numDirections k d < c.stride :=
  offset_lt inside.2.1 inside.2.2

theorem index_lt_of_size {c : Coefficients B} (size : c.cells.size = c.numVariables * c.stride)
    {v k d : Nat} (inside : c.Inside v k d) : c.index v k d < c.cells.size := by
  have low := offset_lt_stride inside
  have rows : (v + 1) * c.stride ≤ c.numVariables * c.stride :=
    Nat.mul_le_mul_right _ inside.1
  rw [size, index_eq]
  rw [Nat.add_mul, Nat.one_mul] at rows
  omega

theorem index_lt {c : Coefficients B} (wf : c.WellFormed) {v k d : Nat} (inside : c.Inside v k d) :
    c.index v k d < c.cells.size :=
  index_lt_of_size wf.size inside

/-- Two triples share a cell only if they agree in variable and order, and in direction unless the
order is zero. -/
theorem index_inj {c : Coefficients B} {v k d v' k' d' : Nat} (inside : c.Inside v k d)
    (inside' : c.Inside v' k' d') (same : c.index v k d = c.index v' k' d') :
    v = v' ∧ k = k' ∧ (k = 0 ∨ d = d') := by
  have low := offset_lt_stride inside
  have low' := offset_lt_stride inside'
  rw [index_eq, index_eq] at same
  have vars : v = v' := by
    have quotients := congrArg (· / c.stride) same
    simpa [Nat.mul_comm _ c.stride, Nat.mul_add_div (Nat.zero_lt_of_lt low),
      Nat.div_eq_of_lt low, Nat.div_eq_of_lt low'] using quotients
  have places : offset c.numDirections k d = offset c.numDirections k' d' := by
    subst vars
    omega
  have orders : k = k' := by
    rw [← order_of_offset inside.2.2, places, order_of_offset inside'.2.2]
  refine ⟨vars, orders, ?_⟩
  subst orders
  by_cases zero : k = 0
  · exact .inl zero
  · right
    rw [← direction_of_offset zero (inside.2.2.resolve_left zero), places,
      direction_of_offset zero (inside'.2.2.resolve_left zero)]

/-- The coefficient in a cell; what lies outside the table reads as zero. -/
def value (c : Coefficients B) (v k d : Nat) : B :=
  c.cells[c.index v k d]?.getD Base.zero

/-- The coefficients along one direction, by variable and order. -/
def along (c : Coefficients B) (d : Nat) : Nat → Nat → B :=
  fun v k => c.value v k d

theorem coeff_eq_of_lt {c : Coefficients B} {v k d : Nat} (low : c.index v k d < c.cells.size) :
    c.coeff v k d = .ok (c.value v k d) := by
  rw [coeff, fetch_eq_ok_iff, value, Array.getElem?_eq_getElem low]
  rfl

theorem coeff_eq {c : Coefficients B} (wf : c.WellFormed) {v k d : Nat} (inside : c.Inside v k d) :
    c.coeff v k d = .ok (c.value v k d) :=
  coeff_eq_of_lt (index_lt wf inside)

theorem value_zero_order (c : Coefficients B) (v d d' : Nat) : c.value v 0 d = c.value v 0 d' := rfl

theorem series_eq {c : Coefficients B} (wf : c.WellFormed) {v n d : Nat}
    (inside : ∀ k < n, c.Inside v k d) : c.series v n d = .ok (Series.of (c.along d v) n) := by
  unfold series
  rw [mapM_eq_map fun k member => coeff_eq wf (inside k (List.mem_range.1 member))]
  rfl

/-- The table with the content of one cell replaced. -/
def write (c : Coefficients B) (v k d : Nat) (x : B) : Coefficients B :=
  { c with cells := c.cells.setIfInBounds (c.index v k d) x }

theorem put_eq {c : Coefficients B} (wf : c.WellFormed) {v k d : Nat} (inside : c.Inside v k d)
    (x : B) : c.put v k d x = .ok (c.write v k d x) := by
  have stored : store c.cells (c.index v k d) x =
      .ok (c.cells.setIfInBounds (c.index v k d) x) :=
    store_eq_ok_iff.2 ⟨index_lt wf inside, by rw [Array.setIfInBounds, dif_pos (index_lt wf inside)]⟩
  rw [put, stored]
  rfl

/-- Two tables of the same extent, so that the same triples have cells in them. -/
def SameExtent (c c' : Coefficients B) : Prop :=
  c'.numVariables = c.numVariables ∧ c'.capacity = c.capacity ∧
    c'.numDirections = c.numDirections ∧ c'.cells.size = c.cells.size

namespace SameExtent

theorem refl (c : Coefficients B) : c.SameExtent c := ⟨rfl, rfl, rfl, rfl⟩

theorem trans {c c' c'' : Coefficients B} (first : c.SameExtent c') (second : c'.SameExtent c'') :
    c.SameExtent c'' :=
  ⟨second.1.trans first.1, second.2.1.trans first.2.1, second.2.2.1.trans first.2.2.1,
    second.2.2.2.trans first.2.2.2⟩

private theorem index_eq {c c' : Coefficients B} (same : c.SameExtent c') (v k d : Nat) :
    c'.index v k d = c.index v k d := by
  simp only [index, stride, same.2.1, same.2.2.1]

theorem inside_iff {c c' : Coefficients B} (same : c.SameExtent c') (v k d : Nat) :
    c'.Inside v k d ↔ c.Inside v k d := by
  simp only [Inside, same.1, same.2.1, same.2.2.1]

theorem wellFormed {c c' : Coefficients B} (same : c.SameExtent c') (wf : c.WellFormed)
    (orders : c'.numOrders ≤ c.capacity) : c'.WellFormed where
  size := by
    have strides : c'.stride = c.stride := by simp only [stride, same.2.1, same.2.2.1]
    rw [same.2.2.2, wf.size, same.1, strides]
  capacity := by
    rw [same.2.1]
    exact wf.capacity
  orders := by
    rw [same.2.1]
    exact orders
  directions := by
    rw [same.2.2.1]
    exact wf.directions

end SameExtent

theorem sameExtent_write (c : Coefficients B) (v k d : Nat) (x : B) :
    c.SameExtent (c.write v k d x) :=
  ⟨rfl, rfl, rfl, by simp [write]⟩

theorem WellFormed.write {c : Coefficients B} (wf : c.WellFormed) (v k d : Nat) (x : B) :
    (c.write v k d x).WellFormed :=
  (sameExtent_write c v k d x).wellFormed wf wf.orders

theorem value_write_self {c : Coefficients B} (wf : c.WellFormed) {v k d : Nat}
    (inside : c.Inside v k d) (x : B) : (c.write v k d x).value v k d = x := by
  have place := (sameExtent_write c v k d x).index_eq v k d
  rw [value, place, Coefficients.write, Array.getElem?_setIfInBounds_self_of_lt (index_lt wf inside)]
  rfl

theorem value_write_of_ne {c : Coefficients B} {v k d v' k' d' : Nat} (inside : c.Inside v k d)
    (inside' : c.Inside v' k' d') (x : B) (other : v' ≠ v ∨ k' ≠ k ∨ (k' ≠ 0 ∧ d' ≠ d)) :
    (c.write v k d x).value v' k' d' = c.value v' k' d' := by
  have apart : c.index v k d ≠ c.index v' k' d' := by
    intro same
    obtain ⟨_, _, _⟩ := index_inj inside inside' same
    omega
  have place := (sameExtent_write c v k d x).index_eq v' k' d'
  rw [value, place, Coefficients.write, Array.getElem?_setIfInBounds_ne apart]
  rfl

theorem empty_wellFormed (n : Nat) : (empty n : Coefficients B).WellFormed where
  size := by simp [empty, stride]
  capacity := le_rfl
  orders := Nat.zero_le _
  directions := le_rfl

theorem value_empty (n v k d : Nat) : (empty n : Coefficients B).value v k d = Base.zero := by
  unfold value empty
  rw [Array.getElem?_replicate]
  split <;> rfl

/-- The number of orders that stay valid when room is made along some directions. -/
def kept (c : Coefficients B) (directions : Nat) : Nat :=
  if directions = c.numDirections then c.numOrders else min c.numOrders 1

private theorem kept_le (c : Coefficients B) (directions : Nat) :
    c.kept directions ≤ c.numOrders := by
  unfold kept
  split
  · exact le_rfl
  · exact Nat.min_le_left _ _

theorem lt_kept (c : Coefficients B) {directions k : Nat} (valid : k < c.numOrders)
    (stays : k = 0 ∨ directions = c.numDirections) : k < c.kept directions := by
  unfold kept
  split
  · exact valid
  · omega

/-- Where more orders than one are kept, the directions are the old ones. -/
theorem inside_of_kept {c : Coefficients B} (wf : c.WellFormed) {directions v k d : Nat}
    (var : v < c.numVariables) (order : k < c.kept directions) (along : k = 0 ∨ d < directions) :
    c.Inside v k d := by
  have valid := kept_le c directions
  have room := wf.orders
  refine ⟨var, by omega, ?_⟩
  by_cases zero : k = 0
  · exact .inl zero
  · have same : directions = c.numDirections := by
      unfold kept at order
      split at order
      · assumption
      · omega
    exact .inr (same ▸ along.resolve_left zero)

/-- What a cell of the wider table takes over. -/
private theorem carried_eq {c : Coefficients B} (wf : c.WellFormed) {directions v s : Nat}
    (within : s = 0 ∨ 1 ≤ directions) (var : v < c.numVariables) :
    ∃ x, c.carried (c.kept directions) directions v s = .ok x ∧
      ∀ k d, (k = 0 ∨ d < directions) → s = offset directions k d →
        x = if k < c.kept directions then c.value v k d else Base.zero := by
  set k := if s = 0 then 0 else (s - 1) / directions + 1 with order
  set d := if s = 0 then 0 else (s - 1) % directions with direction
  have below : k = 0 ∨ d < directions := by
    by_cases zero : s = 0
    · exact .inl (by rw [order, if_pos zero])
    · right
      rw [direction, if_neg zero]
      exact Nat.mod_lt _ (within.resolve_left zero)
  have found : ∀ k' d', (k' = 0 ∨ d' < directions) → s = offset directions k' d' →
      k' = k ∧ (k' = 0 ∨ d' = d) := by
    intro k' d' along' place
    have sameOrder : k' = k := by rw [order, place, order_of_offset along']
    refine ⟨sameOrder, ?_⟩
    by_cases zero : k' = 0
    · exact .inl zero
    · right
      have nonzero : s ≠ 0 := by
        intro empty
        rw [order, if_pos empty] at sameOrder
        exact zero sameOrder
      rw [direction, if_neg nonzero, place,
        direction_of_offset zero (along'.resolve_left zero)]
  have unfolded : c.carried (c.kept directions) directions v s =
      if k < c.kept directions then c.coeff v k d else .ok Base.zero := rfl
  by_cases valid : k < c.kept directions
  · refine ⟨c.value v k d, ?_, ?_⟩
    · rw [unfolded, if_pos valid, coeff_eq wf (inside_of_kept wf var valid below)]
    · intro k' d' along' place
      obtain ⟨rfl, zero | rfl⟩ := found k' d' along' place
      · rw [if_pos valid, zero]
        rfl
      · rw [if_pos valid]
  · refine ⟨Base.zero, by rw [unfolded, if_neg valid], ?_⟩
    intro k' d' along' place
    obtain ⟨rfl, _⟩ := found k' d' along' place
    rw [if_neg valid]

/-- Making room succeeds, along no direction as well, and every coefficient of the orders that stay
valid is still there.  If there has not been enough room, all other cells are zero. -/
theorem reserve_carries {c : Coefficients B} (wf : c.WellFormed) (orders directions : Nat) :
    ∃ t, c.reserve orders directions = .ok t ∧ t.cells.size = t.numVariables * t.stride ∧
      t.numVariables = c.numVariables ∧ t.capacity = max orders c.capacity ∧
      t.numDirections = directions ∧ t.numOrders = c.kept directions ∧
      ∀ v k d, v < c.numVariables → k < t.capacity → (k = 0 ∨ d < directions) →
        t.value v k d =
          if k < c.kept directions ∨ (orders ≤ c.capacity ∧ directions = c.numDirections) then
            c.value v k d
          else
            Base.zero := by
  unfold reserve
  by_cases enough : orders ≤ c.capacity ∧ directions = c.numDirections
  · refine ⟨c, if_pos enough, wf.size, rfl, (Nat.max_eq_right enough.1).symm, enough.2.symm, ?_, ?_⟩
    · rw [kept, if_pos enough.2]
    · intros
      rw [if_pos (.inr enough)]
  · set stride := 1 + (max orders c.capacity - 1) * directions with strides
    have within : ∀ i, i % stride = 0 ∨ 1 ≤ directions := fun i => by
      rcases Nat.eq_zero_or_pos directions with rfl | positive
      · left
        rw [strides, Nat.mul_zero, Nat.mod_one]
      · exact .inr positive
    have cells : ∃ cells, ((List.range (c.numVariables * stride)).mapM fun i =>
        c.carried (c.kept directions) directions (i / stride) (i % stride)) = .ok cells := by
      refine ⟨_, mapM_eq_map (g := fun i =>
        ((c.carried (c.kept directions) directions (i / stride) (i % stride)).toOption).getD
          Base.zero) ?_⟩
      intro i member
      have var : i / stride < c.numVariables :=
        Nat.div_lt_of_lt_mul (by rw [Nat.mul_comm]; exact List.mem_range.1 member)
      obtain ⟨x, found, _⟩ := carried_eq wf (within i) var
      rw [found]
      rfl
    obtain ⟨cells, made⟩ := cells
    have extent := length_of_mapM made
    rw [List.length_range] at extent
    refine ⟨⟨cells.toArray, c.numVariables, max orders c.capacity, c.kept directions, directions⟩,
      ?_, ?_, rfl, rfl, rfl, rfl, ?_⟩
    · rw [if_neg enough]
      show (((List.range (c.numVariables * stride)).mapM fun i =>
        c.carried (c.kept directions) directions (i / stride) (i % stride)) >>= _) = _
      rw [made]
      rfl
    · rw [List.size_toArray, extent]
      rfl
    · intro v k d var room along
      have low : offset directions k d < stride := offset_lt room along
      have place : v * stride + offset directions k d < c.numVariables * stride := by
        have rows : (v + 1) * stride ≤ c.numVariables * stride := Nat.mul_le_mul_right _ var
        rw [Nat.add_mul, Nat.one_mul] at rows
        omega
      obtain ⟨x, stored, found⟩ := getElem?_of_mapM made (i := v * stride + offset directions k d)
        (List.getElem?_range place)
      rw [Nat.mul_comm v, Nat.mul_add_div (by omega), Nat.div_eq_of_lt low, Nat.add_zero,
        Nat.mul_add_mod, Nat.mod_eq_of_lt low] at found
      have within' : offset directions k d = 0 ∨ 1 ≤ directions := by
        rcases along with rfl | below
        · exact .inl rfl
        · exact .inr (Nat.one_le_of_lt below)
      obtain ⟨y, found', which⟩ := carried_eq wf within' var
      obtain rfl : x = y := Except.ok.inj (found.symm.trans found')
      rw [if_congr (or_iff_left enough) rfl rfl, ← which k d along rfl]
      show (cells.toArray[v * stride + offset directions k d]?).getD Base.zero = x
      rw [List.getElem?_toArray, stored]
      rfl

/-- Making room along at least one direction leaves a well-formed table. -/
theorem reserve_eq {c : Coefficients B} (wf : c.WellFormed) (orders : Nat) {directions : Nat}
    (positive : 1 ≤ directions) :
    ∃ t, c.reserve orders directions = .ok t ∧ t.WellFormed ∧ t.numVariables = c.numVariables ∧
      t.capacity = max orders c.capacity ∧ t.numDirections = directions ∧
      t.numOrders = c.kept directions ∧
      ∀ v k d, v < c.numVariables → k < t.capacity → (k = 0 ∨ d < directions) →
        t.value v k d =
          if k < c.kept directions ∨ (orders ≤ c.capacity ∧ directions = c.numDirections) then
            c.value v k d
          else
            Base.zero := by
  obtain ⟨t, done, size, vars, room, along, valid, values⟩ := reserve_carries wf orders directions
  have wider : c.capacity ≤ t.capacity := room ▸ Nat.le_max_right _ _
  have valid' : t.numOrders ≤ c.numOrders := valid ▸ kept_le c directions
  refine ⟨t, done, ?_, vars, room, along, valid, values⟩
  exact {
    size
    capacity := le_trans wf.capacity wider
    orders := le_trans valid' (le_trans wf.orders wider)
    directions := along ▸ positive }

end Coefficients

end TaylorTape
