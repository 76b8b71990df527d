import TaylorTape.Proofs.OrderByOrder
import TaylorTape.Proofs.Transposition

/-!
A call of a built-in atomic and its transpose, at every order.

The forward rule of a built-in is linear in the coefficients of each order, on the shapes that the
arguments have at order zero, and its reverse rule is the transposed map.  Coefficients and adjoints
may be scalars in the place of arrays: the products of both sides are taken after they have been
brought to the shapes of order zero.
-/

set_option autoImplicit false
set_option relaxedAutoImplicit false

namespace TaylorTape

open Value

namespace Series

section Values

variable {B F : Type} [Scalar F] [Base B F] {s : Series B} {k q : Nat}

/-- The coefficient of an order; an order that is not there reads as zero. -/
def value (s : Series B) (k : Nat) : B :=
  (s[k]?).getD Base.zero

private theorem eq_of_value (size : s.size = q + 1) : s = .of s.value (q + 1) :=
  eq_of_size size Base.zero

private theorem value_of {f : Nat → B} (low : k ≤ q) : (Series.of f (q + 1)).value k = f k := by
  rw [value, getElem?_of, if_pos (Nat.lt_succ_of_le low), Option.getD_some]

private theorem coeff_eq_value (inside : k < s.size) : s.coeff k = .ok (s.value k) := by
  rw [coeff, fetch_eq_ok_iff, value, Array.getElem?_eq_getElem inside, Option.getD_some]

private theorem mapM_coeff {n : Nat} {block : List (Series B)} (filled : FillsBlock q n block)
    (low : k ≤ q) :
    block.mapM (·.coeff k) = .ok (block.map (·.value k)) :=
  mapM_eq_map fun s member => coeff_eq_value (by rw [filled.orders s member]; omega)

end Values

section Shapes

variable {F : Type} [Scalar F] {s shape : Series (Value F)} {k q : Nat}

/-- The coefficients of a series fit the shape that another one has at order zero. -/
def Over (s shape : Series (Value F)) : Prop :=
  ∀ u ∈ s, ∀ v, shape[0]? = some v → u.Fits v

private theorem Over.fits (shaped : s.Over shape) (inside : k < s.size) (there : 0 < shape.size) :
    (s.value k).Fits (shape.value 0) := by
  have first : shape[0]? = some (shape.value 0) := fetch_eq_ok_iff.1 (coeff_eq_value there)
  have current : s[k]? = some (s.value k) := fetch_eq_ok_iff.1 (coeff_eq_value inside)
  exact shaped _ (Array.mem_of_getElem? current) _ first

private theorem over_of_fits (size : s.size = q + 1)
    (each : ∀ k ≤ q, (s.value k).Fits (shape.value 0)) : s.Over shape := by
  intro u member v first
  obtain ⟨k, inside, rfl⟩ := Array.getElem_of_mem member
  have own : shape.value 0 = v := by rw [value, first, Option.getD_some]
  have current : s.value k = s[k] := by
    rw [value, Array.getElem?_eq_getElem inside, Option.getD_some]
  rw [← own, ← current]
  exact each k (by omega)

omit [Scalar F] in
private theorem over_pair {u v w : Value F} (first : shape[0]? = some w) (fits : u.Fits w)
    (fits' : v.Fits w) : Over #[u, v] shape := by
  intro x member w' first'
  obtain rfl : w = w' := Option.some.inj (first.symm.trans first')
  rcases List.mem_pair.1 (Array.mem_toList_iff.2 member) with rfl | rfl
  · exact fits
  · exact fits'

private theorem forall₂_over_iff {n : Nat} {us shapes : List (Series (Value F))}
    (filled : FillsBlock q n us) (there : ∀ s ∈ shapes, 0 < s.size) :
    List.Forall₂ Over us shapes ↔
      ∀ k ≤ q, List.Forall₂ Fits (us.map (·.value k)) (shapes.map (·.value 0)) := by
  simp only [List.forall₂_map_left_iff, List.forall₂_map_right_iff]
  simp only [List.forall₂_iff_get]
  constructor
  · rintro ⟨count, shaped⟩ k low
    refine ⟨count, fun i below below' => (shaped i below below').fits ?_ ?_⟩
    · rw [filled.orders _ (List.get_mem us _)]
      omega
    · exact there _ (List.get_mem shapes _)
  · intro each
    refine ⟨(each 0 (Nat.zero_le q)).1, fun i below below' => ?_⟩
    exact over_of_fits (filled.orders _ (List.get_mem us _)) fun k low => (each k low).2 i below below'

end Shapes

/-- The product of two blocks at an order: the sum, over their series, of the products of the
elements, where the coefficients are first brought to the shapes of order zero. -/
def product {F : Type} [ExactScalar F] (shapes us vs : List (Series (Value F))) (k : Nat) :
    Except Error F := do
  inners (← shapes.mapM (·.coeff 0)) (← us.mapM (·.coeff k)) (← vs.mapM (·.coeff k))

end Series

namespace BuiltIn

section Values

variable {B F : Type} [Scalar F] [Base B F] {b : BuiltIn} {q k : Nat}

private theorem rowOf_eq_step {n : Nat} {ss : List (Series B)} (filled : FillsBlock q n ss)
    (low : k ≤ q) :
    b.rowOf n q (Block.join ss) k = b.step (ss.map (·.value 0)) (ss.map (·.value k)) := by
  rw [rowOf, Block.row_join filled q.zero_le, Series.mapM_coeff filled q.zero_le, ok_bind,
    Block.row_join filled low, Series.mapM_coeff filled low, ok_bind]

private theorem forward_values {n : Nat} {args known : List (Wire B)} {y : Nat → List B}
    (given : FillsBlock q n (args.map Wire.series))
    (room : FillsBlock q b.count (known.map Wire.series))
    (each : ∀ k ≤ q, b.step ((args.map Wire.series).map (·.value 0))
      ((args.map Wire.series).map (·.value k)) = .ok (y k)) :
    ∃ ys, b.atomic.forward 0 q args known = .ok (some ys) ∧
      FillsBlock q b.count (ys.map Wire.series) ∧
      ∀ k ≤ q, (ys.map Wire.series).map (·.value k) = y k := by
  have arity := Wire.size_flags given
  have count := Wire.size_flags room
  obtain ⟨next, done, size, -, computed⟩ | ⟨k, err, -, low, failed, -⟩ :=
    extend_cases count (Wire.size_block given) (Wire.size_block room) q.zero_le
  · have marked : (b.marks 0 (Wire.flags args) (Wire.flags known)).size = b.count :=
      (size_marks count 0).trans count
    obtain ⟨ys, back, filled, own, -⟩ :=
      Wire.exists_of_block (size.trans (Block.size_join room)) marked
    have length : known.length = b.count := by simpa using room.length
    refine ⟨ys, ?_, filled, fun k low => ?_⟩
    · rw [Atomic.forward, done, length]
      exact bind_eq_ok.2 ⟨_, rfl, bind_eq_ok.2 ⟨ys, back, rfl⟩⟩
    · obtain ⟨xs, rule, here⟩ := computed k k.zero_le low
      rw [arity, Wire.block, rowOf_eq_step given low, each k low] at rule
      obtain rfl := Except.ok.inj rule
      have read : Block.row b.count q (Block.join (ys.map Wire.series)) k = .ok (y k) :=
        Block.row_eq_ok.2 ⟨length_step (each k low), fun j inside =>
          (congrArg (·[Block.place j k q]?) own).trans (here j (count ▸ inside))⟩
      rw [Block.row_join filled low, Series.mapM_coeff filled low] at read
      exact Except.ok.inj read
  · rw [arity, Wire.block, rowOf_eq_step given low, each k low] at failed
    cases failed

/-- Partials that can be passed back at all orders are. -/
theorem reverse_values {args adjoints : List (Series B)} {p : Nat → List B} (ys : List (Series B))
    (long : ∀ x ∈ args, x.size = q + 1) (given : FillsBlock q b.count adjoints)
    (arity : ∀ k ≤ q, (p k).length = args.length)
    (each : ∀ k ≤ q, b.back (args.map (·.value 0)) (adjoints.map (·.value k)) = .ok (p k)) :
    ∃ px, b.atomic.reverse q args ys adjoints = .ok (some px) ∧ FillsBlock q args.length px ∧
      ∀ k ≤ q, px.map (·.value k) = p k := by
  have whole : ∀ block : List (Series B), (∀ s ∈ block, s.size = q + 1) →
      (block.map Series.value).map (.of · (q + 1)) = block := by
    intro block sized
    rw [List.map_map]
    exact (List.map_congr_left fun s member => (Series.eq_of_value (sized s member)).symm).trans
      (List.map_id block)
  have each : ∀ k < q + 1, b.back ((args.map Series.value).map (· 0))
      ((adjoints.map Series.value).map (· k)) = .ok (p k) := fun k below => by
    simpa [List.map_map, Function.comp_def] using each k (Nat.le_of_lt_succ below)
  have done := reverse_eq _ ((List.length_map _).trans given.length) each ys
  rw [whole args long, whole adjoints given.orders, List.length_map] at done
  refine ⟨_, done, ⟨by simp, fun s member => ?_⟩, fun k low => ?_⟩
  · obtain ⟨j, _, rfl⟩ := List.mem_map.1 member
    exact Series.size_of _ _
  · rw [List.map_map]
    refine (eq_map_range (arity k low) fun j below => ?_).symm
    have inside : j < (p k).length := (arity k low).symm ▸ below
    simp only [Function.comp_apply, Series.value_of low]
    rw [List.getElem?_eq_getElem inside, Option.getD_some]

end Values

variable {F : Type} [ExactScalar F]

/-- The reverse of a built-in is the transpose of its forward, order by order.  A call whose shapes
it accepts succeeds whenever the coefficients fit them, and so does the call back from any adjoints
that fit the shapes of the results; what goes back fits the arguments, and at every order its product
with their coefficients is the product of the adjoints with those of the results. -/
theorem call_transposed (b : BuiltIn) {q n : Nat} {args known : List (Wire (Value F))}
    (given : FillsBlock q n (args.map Wire.series))
    (room : FillsBlock q ((b.atomic : Atomic (Value F)).numResults n) (known.map Wire.series))
    (accepted : ∃ zs, b.atomic.alone args known 0 = .ok (some zs))
    (fits : ∀ x ∈ args, x.series.Over x.series) :
    ∃ ys, b.atomic.forward 0 q args known = .ok (some ys) ∧
      FillsBlock q ((b.atomic : Atomic (Value F)).numResults n) (ys.map Wire.series) ∧
      ∀ adjoints, FillsBlock q ((b.atomic : Atomic (Value F)).numResults n) adjoints →
        List.Forall₂ Series.Over adjoints (ys.map Wire.series) →
        ∃ px, b.atomic.reverse q (args.map Wire.series) (ys.map Wire.series) adjoints =
            .ok (some px) ∧
          FillsBlock q n px ∧ List.Forall₂ Series.Over px (args.map Wire.series) ∧
          ∀ k ≤ q, ∃ t,
            Series.product (ys.map Wire.series) adjoints (ys.map Wire.series) k = .ok t ∧
            Series.product (args.map Wire.series) px (args.map Wire.series) k = .ok t := by
  rw [numResults_atomic] at room ⊢
  have long : ∀ x ∈ args, x.series.size = q + 1 := fun x member =>
    given.orders _ (List.mem_map_of_mem member)
  have there : ∀ s ∈ args.map Wire.series, 0 < s.size := fun s member =>
    (given.orders s member).symm ▸ Nat.succ_pos q
  have coefficients : ∀ k ≤ q, List.Forall₂ Fits ((args.map Wire.series).map (·.value k))
      ((args.map Wire.series).map (·.value 0)) :=
    (Series.forall₂_over_iff given there).1 (List.forall₂_same.2 fun s member => by
      obtain ⟨x, among, rfl⟩ := List.mem_map.1 member
      exact fits x among)
  obtain ⟨y0, start⟩ : ∃ y0, b.step ((args.map Wire.series).map (·.value 0))
      ((args.map Wire.series).map (·.value 0)) = .ok y0 := by
    obtain ⟨zs, answered⟩ := accepted
    obtain ⟨_, _, _, y0, -, computed, _⟩ | ⟨err, -, refused⟩ := b.alone_cases q.zero_le given room
    · exact ⟨y0, rowOf_eq_step given q.zero_le ▸ computed⟩
    · rw [answered] at refused
      cases refused
  choose! y steps shaped back using fun k low => b.pairs start _ (coefficients k low)
  obtain ⟨ys, done, filled, values⟩ := forward_values given room steps
  have zero : y 0 = y0 := Except.ok.inj ((steps 0 (Nat.zero_le q)).symm.trans start)
  refine ⟨ys, done, filled, fun adjoints weighted overs => ?_⟩
  have weights : ∀ k ≤ q, List.Forall₂ Fits (adjoints.map (·.value k)) y0 := by
    have first := (Series.forall₂_over_iff weighted fun s member => by
      rw [filled.orders s member]
      exact Nat.succ_pos q).1 overs
    rwa [values 0 (Nat.zero_le q), zero] at first
  choose! p passed fits' _ same using fun k low => back k low _ (weights k low)
  obtain ⟨px, returned, sized, values'⟩ := reverse_values (ys.map Wire.series) given.orders weighted
    (fun k low => by simpa using (fits' k low).length_eq) passed
  rw [given.length] at sized
  refine ⟨px, returned, sized, ?_, fun k low => ⟨paired y0 (adjoints.map (·.value k)) (y k), ?_, ?_⟩⟩
  · refine (Series.forall₂_over_iff sized there).2 fun k low => ?_
    rw [values' k low]
    exact fits' k low
  · rw [Series.product, Series.mapM_coeff filled (Nat.zero_le q), ok_bind,
      Series.mapM_coeff weighted low, ok_bind, Series.mapM_coeff filled low, ok_bind, values k low,
      values 0 (Nat.zero_le q), zero]
    exact inners_eq (weights k low) (shaped k low)
  · rw [Series.product, Series.mapM_coeff given (Nat.zero_le q), ok_bind,
      Series.mapM_coeff sized low, ok_bind, Series.mapM_coeff given low, ok_bind, values' k low,
      ← same k low]
    exact inners_eq (fits' k low) (coefficients k low)

/-- A scalar joined to an array, whose coefficient of order one is a scalar that stands for both
elements; the adjoint of order zero is a scalar, too. -/
theorem call_transposed_concat :
    ∃ (ys : List (Wire (Value ℝ))) (px : List (Series (Value ℝ))) (t : ℝ),
      concat.atomic.forward 0 1 [⟨#[.scalar 2, .scalar 3], true⟩, ⟨#[.array [1, 4], .scalar 5], true⟩]
        [⟨#[.scalar 0, .scalar 0], true⟩] = .ok (some ys) ∧
      concat.atomic.reverse 1 [#[.scalar 2, .scalar 3], #[.array [1, 4], .scalar 5]]
        (ys.map Wire.series) [#[.scalar 6, .array [7, 8, 9]]] = .ok (some px) ∧
      Series.product (ys.map Wire.series) [#[.scalar 6, .array [7, 8, 9]]] (ys.map Wire.series) 1 =
        .ok t ∧
      Series.product [#[.scalar 2, .scalar 3], #[.array [1, 4], .scalar 5]] px
        [#[.scalar 2, .scalar 3], #[.array [1, 4], .scalar 5]] 1 = .ok t := by
  have given : FillsBlock 1 2 (([⟨#[.scalar 2, .scalar 3], true⟩,
      ⟨#[.array [1, 4], .scalar 5], true⟩] : List (Wire (Value ℝ))).map Wire.series) :=
    ⟨rfl, by simp⟩
  have room : FillsBlock 1 1 (([⟨#[.scalar 0, .scalar 0], true⟩] :
      List (Wire (Value ℝ))).map Wire.series) := ⟨rfl, by simp⟩
  have scalars : Series.Over #[.scalar 2, .scalar 3] (#[.scalar 2, .scalar 3] : Series (Value ℝ)) :=
    Series.over_pair rfl (.scalar _ _) (.scalar _ _)
  have arrays : Series.Over #[.array [1, 4], .scalar 5]
      (#[.array [1, 4], .scalar 5] : Series (Value ℝ)) :=
    Series.over_pair rfl (.array rfl) (.scalar _ _)
  obtain ⟨ys, done, _, back⟩ := call_transposed concat given room ⟨_, rfl⟩ (by
    simp [scalars, arrays])
  obtain rfl := Option.some.inj (Except.ok.inj done)
  obtain ⟨px, passed, _, _, same⟩ := back [#[.scalar 6, .array [7, 8, 9]]] ⟨rfl, by simp⟩
    (.cons (Series.over_pair rfl (.scalar _ _) (.array rfl)) .nil)
  obtain ⟨t, left, right⟩ := same 1 le_rfl
  exact ⟨_, px, t, rfl, passed, left, right⟩

end BuiltIn

end TaylorTape
