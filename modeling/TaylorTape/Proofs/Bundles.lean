import Mathlib.Algebra.BigOperators.Field
import TaylorTape.Proofs.Broadcast
import TaylorTape.Proofs.Companions
import TaylorTape.Proofs.Lanes
import TaylorTape.Proofs.WellShaped

/-!
Bundles of elements, and the values that stand for them.

A bundle has one element for each of a number of places.  Its operations act place by place and
cannot fail, and it knows of no shapes: a tape over bundles is as many tapes over elements, run at
once.  A scalar stands for the bundle with that element at every place, an array of the right length
for the bundle of its elements.
-/

set_option autoImplicit false
set_option relaxedAutoImplicit false

namespace TaylorTape

open Value

variable {F : Type} {n : Nat}

/-- One element for each of a number of places. -/
abbrev Bundle (n : Nat) (F : Type) : Type :=
  Fin n → F

/-- Bundles as values of one shape, with operations that act place by place. -/
instance [Scalar F] : Base (Bundle n F) F where
  ofElem x := fun _ => x
  isScalar _ := true
  toList U := List.ofFn U
  ofList
    | [x] => .ok fun _ => x
    | xs => .error (.shapeMismatch "bundle base" 1 xs.length)
  map f U := fun i => f (U i)
  zipWith _ f U V := .ok fun i => f (U i) (V i)
  compare c U V := .ok ((List.finRange n).all fun i => c.holds (U i) (V i))
  sum U := Scalar.total (List.ofFn U)
  broadcastLike U _ := .ok U
  reduceLike U _ := U
  footprint width _ := width * n

namespace Value

/-- A scalar, or an array of some length. -/
def Spans (n : Nat) : Value F → Prop
  | .scalar _ => True
  | .array xs => xs.length = n

section Spreading

variable [Zero F] {u v : Value F}

/-- The bundle that a value stands for. -/
def spread (n : Nat) (u : Value F) : Bundle n F :=
  fun i => u.component i

private theorem Spans.fits (spans : u.Spans n) : u.Fits (.filled 0 n) := by
  cases u with
  | scalar x => exact .scalar x _
  | array xs => exact .array (spans.trans List.length_replicate.symm)

private theorem Fits.spans (fits : u.Fits (.filled (0 : F) n)) : u.Spans n := by
  cases u with
  | scalar x => trivial
  | array xs =>
    cases fits with
    | array same => exact same.trans List.length_replicate

omit [Zero F] in
private theorem length_filled (x : F) : (Value.filled x n).length = n :=
  List.length_replicate

private theorem Spans.zipWith (context : String) (f : F → F → F) (left : u.Spans n)
    (right : v.Spans n) :
    ∃ w, Value.zipWith context f u v = .ok w ∧ w.Spans n ∧
      (u.isScalar = false ∨ v.isScalar = false → w.isScalar = false) ∧
      ∀ i < n, w.component i = f (u.component i) (v.component i) := by
  obtain ⟨w, done, fits, _, parts⟩ := zipWith_fits context f left.fits right.fits
  refine ⟨w, done, fits.spans, fun array => ?_, fun i below =>
    parts i (below.trans_eq (length_filled 0).symm)⟩
  cases u with
  | scalar x =>
    cases v with
    | scalar y => cases array <;> contradiction
    | array ys =>
      obtain rfl := Except.ok.inj done
      rfl
  | array xs =>
    cases v with
    | scalar y =>
      obtain rfl := Except.ok.inj done
      rfl
    | array ys =>
      obtain rfl := Except.ok.inj ((if_pos (Eq.trans left (Eq.symm right))).symm.trans done)
      rfl

theorem Spans.map (f : F → F) (spans : u.Spans n) : (u.map f).Spans n ∧
    (u.map f).isScalar = u.isScalar ∧ ∀ i < n, (u.map f).component i = f (u.component i) := by
  refine ⟨(spans.fits.map f).spans, ?_, fun i below =>
    component_map f spans.fits (below.trans_eq (length_filled 0).symm)⟩
  cases u <;> rfl

theorem Spans.broadcastTo (spans : u.Spans n) :
    u.broadcastTo n = .ok ((List.range n).map u.component) := by
  cases u with
  | scalar x =>
    refine congrArg Except.ok ?_
    rw [show (scalar x).component = fun _ => x from rfl, List.map_const', List.length_range]
  | array xs =>
    obtain rfl : xs.length = n := spans
    refine (if_pos rfl).trans (congrArg Except.ok (eq_map_range rfl fun j below => ?_))
    rw [component_array below, List.getElem?_eq_getElem below]

end Spreading

variable [Scalar F]

theorem compatible_of_spans {u s : Value F} (left : u.Spans n) (right : s.Spans n)
    (plain : s.isScalar = true → u.isScalar = true) : Base.Compatible u s := by
  rw [compatible_iff]
  cases u with
  | scalar x => exact .inl rfl
  | array xs =>
    cases s with
    | scalar y => cases plain rfl
    | array ys => exact .inr ⟨xs, ys, rfl, rfl, Eq.trans left (Eq.symm right)⟩

theorem spread_homomorphism :
    Base.Homomorphism (Spans n) (spread n : Value F → Bundle n F) where
  zero := ⟨trivial, rfl⟩
  map h _ spans := ⟨(spans.map h).1, funext fun i => (spans.map h).2.2 i i.isLt⟩
  zipWith context h _ _ left right := by
    obtain ⟨w, done, spans, _, parts⟩ := left.zipWith context h right
    exact ⟨w, done, spans, congrArg Except.ok (funext fun i => (parts i i.isLt).symm)⟩

theorem component_homomorphism {i : Nat} (below : i < n) :
    Base.Homomorphism (Spans n) fun u : Value F => u.component i where
  zero := ⟨trivial, rfl⟩
  map h _ spans := ⟨(spans.map h).1, (spans.map h).2.2 i below⟩
  zipWith context h _ _ left right := by
    obtain ⟨w, done, spans, _, parts⟩ := left.zipWith context h right
    exact ⟨w, done, spans, congrArg Except.ok (parts i below).symm⟩

section Coefficients

variable {s u v : Value F} {U V : Bundle n F}

/-- A value that stands for a bundle, and is a scalar where its variable is one. -/
structure Unrolls (n : Nat) (s u : Value F) (U : Bundle n F) : Prop where
  spans : u.Spans n
  spread : u.spread n = U
  scalar : s.isScalar = true → ∃ x, u = .scalar x

private theorem respected_unrolls (s : Value F) : Respected fun _ => Unrolls n s where
  weaken unrolls _ := unrolls
  zero := ⟨trivial, rfl, fun _ => ⟨0, rfl⟩⟩
  map h unrolls := by
    obtain ⟨spans, rfl, scalar⟩ := unrolls
    obtain ⟨spans', same⟩ := spread_homomorphism.map h spans
    exact ⟨spans', same, fun plain => (scalar plain).elim fun x eq => ⟨h x, eq ▸ rfl⟩⟩
  zipWith {_ _ u v _ _} context h left right := by
    obtain ⟨spans, rfl, scalar⟩ := left
    obtain ⟨spans', rfl, scalar'⟩ := right
    obtain ⟨w, done, spans'', done'⟩ := spread_homomorphism.zipWith context h spans spans'
    refine ⟨w, _, done, done', spans'', rfl, fun plain => ?_⟩
    obtain ⟨x, rfl⟩ := scalar plain
    obtain ⟨y, rfl⟩ := scalar' plain
    exact ⟨h x y, (Except.ok.inj done).symm⟩

end Coefficients

end Value

section Partials

variable [ExactScalar F] {s u v : Value F} {U V : Bundle n F}

/-- A partial that has the elements of a bundle, and is an array unless it is zero. -/
structure Value.Whole (n : Nat) (u : Value F) (U : Bundle n F) : Prop where
  spans : u.Spans n
  spread : u.spread n = U
  full : u.isScalar = false ∨ u = .scalar 0

/-- A partial of a variable that stands for a bundle of partials: their sum where the variable is a
scalar, and their array where it is one. -/
def Value.Pools (n : Nat) (s u : Value F) (U : Bundle n F) : Prop :=
  match s with
  | .scalar _ => u = .scalar (∑ i, U i)
  | .array _ => u.Whole n U

private theorem linear_summed (x : F) :
    Linear (fun _ => Unrolls n (.scalar x)) fun _ u (U : Bundle n F) => u = .scalar (∑ i, U i) where
  weaken summed _ := summed
  zero := congrArg scalar Finset.sum_const_zero.symm
  negate summed := by
    rw [summed]
    exact congrArg scalar (Finset.sum_neg_distrib _).symm
  scale x summed := by
    rw [summed]
    exact congrArg scalar (Finset.sum_mul ..)
  add left right := by
    rw [left, right]
    exact ⟨_, _, rfl, rfl, congrArg scalar Finset.sum_add_distrib.symm⟩
  sub left right := by
    rw [left, right]
    exact ⟨_, _, rfl, rfl, congrArg scalar (Finset.sum_sub_distrib _ _).symm⟩
  mul left right := by
    obtain ⟨_, rfl, scalar⟩ := right
    obtain ⟨c, rfl⟩ := scalar rfl
    rw [left]
    exact ⟨_, _, rfl, rfl, congrArg Value.scalar (Finset.sum_mul ..)⟩
  mul' left right := by
    obtain ⟨_, rfl, scalar⟩ := left
    obtain ⟨c, rfl⟩ := scalar rfl
    rw [right]
    exact ⟨_, _, rfl, rfl, congrArg Value.scalar (Finset.mul_sum ..)⟩
  div left right := by
    obtain ⟨_, rfl, scalar⟩ := right
    obtain ⟨c, rfl⟩ := scalar rfl
    rw [left]
    exact ⟨_, _, rfl, rfl, congrArg Value.scalar (Finset.sum_div ..)⟩

theorem Value.Whole.map {h : F → F} (null : h 0 = 0) (whole : u.Whole n U) :
    (u.map h).Whole n fun i => h (U i) := by
  obtain ⟨spans, rfl, full⟩ := whole
  obtain ⟨spans', shape, parts⟩ := spans.map h
  refine ⟨spans', funext fun i => parts i i.isLt, full.imp shape.trans fun zero => ?_⟩
  rw [zero]
  exact congrArg scalar null

private theorem whole_zipWith {context : String} {h : F → F → F} (left : u.Spans n)
    (right : v.Spans n) (full : u.isScalar = false ∨ v.isScalar = false ∨
      ∃ x y, u = .scalar x ∧ v = .scalar y ∧ h x y = 0) :
    Both (Whole n) (Base.zipWith context h u v)
      (Base.zipWith context h (u.spread n) (v.spread n)) := by
  obtain ⟨w, done, spans, array, parts⟩ := left.zipWith context h right
  refine ⟨w, _, done, rfl, spans, funext fun i => parts i i.isLt, ?_⟩
  rcases full with whole | whole | ⟨x, y, rfl, rfl, null⟩
  · exact .inl (array (.inl whole))
  · exact .inl (array (.inr whole))
  · obtain rfl := Except.ok.inj done
    exact .inr (congrArg scalar null)

private theorem Value.Whole.zipWith {context : String} {h : F → F → F} (null : h 0 0 = 0)
    (left : u.Whole n U) (right : v.Whole n V) :
    Both (Whole n) (Base.zipWith context h u v) (Base.zipWith context h U V) := by
  obtain ⟨spans, rfl, full⟩ := left
  obtain ⟨spans', rfl, full'⟩ := right
  refine whole_zipWith spans spans' ?_
  rcases full with array | rfl
  · exact .inl array
  · rcases full' with array | rfl
    · exact .inr (.inl array)
    · exact .inr (.inr ⟨0, 0, rfl, rfl, null⟩)

private theorem Value.Whole.zipWith_left {context : String} {h : F → F → F} (null : ∀ y, h 0 y = 0)
    (left : u.Whole n U) (right : Unrolls n s v V) :
    Both (Whole n) (Base.zipWith context h u v) (Base.zipWith context h U V) := by
  obtain ⟨spans, rfl, full⟩ := left
  obtain ⟨spans', rfl, _⟩ := right
  refine whole_zipWith spans spans' (full.imp_right fun zero => ?_)
  cases v with
  | scalar y => exact .inr ⟨0, y, zero, rfl, null y⟩
  | array ys => exact .inl rfl

private theorem Value.Whole.zipWith_right {context : String} {h : F → F → F} (null : ∀ x, h x 0 = 0)
    (left : Unrolls n s u U) (right : v.Whole n V) :
    Both (Whole n) (Base.zipWith context h u v) (Base.zipWith context h U V) := by
  obtain ⟨spans, rfl, _⟩ := left
  obtain ⟨spans', rfl, full⟩ := right
  refine whole_zipWith spans spans' ?_
  rcases full with array | zero
  · exact .inr (.inl array)
  · cases u with
    | scalar x => exact .inr (.inr ⟨x, 0, rfl, zero, null x⟩)
    | array xs => exact .inl rfl

private theorem linear_whole (s : Value F) : Linear (fun _ => Unrolls n s) fun _ => Whole n where
  weaken whole _ := whole
  zero := ⟨trivial, rfl, .inr rfl⟩
  negate whole := whole.map neg_zero
  scale x whole := whole.map (zero_mul x)
  add left right := left.zipWith (add_zero 0) right
  sub left right := left.zipWith (sub_zero 0) right
  mul left right := left.zipWith_left zero_mul right
  mul' left right := right.zipWith_right mul_zero left
  div left right := left.zipWith_left zero_div right

private theorem linear_pools (s : Value F) : Linear (fun _ => Unrolls n s) fun _ => Pools n s :=
  match s with
  | .scalar x => linear_summed x
  | .array _ => linear_whole _

/-- The elements of a bundle in the shape of a variable: their array, or their sum for a scalar. -/
def Value.collected (shape : Value F) (xs : List F) : Value F :=
  match shape with
  | .scalar _ => .scalar (Scalar.total xs)
  | .array _ => .array xs

private theorem total_ofFn (U : Bundle n F) : Scalar.total (List.ofFn U) = ∑ i, U i := by
  rw [total_eq, List.sum_ofFn]

private theorem eq_ofFn_of_spread {xs : List F} (spans : (Value.array xs).Spans n)
    (spread : (Value.array xs).spread n = U) : xs = List.ofFn U := by
  obtain rfl : xs.length = n := spans
  subst spread
  refine List.ext_getElem List.length_ofFn.symm fun i low high => ?_
  rw [List.getElem_ofFn]
  exact (component_array low).symm

private theorem Value.Pools.reduceLike (pools : s.Pools n u U)
    (plain : s.isScalar = true → v.isScalar = true) : v.Pools n (u.reduceLike v) U := by
  cases s with
  | scalar x =>
    obtain rfl : u = .scalar (∑ i, U i) := pools
    cases v with
    | scalar y => rfl
    | array ys => cases plain rfl
  | array xs =>
    cases v with
    | array ys =>
      have whole : u.Whole n U := pools
      cases u <;> exact whole
    | scalar y =>
      obtain ⟨spans, spread, full⟩ := (pools : u.Whole n U)
      cases u with
      | scalar x =>
        obtain rfl : x = 0 := Value.scalar.inj (full.resolve_left Bool.noConfusion)
        show Value.scalar 0 = .scalar (∑ i, U i)
        rw [← spread]
        exact congrArg scalar Finset.sum_const_zero.symm
      | array zs =>
        show Value.scalar (Scalar.total zs) = .scalar (∑ i, U i)
        rw [eq_ofFn_of_spread spans spread, total_ofFn]

theorem Value.Whole.pools (whole : u.Whole n U) (array : s.isScalar = false) :
    s.Pools n (u.reduceLike s) U := by
  cases s with
  | scalar x => cases array
  | array xs => cases u <;> exact whole

private theorem Value.Pools.dull (pools : s.Pools n u U) (pools' : s.Pools n v V)
    (null : Base.isAllZero v = true) :
    ∃ W, Base.add U V = .ok W ∧ s.Pools n u W := by
  refine ⟨fun i => U i + V i, rfl, ?_⟩
  cases s with
  | scalar x =>
    obtain rfl : u = .scalar (∑ i, U i) := pools
    obtain rfl : v = .scalar (∑ i, V i) := pools'
    have zero : ∑ i, V i = 0 := isAllZero_iff_zero.1 null _ (List.mem_singleton_self _)
    exact congrArg scalar (by rw [Finset.sum_add_distrib, zero, add_zero])
  | array xs =>
    obtain ⟨spans, rfl, _⟩ := (pools' : v.Whole n V)
    have whole : u.Whole n U := pools
    have same : (fun i => U i + v.spread n i) = U := funext fun i => by
      rw [spread, component_of_isAllZero spans.fits null (i.isLt.trans_eq (length_filled 0).symm),
        add_zero]
    show u.Whole n fun i => U i + v.spread n i
    rwa [same]

/-- Partials of a variable are delivered in its shape. -/
theorem Value.Pools.deliver (spans : s.Spans n) (pools : s.Pools n u U) :
    Value.broadcastLike (u.reduceLike s) s = .ok (s.collected (List.ofFn U)) := by
  cases s with
  | scalar x =>
    obtain rfl : u = .scalar (∑ i, U i) := pools
    rw [Value.collected, total_ofFn]
    rfl
  | array xs =>
    obtain ⟨spans', spread, full⟩ := (pools : u.Whole n U)
    obtain rfl : xs.length = n := spans
    have same : (List.range xs.length).map u.component = List.ofFn U := by
      rw [← spread]
      exact (eq_map_range List.length_ofFn fun i below => by
        rw [List.getElem?_ofFn, dif_pos below]; rfl).symm
    have whole : u.reduceLike (.array xs) = u := by cases u <;> rfl
    rw [whole, Value.collected, ← same]
    exact congrArg (Except.map Value.array) spans'.broadcastTo

end Partials

namespace Evaluator

variable [ExactScalar F]

/-- An evaluator of arrays and the evaluator of the bundles that they stand for. -/
theorem companions_of_spread {q m r id' : Nat} {e : Evaluator (Value F)}
    {e' : Evaluator (Bundle n F)} (imaged : Imaged (Spans n) (spread n) id' m r e e')
    (shaped : e.WellShaped q 1) (low : q ≤ m) (positive : 0 < r) :
    Companions (fun v => Unrolls n (e.table.value v 0 0)) (fun v => Pools n (e.table.value v 0 0)) q
      e e' where
  positive := shaped.positive
  left := imaged.wellFormed
  right := imaged.wellFormed'
  elementary i entry found := imaged.lies.elementary found
  size := imaged.size
  entries i := by rw [imaged.tape, Tape.entry_image]
  orders := shaped.orders
  orders' := low.trans (imaged.orders (shaped.positive.trans_le low)).2.ge
  respected v := respected_unrolls _
  linear v := linear_pools _
  coefficient v inside k below := {
    spans := imaged.meant v inside k (below.trans_le low) 0 positive
    spread := (imaged.values v inside k (below.trans_le low) 0 positive).symm
    scalar := fun plain => by
      have scalar := (shaped.compatible v inside k below 0 Nat.one_pos).isScalar plain
      cases c : e.table.value v k 0 with
      | scalar x => exact ⟨x, rfl⟩
      | array xs => rw [c] at scalar; cases scalar }
  operand i entry found a reads u u' unrolls := by
    obtain ⟨x, solves⟩ := shaped.solves
    exact ⟨unrolls.spans, unrolls.spread, fun plain => unrolls.scalar ((solves.compatible_operand
      found (fun _ _ _ call => imaged.lies.not_call (call ▸ found)) reads).isScalar plain)⟩
  collapse i entry found a reads u u' pools := by
    obtain ⟨x, solves⟩ := shaped.solves
    exact pools.reduceLike fun plain => (solves.compatible_operand found
      (fun _ _ _ call => imaged.lies.not_call (call ▸ found)) reads).isScalar plain
  dull v u u' x x' pools pools' null := pools.dull pools' null

/-- The evaluator of the elements at a place and the evaluator of bundles. -/
theorem companions_of_component {q : Nat} {e : Evaluator F} {e' : Evaluator (Bundle n F)}
    (i : Fin n) (positive : 0 < q) (wf : e.WellFormed) (wf' : e'.WellFormed)
    (elementary : ∀ i entry, e.tape.entry i = .ok entry → entry.Elementary)
    (size : e'.tape.size = e.tape.size) (entries : ∀ i, e'.tape.entry i = e.tape.entry i)
    (orders : q ≤ e.numOrders) (orders' : q ≤ e'.numOrders)
    (coefficient : ∀ v < e.tape.size, ∀ k < q, e'.table.value v k 0 i = e.table.value v k 0) :
    Companions (fun _ x U => U i = x) (fun _ x U => U i = x) q e e' :=
  have respected : Respected fun _ (x : F) (U : Bundle n F) => U i = x := {
    weaken := fun same _ => same
    zero := rfl
    map := fun h same => congrArg h same
    zipWith := fun _ h left right => ⟨_, _, rfl, rfl, congrArg₂ h left right⟩ }
  { positive, left := wf, right := wf', elementary, size, entries, orders, orders', coefficient
    respected := fun _ => respected
    linear := fun _ => respected.linear
    operand := fun _ _ _ _ _ _ _ same => same
    collapse := fun _ _ _ _ _ _ _ same => same
    dull := fun _ u u' x x' same same' null => ⟨fun j => u' j + x' j, rfl, by
      obtain rfl : x = 0 := isAllZero_iff_zero.1 null x (List.mem_singleton_self x)
      show u' i + x' i = u
      rw [same, same', add_zero]⟩ }

end Evaluator

end TaylorTape
