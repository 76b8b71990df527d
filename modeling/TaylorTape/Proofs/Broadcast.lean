import TaylorTape.Proofs.Exact
import TaylorTape.Base

/-!
Values that stand for elements on a shape.

A value fits a shape if it is a scalar, which stands for itself in every element, or has that shape.
Values that fit one shape combine element by element without failing.  The product of two values on
a shape sums the products of their elements, and what an array contributes to a scalar is its sum,
so that collapsing a contribution does not change its product with what is spread.
-/

set_option autoImplicit false
set_option relaxedAutoImplicit false

namespace TaylorTape

namespace Value

section Shapes

variable {F : Type}

/-- Two values of one shape. -/
inductive SameShape : Value F → Value F → Prop where
  | scalar (x y : F) : SameShape (.scalar x) (.scalar y)
  | array {xs ys : List F} (same : xs.length = ys.length) : SameShape (.array xs) (.array ys)

/-- A value that is a scalar or has a shape. -/
inductive Fits : Value F → Value F → Prop where
  | scalar (x : F) (s : Value F) : Fits (.scalar x) s
  | array {xs ys : List F} (same : xs.length = ys.length) : Fits (.array xs) (.array ys)

variable {s t u v : Value F}

theorem SameShape.refl (u : Value F) : u.SameShape u := by
  cases u with
  | scalar x => exact .scalar x x
  | array xs => exact .array rfl

theorem SameShape.symm (same : u.SameShape v) : v.SameShape u := by
  cases same with
  | scalar x y => exact .scalar y x
  | array same => exact .array same.symm

theorem SameShape.trans (same : u.SameShape s) (same' : s.SameShape t) : u.SameShape t := by
  cases same with
  | scalar x y =>
    cases same' with
    | scalar _ z => exact .scalar x z
  | array same =>
    cases same' with
    | array same' => exact .array (same.trans same')

theorem SameShape.length_eq (same : u.SameShape s) : u.length = s.length := by
  cases same with
  | scalar x y => rfl
  | array same => exact same

theorem SameShape.fits (same : u.SameShape s) : u.Fits s := by
  cases same with
  | scalar x y => exact .scalar x _
  | array same => exact .array same

theorem Fits.exists_scalar {y : F} (fits : u.Fits (.scalar y)) : ∃ x, u = .scalar x := by
  cases fits with
  | scalar x s => exact ⟨x, rfl⟩

theorem SameShape.map (f : F → F) (u : Value F) : (u.map f).SameShape u := by
  cases u with
  | scalar x => exact .scalar _ _
  | array xs => exact .array (List.length_map _)

theorem Fits.map (f : F → F) (fits : u.Fits s) : (u.map f).Fits s := by
  cases fits with
  | scalar x s => exact .scalar _ _
  | array same => exact .array ((List.length_map _).trans same)

theorem Fits.trans (fits : u.Fits s) (fits' : s.Fits t) : u.Fits t := by
  cases fits with
  | scalar x s => exact .scalar x t
  | array same =>
    cases fits' with
    | array same' => exact .array (same.trans same')

/-- What can be combined fits the shape of the outcome. -/
theorem fits_of_zipWith {context : String} {f : F → F → F}
    (done : zipWith context f u v = .ok s) : u.Fits s ∧ v.Fits s := by
  cases u with
  | scalar x =>
    cases v with
    | scalar y => exact ⟨.scalar x s, .scalar y s⟩
    | array ys =>
      obtain rfl := Except.ok.inj done
      exact ⟨.scalar x _, .array (List.length_map _).symm⟩
  | array xs =>
    cases v with
    | scalar y =>
      obtain rfl := Except.ok.inj done
      exact ⟨.array (List.length_map _).symm, .scalar y _⟩
    | array ys =>
      obtain ⟨same, rfl⟩ : xs.length = ys.length ∧ .array (List.zipWith f xs ys) = s := by
        by_cases same : xs.length = ys.length
        · exact ⟨same, Except.ok.inj ((if_pos same).symm.trans done)⟩
        · exact absurd ((if_neg same).symm.trans done) nofun
      have length : (List.zipWith f xs ys).length = ys.length := by
        rw [List.length_zipWith, same, Nat.min_self]
      exact ⟨.array (same.trans length.symm), .array length.symm⟩

theorem Fits.scalar_of_not_sameShape (fits : u.Fits s) (odd : ¬ u.SameShape s) :
    u.isScalar = true ∧ s.isScalar = false := by
  cases fits with
  | scalar x s =>
    cases s with
    | scalar y => exact absurd (.scalar x y) odd
    | array ys => exact ⟨rfl, rfl⟩
  | array same => exact absurd (.array same) odd

theorem sameShape_of_zipWith {context : String} {f : F → F → F}
    (done : zipWith context f u v = .ok s) : u.SameShape s ∨ v.SameShape s := by
  obtain ⟨left, right⟩ := fits_of_zipWith done
  cases left with
  | array same => exact .inl (.array same)
  | scalar x =>
    cases right with
    | array same => exact .inr (.array same)
    | scalar y =>
      obtain rfl := Except.ok.inj done
      exact .inl (.scalar x _)

end Shapes

section Components

variable {F : Type} [Zero F] {s u v : Value F} {e : Nat}

/-- The element that a value has at a position of what it stands for. -/
def component : Value F → Nat → F
  | .scalar x, _ => x
  | .array xs, e => (xs[e]?).getD 0

theorem component_array {xs : List F} (inside : e < xs.length) :
    (array xs).component e = xs[e] := by
  rw [component, List.getElem?_eq_getElem inside, Option.getD_some]

theorem component_replicate {n : Nat} (inside : e < n) (x : F) :
    (array (List.replicate n x)).component e = x := by
  rw [component_array (inside.trans_eq List.length_replicate.symm), List.getElem_replicate]

theorem component_map (f : F → F) (fits : u.Fits s) (inside : e < s.length) :
    (u.map f).component e = f (u.component e) := by
  cases fits with
  | scalar x s => rfl
  | array same =>
    have room := inside.trans_eq same.symm
    rw [Value.map, component_array room, component_array (room.trans_eq (List.length_map _).symm),
      List.getElem_map]

/-- Values of one shape are equal if they have the same elements. -/
theorem eq_of_component (left : u.SameShape s) (right : v.SameShape s)
    (same : ∀ e < s.length, u.component e = v.component e) : u = v := by
  cases left with
  | scalar x y =>
    cases right with
    | scalar z _ => exact congrArg scalar (same 0 Nat.one_pos)
  | array length =>
    cases right with
    | array length' =>
      refine congrArg array (List.ext_getElem (length.trans length'.symm) fun e low high => ?_)
      have inside := low.trans_eq length
      rw [← component_array low, ← component_array high, same e inside]

/-- Values that fit a shape combine element by element. -/
theorem zipWith_fits (context : String) (f : F → F → F) (left : u.Fits s) (right : v.Fits s) :
    ∃ w, zipWith context f u v = .ok w ∧ w.Fits s ∧
      (u.SameShape s ∨ v.SameShape s → w.SameShape s) ∧
      ∀ e < s.length, w.component e = f (u.component e) (v.component e) := by
  cases left with
  | scalar x s =>
    cases right with
    | scalar y s =>
      refine ⟨_, rfl, .scalar _ _, ?_, fun _ _ => rfl⟩
      rintro (same | same)
      · cases same with
        | scalar _ z => exact .scalar _ _
      · cases same with
        | scalar _ z => exact .scalar _ _
    | array same =>
      refine ⟨_, rfl, .array ((List.length_map _).trans same),
        fun _ => .array ((List.length_map _).trans same), fun e inside => ?_⟩
      have room := inside.trans_eq same.symm
      rw [component_array room, component_array (room.trans_eq (List.length_map _).symm),
        List.getElem_map]
      rfl
  | array same =>
    cases right with
    | scalar y s =>
      refine ⟨_, rfl, .array ((List.length_map _).trans same),
        fun _ => .array ((List.length_map _).trans same), fun e inside => ?_⟩
      have room := inside.trans_eq same.symm
      rw [component_array room, component_array (room.trans_eq (List.length_map _).symm),
        List.getElem_map]
      rfl
    | array same' =>
      rename_i xs ys zs
      have length : (List.zipWith f xs zs).length = ys.length := by
        rw [List.length_zipWith, same, same', Nat.min_self]
      refine ⟨_, if_pos (same.trans same'.symm), .array length, fun _ => .array length,
        fun e inside => ?_⟩
      rw [component_array (inside.trans_eq length.symm), component_array (inside.trans_eq same.symm),
        component_array (inside.trans_eq same'.symm), List.getElem_zipWith]

/-- What a value stands for on a shape that it fits. -/
structure Stands (s w : Value F) (f : Nat → F) : Prop where
  fits : w.Fits s
  parts : ∀ e < s.length, w.component e = f e

/-- What a value of a shape has there. -/
structure Fills (s w : Value F) (f : Nat → F) : Prop where
  shape : w.SameShape s
  parts : ∀ e < s.length, w.component e = f e

section Standing

variable {f g : Nat → F}

theorem Fits.stands (fits : u.Fits s) : s.Stands u u.component :=
  ⟨fits, fun _ _ => rfl⟩

theorem SameShape.fills (same : u.SameShape s) : s.Fills u u.component :=
  ⟨same, fun _ _ => rfl⟩

private theorem Fills.stands (fills : s.Fills u f) : s.Stands u f :=
  ⟨fills.shape.fits, fills.parts⟩

theorem Stands.congr (stands : s.Stands u f) (same : ∀ e < s.length, f e = g e) : s.Stands u g :=
  ⟨stands.fits, fun e inside => (stands.parts e inside).trans (same e inside)⟩

theorem Fills.congr (fills : s.Fills u f) (same : ∀ e < s.length, f e = g e) : s.Fills u g :=
  ⟨fills.shape, fun e inside => (fills.parts e inside).trans (same e inside)⟩

theorem Stands.map (h : F → F) (stands : s.Stands u f) : s.Stands (u.map h) fun e => h (f e) :=
  ⟨stands.fits.map h, fun e inside => by
    rw [component_map h stands.fits inside, stands.parts e inside]⟩

theorem Fills.map (h : F → F) (fills : s.Fills u f) : s.Fills (u.map h) fun e => h (f e) :=
  ⟨(SameShape.map h u).trans fills.shape, (fills.stands.map h).parts⟩

theorem Stands.zipWith (context : String) (h : F → F → F) (left : s.Stands u f)
    (right : s.Stands v g) :
    ∃ w, zipWith context h u v = .ok w ∧ s.Stands w fun e => h (f e) (g e) := by
  obtain ⟨w, done, fits, _, parts⟩ := zipWith_fits context h left.fits right.fits
  refine ⟨w, done, fits, fun e inside => ?_⟩
  rw [parts e inside, left.parts e inside, right.parts e inside]

theorem Fills.zipWith (context : String) (h : F → F → F) (left : s.Fills u f)
    (right : s.Stands v g) :
    ∃ w, zipWith context h u v = .ok w ∧ s.Fills w fun e => h (f e) (g e) := by
  obtain ⟨w, done, _, shape, parts⟩ := zipWith_fits context h left.shape.fits right.fits
  refine ⟨w, done, shape (.inl left.shape), fun e inside => ?_⟩
  rw [parts e inside, left.parts e inside, right.parts e inside]

theorem Stands.zipWith_fills (context : String) (h : F → F → F) (left : s.Stands u f)
    (right : s.Fills v g) :
    ∃ w, Value.zipWith context h u v = .ok w ∧ s.Fills w fun e => h (f e) (g e) := by
  obtain ⟨w, done, _, shape, parts⟩ := zipWith_fits context h left.fits right.shape.fits
  refine ⟨w, done, shape (.inr right.shape), fun e inside => ?_⟩
  rw [parts e inside, left.parts e inside, right.parts e inside]

end Standing

end Components

section Products

variable {F : Type} [RingScalar F] {s t u v : Value F}

theorem total_eq (xs : List F) : Scalar.total xs = xs.sum :=
  List.sum_eq_foldl.symm

theorem sum_eq_components (xs : List F) :
    xs.sum = ∑ e ∈ Finset.range xs.length, (array xs).component e := by
  induction xs with
  | nil => rfl
  | cons x xs ih =>
    rw [List.sum_cons, List.length_cons, Finset.sum_range_succ', add_comm, ih]
    rfl

/-- The product of two values on a shape. -/
def dot (s u v : Value F) : F :=
  ∑ e ∈ Finset.range s.length, u.component e * v.component e

theorem dot_scalar (x y z : F) : dot (.scalar x) (.scalar y) (.scalar z) = y * z := by
  show ∑ e ∈ Finset.range 1, y * z = _
  rw [Finset.sum_range_one]

theorem dot_zero_left (s v : Value F) : dot s (.scalar 0) v = 0 :=
  Finset.sum_eq_zero fun _ _ => zero_mul _

theorem dot_zero_right (s u : Value F) : dot s u (.scalar 0) = 0 :=
  Finset.sum_eq_zero fun _ _ => mul_zero _

/-- The sum of the products of the elements, where both values are first brought to the shape. -/
def inner (s u v : Value F) : Except Error F := do
  return (← Base.mul (← u.broadcastLike s) (← v.broadcastLike s)).sum

/-- A value that fits a shape is brought to it. -/
theorem broadcastLike_fits (fits : u.Fits s) :
    ∃ w, u.broadcastLike s = .ok w ∧ w.SameShape s ∧
      ∀ e < s.length, w.component e = u.component e := by
  cases fits with
  | scalar x s =>
    cases s with
    | scalar y => exact ⟨_, rfl, .scalar x y, fun _ _ => rfl⟩
    | array ys =>
      exact ⟨_, rfl, .array List.length_replicate, fun e inside => component_replicate inside x⟩
  | array same =>
    refine ⟨_, ?_, .array same, fun _ _ => rfl⟩
    show (if _ then _ else _ : Except Error (List F)).map _ = _
    rw [if_pos same]
    rfl

theorem sum_eq (same : u.SameShape s) :
    u.sum = ∑ e ∈ Finset.range s.length, u.component e := by
  cases same with
  | scalar x y =>
    show x = ∑ e ∈ Finset.range 1, x
    rw [Finset.sum_range_one]
  | array same =>
    rw [Value.sum, total_eq, sum_eq_components, same]
    rfl

theorem inner_eq (left : u.Fits s) (right : v.Fits s) : inner s u v = .ok (dot s u v) := by
  obtain ⟨u', spread, same, parts⟩ := broadcastLike_fits left
  obtain ⟨v', spread', same', parts'⟩ := broadcastLike_fits right
  obtain ⟨w, product, _, shape, parts''⟩ := zipWith_fits "mul" (· * ·) same.fits same'.fits
  have product : Base.mul u' v' = .ok w := product
  rw [inner, spread, ok_bind, spread', ok_bind, product, ok_bind]
  refine congrArg Except.ok
    ((sum_eq (shape (.inl same))).trans (Finset.sum_congr rfl fun e member => ?_))
  have inside := Finset.mem_range.1 member
  rw [parts'' e inside, parts e inside, parts' e inside]

/-- Collapsing a contribution does not change its product with what is spread. -/
theorem dot_reduceLike (same : u.SameShape t) (fits : s.Fits t) (fits' : v.Fits s) :
    (u.reduceLike s).SameShape s ∧ dot s (u.reduceLike s) v = dot t u v := by
  cases fits with
  | scalar x t =>
    cases fits' with
    | scalar y =>
      cases same with
      | scalar z _ => exact ⟨.scalar _ _, rfl⟩
      | array same =>
        rename_i xs ys
        refine ⟨.scalar _ _, ?_⟩
        show ∑ e ∈ Finset.range 1, Scalar.total xs * y = ∑ e ∈ Finset.range ys.length, _ * y
        rw [Finset.sum_range_one, total_eq, sum_eq_components, Finset.sum_mul, same]
  | array same' =>
    cases same with
    | array same =>
      refine ⟨.array (same.trans same'.symm), ?_⟩
      unfold dot
      rw [show (array _).length = (array _).length from same']
      rfl

theorem reduceLike_fits (fits : u.Fits s) : u.reduceLike s = u := by
  cases fits with
  | scalar x s => cases s <;> rfl
  | array same => rfl

end Products

section Zeros

variable {F : Type} [ExactScalar F] {s u : Value F}

/-- Partials that are all zero stand for zeros. -/
theorem component_of_isAllZero (fits : u.Fits s) (idle : Base.isAllZero u = true) {e : Nat}
    (inside : e < s.length) : u.component e = 0 := by
  have each := List.all_eq_true.1 idle
  cases fits with
  | scalar x s => exact (ExactScalar.beq_iff x 0).1 (each x (List.mem_singleton_self x))
  | array same =>
    have room := inside.trans_eq same.symm
    rw [component_array room]
    exact (ExactScalar.beq_iff _ 0).1 (each _ (List.getElem_mem room))

end Zeros

end Value

end TaylorTape
