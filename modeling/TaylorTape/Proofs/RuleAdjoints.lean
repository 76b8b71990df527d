import TaylorTape.Proofs.Hessian
import TaylorTape.Proofs.Reals
import TaylorTape.Proofs.SeriesReading

/-!
A backward rule is the adjoint of the differential of its forward rule.

The forward rule of an operation makes a series order by order.  Over dual numbers it makes the
differential of that series beside it.  Whatever the partials of the result are, and whatever the
arguments have been given already, the backward rule adds to the partials of the arguments amounts
that pair with every perturbation of the arguments as the partials of the result pair with the
perturbation of the result.
-/

set_option autoImplicit false
set_option relaxedAutoImplicit false

namespace TaylorTape

section Rules

variable {B F : Type} [Scalar F] [Base B F]

/-- The series that a rule makes from nothing, each coefficient from those before it. -/
def Series.grow (rule : Series B → Except Error B) (n : Nat) : Except Error (Series B) :=
  (List.range n).foldlM (fun z _ => do return z.push (← rule z)) #[]

/-- The series that an operation makes of a series order by order; an order is made from the orders
of the argument up to its own. -/
def UnaryOp.grow (op : UnaryOp) (a : Series B) : Except Error (Series B) :=
  Series.grow (fun z => op.next (a.take (z.size + 1)) z) a.size

/-- The series that an operation makes of two series order by order. -/
def BinaryOp.grow (op : BinaryOp) (a b : Series B) : Except Error (Series B) :=
  Series.grow (fun z => op.next (a.take (z.size + 1)) (b.take (z.size + 1)) z) a.size

omit [Scalar F] [Base B F] in
private theorem Series.grow_of {rule : Series B → Except Error B} {z : Nat → B} {n : Nat}
    (each : ∀ k < n, rule (.of z k) = .ok (z k)) : Series.grow rule n = .ok (.of z n) := by
  unfold grow
  rw [List.range_eq_range']
  refine foldlM_eq (fun k => .of z k) rfl (fun k _ high => ?_) (by rw [Nat.zero_add])
  rw [each k (by omega), ok_bind, of_succ]
  rfl

omit [Scalar F] [Base B F] in
private theorem Series.eq_of_of_eq {f g : Nat → B} {n k : Nat} (same : Series.of f n = .of g n)
    (below : k < n) : f k = g k := by
  have read := congrArg (·[k]?) same
  simpa only [getElem?_of, if_pos below, Option.some.injEq] using read

end Rules

section Elements

variable {F : Type} [RingScalar F]

private theorem UnaryOp.grow_of (op : UnaryOp) (a : Nat → F) (n : Nat) :
    op.grow (.of a n) = .ok (.of (op.series a) n) := by
  unfold grow
  rw [Series.size_of]
  refine Series.grow_of fun k below => ?_
  rw [Series.size_of, Series.take_of a below, next_unary_of, ← op.series_eq]

private theorem BinaryOp.grow_of (op : BinaryOp) (a b : Nat → F) (n : Nat) :
    op.grow (.of a n) (.of b n) = .ok (.of (op.series a b) n) := by
  unfold grow
  rw [Series.size_of]
  refine Series.grow_of fun k below => ?_
  rw [Series.size_of, Series.take_of a below, Series.take_of b below, next_binary_of,
    ← op.series_eq]

end Elements

open Series Duals

section Adjoints

variable {F : Type} [ExactScalar F]

/-- Coefficients with perturbations beside them. -/
abbrev Duals.vary (a da : Nat → F) : Nat → DualNumber F :=
  fun k => perturb (a k) (da k)

private theorem UnaryOp.fst_series (op : UnaryOp) (a : Nat → DualNumber F) :
    reals (op.series a) = op.series (reals a) := by
  funext k
  induction k using Nat.strong_induction_on with
  | h k ih =>
    show (op.series a k).fst = _
    rw [op.series_eq, op.series_eq, fst_unary]
    exact op.coefficient_congr (fun _ _ => rfl) ih

private theorem BinaryOp.fst_series (op : BinaryOp) (a b : Nat → DualNumber F) :
    reals (op.series a b) = op.series (reals a) (reals b) := by
  funext k
  induction k using Nat.strong_induction_on with
  | h k ih =>
    show (op.series a b k).fst = _
    rw [op.series_eq, op.series_eq, fst_binary]
    exact op.coefficient_congr (fun _ _ => rfl) (fun _ _ => rfl) ih

private theorem pairing_sub (n : Nat) (p r d : Nat → F) :
    ∑ j ∈ Finset.range n, (p j - r j) * d j = pairing n p d - pairing n r d := by
  rw [pairing, pairing, ← Finset.sum_sub_distrib]
  exact Finset.sum_congr rfl fun j _ => sub_mul _ _ _

private theorem UnaryOp.adjoint_from (op : UnaryOp) {n : Nat} (positive : 0 < n) (a pz pa : Nat → F)
    (regular : op.Regular (a 0) (op.series a 0)) :
    ∃ pa', op.pullback (.of a n) (.of (op.series a) n) (.of pz n) (.of pa n) = .ok (.of pa' n) ∧
      ∀ da : Nat → F, ∑ j ∈ Finset.range n, (pa' j - pa j) * da j =
        pairing n pz (shifts (op.series (vary a da))) := by
  have passed : ∀ da : Nat → F, ∃ pa',
      op.pullback (.of a n) (.of (op.series a) n) (.of pz n) (.of pa n) = .ok (.of pa' n) ∧
        pairing n pa' da =
          pairing n pa da + pairing n pz (shifts (op.series (vary a da))) :=
    fun da => by
      have own : reals (op.series (vary a da)) = op.series a := op.fst_series _
      have rule := op.pullback_from (a := vary a da) positive (fun k _ => op.series_eq _ k)
        (fun _ => own ▸ regular) pz pa
      rwa [own] at rule
  obtain ⟨pa', done, _⟩ := passed fun _ => 0
  refine ⟨pa', done, fun da => ?_⟩
  obtain ⟨pa'', done', sum⟩ := passed da
  have same : ∀ j < n, pa' j = pa'' j := fun j =>
    eq_of_of_eq (Except.ok.inj (done.symm.trans done'))
  rw [pairing_sub, pairing_congr same, sum, add_sub_cancel_left]

private theorem BinaryOp.adjoint_from (op : BinaryOp) {n : Nat} (positive : 0 < n)
    (a b pz pa pb : Nat → F) (regular : op.Regular (b 0)) :
    ∃ pa' pb', op.pullback (.of a n) (.of b n) (.of (op.series a b) n) (.of pz n) (.of pa n)
        (.of pb n) = .ok (.of pa' n, .of pb' n) ∧
      ∀ da db : Nat → F, ∑ j ∈ Finset.range n, (pa' j - pa j) * da j +
          ∑ j ∈ Finset.range n, (pb' j - pb j) * db j =
        pairing n pz (shifts (op.series (vary a da) (vary b db))) := by
  have passed : ∀ da db : Nat → F, ∃ pa' pb',
      op.pullback (.of a n) (.of b n) (.of (op.series a b) n) (.of pz n) (.of pa n) (.of pb n) =
        .ok (.of pa' n, .of pb' n) ∧
        pairing n pa' da + pairing n pb' db = pairing n pa da + pairing n pb db +
          pairing n pz (shifts (op.series (vary a da) (vary b db))) :=
    fun da db => by
      have own : reals (op.series (vary a da) (vary b db)) = op.series a b := op.fst_series _ _
      obtain ⟨_, done, pa', pb', rfl, sum⟩ := op.pullback_from (a := vary a da) (b := vary b db)
        positive (fun k _ => op.series_eq _ _ k) regular pz pa pb
      rw [own] at done
      exact ⟨pa', pb', done, sum⟩
  obtain ⟨pa', pb', done, _⟩ := passed (fun _ => 0) fun _ => 0
  refine ⟨pa', pb', done, fun da db => ?_⟩
  obtain ⟨pa'', pb'', done', sum⟩ := passed da db
  obtain ⟨left, right⟩ := Prod.mk.inj (Except.ok.inj (done.symm.trans done'))
  have same : ∀ j < n, pa' j = pa'' j := fun j => eq_of_of_eq left
  have same' : ∀ j < n, pb' j = pb'' j := fun j => eq_of_of_eq right
  rw [pairing_sub, pairing_sub, pairing_congr same, pairing_congr same']
  linear_combination sum

private theorem UnaryOp.grow_vary (op : UnaryOp) (a da : Nat → F) (n : Nat) :
    op.grow (.of (vary a da) n) =
      .ok (.of (vary (op.series a) (shifts (op.series (vary a da)))) n) := by
  rw [op.grow_of]
  refine congrArg _ (of_congr fun k _ => TrivSqZeroExt.ext ?_ rfl)
  exact congrFun (op.fst_series _) k

private theorem BinaryOp.grow_vary (op : BinaryOp) (a b da db : Nat → F) (n : Nat) :
    op.grow (.of (vary a da) n) (.of (vary b db) n) =
      .ok (.of (vary (op.series a b) (shifts (op.series (vary a da) (vary b db)))) n) := by
  rw [op.grow_of]
  refine congrArg _ (of_congr fun k _ => TrivSqZeroExt.ext ?_ rfl)
  exact congrFun (op.fst_series _ _) k

private theorem UnaryOp.shift_zero (op : UnaryOp) (a da : Nat → F)
    (regular : op.Regular (a 0) (op.series a 0)) :
    shifts (op.series (vary a da)) 0 = op.slope (a 0) (op.series a 0) * da 0 := by
  have own : reals (op.series (vary a da)) = op.series a := op.fst_series _
  have regular' : op.Regular (reals (vary a da) 0) (reals (op.series (vary a da)) 0) := own ▸ regular
  have rule := (op.differentials (fun k _ => op.series_eq _ k) regular').1
  rwa [own] at rule

private theorem BinaryOp.shift_zero (op : BinaryOp) (a b da db : Nat → F)
    (regular : op.Regular (b 0)) :
    shifts (op.series (vary a da) (vary b db)) 0 =
      op.slope (b 0) * da 0 + op.slope' (a 0) (b 0) (op.series a b 0) * db 0 := by
  have own : reals (op.series (vary a da) (vary b db)) = op.series a b := op.fst_series _ _
  have rule := (op.differentials (a := vary a da) (b := vary b db) (fun k _ => op.series_eq _ _ k)
    regular).1
  rwa [own] at rule

/-- For every operation and every number of orders the forward rule makes a series `z` of the
arguments.  The backward rule, given any partials `pz` of the result, adds to the partials of the
arguments amounts that, paired with any perturbation of the arguments, give what `pz` gives with the
perturbation `dz` that the forward rule makes of it over dual numbers.  At order zero `dz` is what
the derivatives of calculus give, where the absolute value has the sign; the logarithm, the square
root and the quotient are asked for this only where they have them. -/
theorem pullback_is_adjoint (q : Nat) :
    (∀ (op : UnaryOp) (a pz pa : Nat → F), ∃ z : Nat → F,
      op.grow (.of a (q + 1)) = .ok (.of z (q + 1)) ∧
      (op.Regular (a 0) (z 0) → ∃ pa' : Nat → F,
        op.pullback (.of a (q + 1)) (.of z (q + 1)) (.of pz (q + 1)) (.of pa (q + 1)) =
          .ok (.of pa' (q + 1)) ∧
        ∀ da : Nat → F, ∃ dz : Nat → F,
          op.grow (.of (vary a da) (q + 1)) = .ok (.of (vary z dz) (q + 1)) ∧
          dz 0 = op.slope (a 0) (z 0) * da 0 ∧
          ∑ j ∈ Finset.range (q + 1), (pa' j - pa j) * da j =
            ∑ k ∈ Finset.range (q + 1), pz k * dz k)) ∧
    ∀ (op : BinaryOp) (a b pz pa pb : Nat → F), ∃ z : Nat → F,
      op.grow (.of a (q + 1)) (.of b (q + 1)) = .ok (.of z (q + 1)) ∧
      (op.Regular (b 0) → ∃ pa' pb' : Nat → F,
        op.pullback (.of a (q + 1)) (.of b (q + 1)) (.of z (q + 1)) (.of pz (q + 1))
          (.of pa (q + 1)) (.of pb (q + 1)) = .ok (.of pa' (q + 1), .of pb' (q + 1)) ∧
        ∀ da db : Nat → F, ∃ dz : Nat → F,
          op.grow (.of (vary a da) (q + 1)) (.of (vary b db) (q + 1)) =
            .ok (.of (vary z dz) (q + 1)) ∧
          dz 0 = op.slope (b 0) * da 0 + op.slope' (a 0) (b 0) (z 0) * db 0 ∧
          ∑ j ∈ Finset.range (q + 1), (pa' j - pa j) * da j +
              ∑ j ∈ Finset.range (q + 1), (pb' j - pb j) * db j =
            ∑ k ∈ Finset.range (q + 1), pz k * dz k) := by
  constructor
  · intro op a pz pa
    refine ⟨op.series a, op.grow_of a _, fun regular => ?_⟩
    obtain ⟨pa', done, sum⟩ := op.adjoint_from q.succ_pos a pz pa regular
    exact ⟨pa', done, fun da =>
      ⟨_, op.grow_vary a da _, op.shift_zero a da regular, sum da⟩⟩
  · intro op a b pz pa pb
    refine ⟨op.series a b, op.grow_of a b _, fun regular => ?_⟩
    obtain ⟨pa', pb', done, sum⟩ := op.adjoint_from q.succ_pos a b pz pa pb regular
    exact ⟨pa', pb', done, fun da db =>
      ⟨_, op.grow_vary a b da db _, op.shift_zero a b da db regular, sum da db⟩⟩

end Adjoints

/-- The logarithm at two, and a quotient by two, with two orders. -/
theorem pullback_is_adjoint_at_two :
    (∃ z pa' : Nat → ℝ, UnaryOp.ln.grow (.of (fun _ => 2) 2) = .ok (.of z 2) ∧
      UnaryOp.ln.pullback (.of (fun _ => 2) 2) (.of z 2) (.of (fun _ => 1) 2)
        (.of (fun _ => 3) 2) = .ok (.of pa' 2) ∧
      ∀ da : Nat → ℝ, ∃ dz : Nat → ℝ,
        UnaryOp.ln.grow (.of (vary (fun _ => 2) da) 2) = .ok (.of (vary z dz) 2) ∧
        ∑ j ∈ Finset.range 2, (pa' j - 3) * da j = ∑ k ∈ Finset.range 2, 1 * dz k) ∧
    ∃ z pa' pb' : Nat → ℝ,
      BinaryOp.div.grow (.of (fun _ => 1) 2) (.of (fun _ => 2) 2) = .ok (.of z 2) ∧
      BinaryOp.div.pullback (.of (fun _ => 1) 2) (.of (fun _ => 2) 2) (.of z 2)
        (.of (fun _ => 1) 2) (.of (fun _ => 3) 2) (.of (fun _ => 3) 2) =
          .ok (.of pa' 2, .of pb' 2) := by
  obtain ⟨unary, binary⟩ := pullback_is_adjoint (F := ℝ) 1
  constructor
  · obtain ⟨z, grown, adjoint⟩ := unary .ln (fun _ => 2) (fun _ => 1) fun _ => 3
    have nonzero : UnaryOp.ln.Regular (2 : ℝ) (z 0) := two_ne_zero
    obtain ⟨pa', done, pairs⟩ := adjoint nonzero
    refine ⟨z, pa', grown, done, fun da => ?_⟩
    obtain ⟨dz, varied, _, sum⟩ := pairs da
    exact ⟨dz, varied, sum⟩
  · obtain ⟨z, grown, adjoint⟩ :=
      binary .div (fun _ => 1) (fun _ => 2) (fun _ => 1) (fun _ => 3) fun _ => 3
    have nonzero : BinaryOp.div.Regular (2 : ℝ) := two_ne_zero
    obtain ⟨pa', pb', done, _⟩ := adjoint nonzero
    exact ⟨z, pa', pb', grown, done⟩

end TaylorTape
