import TaylorTape.Proofs.Identities
import TaylorTape.Proofs.Pullback

/-!
Differentials are linear over power series.

The differentials of a variable's coefficients form a power series too.  For every operation the
series of the result's differentials times one factor is the sum of those of the arguments times
others, up to the orders that are known, and the factors depend on the coefficients only, not on
their differentials.  For sums, products and quotients this is the rule of the ring; for the
elementary functions it solves the differential equation that their differentials satisfy.
-/

set_option autoImplicit false
set_option relaxedAutoImplicit false

namespace TaylorTape

open PowerSeries (mk constantCoeff coeff)
open Duals

section Euler

variable {F : Type} [ExactScalar F] {n : Nat} {p r r' u v : PowerSeries F}

private theorem coeff_mul_of_low {k : Nat} (low : ∀ j < k, coeff j u = 0) :
    coeff k (p * u) = constantCoeff p * coeff k u := by
  obtain ⟨g, rfl⟩ := PowerSeries.X_pow_dvd_iff.2 low
  rw [mul_left_comm, PowerSeries.coeff_X_pow_mul', PowerSeries.coeff_X_pow_mul', if_pos le_rfl,
    if_pos le_rfl, Nat.sub_self, PowerSeries.coeff_zero_eq_constantCoeff_apply,
    PowerSeries.coeff_zero_eq_constantCoeff_apply, map_mul]

private theorem euler_sub (f g : PowerSeries F) : euler (f - g) = euler f - euler g := by
  rw [euler, map_sub, mul_sub]
  rfl

private theorem euler_neg (f : PowerSeries F) : euler (-f) = -euler f := by
  rw [euler, map_neg, mul_neg]
  rfl

private theorem euler_mul (f g : PowerSeries F) : euler (f * g) = f * euler g + euler f * g := by
  rw [euler, Derivation.leibniz, smul_eq_mul, smul_eq_mul]
  unfold euler
  ring

@[simp] theorem constantCoeff_euler (f : PowerSeries F) : constantCoeff (euler f) = 0 := by
  simp [euler]

private theorem coeff_eq_zero_of_euler {k : Nat} (positive : 0 < k) (lead : constantCoeff p ≠ 0)
    (flat : constantCoeff r = 0) (low : ∀ j < k, coeff j u = 0) (low' : ∀ j < k, coeff j v = 0)
    (law : coeff k (p * euler u) = coeff k (r * v)) : coeff k u = 0 := by
  have lower : ∀ j < k, coeff j (euler u) = 0 := by
    intro j below
    rw [coeff_euler, low j below, mul_zero]
  rw [coeff_mul_of_low lower, coeff_mul_of_low low', coeff_euler, flat, zero_mul] at law
  have nonzero : (k : F) ≠ 0 := Nat.cast_ne_zero.2 (Nat.ne_of_gt positive)
  rcases mul_eq_zero.1 law with none | none
  · exact absurd none lead
  · exact (mul_eq_zero.1 none).resolve_left nonzero

private theorem vanish_of_euler (lead : constantCoeff p ≠ 0) (flat : constantCoeff r = 0)
    (flat' : constantCoeff r' = 0) (start : constantCoeff u = 0) (start' : constantCoeff v = 0)
    (law : SameBelow n (p * euler u) (r * v)) (law' : SameBelow n (p * euler v) (r' * u)) :
    SameBelow n u 0 ∧ SameBelow n v 0 := by
  have each : ∀ k < n, coeff k u = 0 ∧ coeff k v = 0 := by
    intro k
    induction k using Nat.strong_induction_on with
    | _ k ih =>
      intro below
      rcases Nat.eq_zero_or_pos k with rfl | positive
      · exact ⟨by simpa using start, by simpa using start'⟩
      · have low : ∀ j < k, coeff j u = 0 := fun j less => (ih j less (by omega)).1
        have low' : ∀ j < k, coeff j v = 0 := fun j less => (ih j less (by omega)).2
        exact ⟨coeff_eq_zero_of_euler positive lead flat low low' (sameBelow_iff.1 law k below),
          coeff_eq_zero_of_euler positive lead flat' low' low (sameBelow_iff.1 law' k below)⟩
  constructor
  · rw [sameBelow_iff]
    intro k below
    rw [(each k below).1, map_zero]
  · rw [sameBelow_iff]
    intro k below
    rw [(each k below).2, map_zero]

end Euler

/-- The power series of the infinitesimal parts of coefficients. -/
noncomputable abbrev Duals.differential {F : Type} [ExactScalar F] (a : Nat → DualNumber F) :
    PowerSeries F :=
  mk (shifts a)

section Operations

variable {F : Type} [ExactScalar F] {a b z : Nat → DualNumber F} {n : Nat}

theorem UnaryOp.reals_coefficient {op : UnaryOp} (each : ∀ k < n, z k = op.coefficient a z k) :
    ∀ k < n, reals z k = op.coefficient (reals a) (reals z) k := by
  intro k below
  rw [reals, each k below, fst_unary]

private theorem natCast_mul_sum_ratio {k : Nat} (positive : 0 < k) (f g f' g' : Nat → F) :
    (k : F) * ∑ j ∈ Finset.Ico 1 (k + 1), Scalar.ratio j k * (f j * g (k - j) + g' (k - j) * f' j) =
      coeff k (euler (mk f) * mk g + euler (mk f') * mk g') := by
  have nonzero : (k : F) ≠ 0 := Nat.cast_ne_zero.2 (Nat.ne_of_gt positive)
  rw [map_add, coeff_euler_mul, coeff_euler_mul, ← Finset.sum_add_distrib, Finset.mul_sum]
  refine Finset.sum_congr rfl fun j _ => ?_
  rw [ratio_eq]
  field_simp

private theorem exp_linearized (each : ∀ k < n, z k = UnaryOp.exp.coefficient a z k) :
    SameBelow n (differential z) (mk (reals z) * differential a) := by
  rcases Nat.eq_zero_or_pos n with rfl | positive
  · exact sameBelow_iff.2 nofun
  have law : SameBelow n (euler (differential z))
      (euler (mk (reals a)) * differential z + euler (differential a) * mk (reals z)) := by
    rw [sameBelow_iff]
    intro k below
    rw [coeff_euler, PowerSeries.coeff_mk]
    rcases Nat.eq_zero_or_pos k with rfl | above
    · simp
    · rw [shift_exp above (each k below), natCast_mul_sum_ratio above]
  have law' := exp_identity (UnaryOp.reals_coefficient each)
  have start := start_exp (each 0 positive)
  obtain ⟨f, rule⟩ := law
  obtain ⟨g, rule'⟩ := law'
  -- what the two sides differ by satisfies the equation of the exponential
  have equation : SameBelow n
      (1 * euler (differential z - mk (reals z) * differential a))
      (euler (mk (reals a)) * (differential z - mk (reals z) * differential a)) := by
    refine ⟨f - g * differential a, ?_⟩
    rw [euler_sub, euler_mul]
    linear_combination rule - differential a * rule'
  have none : constantCoeff (differential z - mk (reals z) * differential a) = 0 := by
    simpa [sub_eq_zero] using start
  have vanish := (vanish_of_euler (by simp) (by simp) (by simp) none none equation equation).1
  rw [SameBelow, sub_zero] at vanish
  exact vanish

private theorem ln_linearized (each : ∀ k < n, z k = UnaryOp.ln.coefficient a z k)
    (divisor : reals a 0 ≠ 0) :
    SameBelow n (mk (reals a) * differential z) (differential a) := by
  rcases Nat.eq_zero_or_pos n with rfl | positive
  · exact sameBelow_iff.2 nofun
  have law : SameBelow n (euler (differential z) * mk (reals a) + euler (mk (reals z)) * differential a)
      (euler (differential a)) := by
    rw [sameBelow_iff]
    intro k below
    rw [coeff_euler, PowerSeries.coeff_mk]
    rcases Nat.eq_zero_or_pos k with rfl | above
    · simp
    · have nonzero : (k : F) ≠ 0 := Nat.cast_ne_zero.2 (Nat.ne_of_gt above)
      have one : (Scalar.ratio k k : F) = 1 := by
        rw [ratio_eq, div_self nonzero]
      have own := shift_ln above (each k below) divisor
      rw [← natCast_mul_sum_ratio above, Finset.sum_Ico_succ_top above, Nat.sub_self, one]
      simp only [mul_comm (shifts a _) (reals z _)]
      linear_combination (k : F) * own
  have law' := ln_identity (UnaryOp.reals_coefficient each) divisor
  have start : reals a 0 * shifts z 0 = shifts a 0 := by
    rw [start_ln (each 0 positive)]
    exact mul_div_cancel₀ _ divisor
  obtain ⟨f, rule⟩ := law
  obtain ⟨g, rule'⟩ := law'
  have equation : SameBelow n
      (mk (reals a) * euler (mk (reals a) * differential z - differential a))
      (euler (mk (reals a)) * (mk (reals a) * differential z - differential a)) := by
    refine ⟨mk (reals a) * f - differential a * g, ?_⟩
    rw [euler_sub, euler_mul]
    linear_combination mk (reals a) * rule - differential a * rule'
  have none : constantCoeff (mk (reals a) * differential z - differential a) = 0 := by
    simpa [sub_eq_zero] using start
  have vanish := (vanish_of_euler (by simpa using divisor) (by simp) (by simp) none none equation
    equation).1
  rw [SameBelow, sub_zero] at vanish
  exact vanish

private theorem sqrt_linearized (each : ∀ k < n, z k = UnaryOp.sqrt.coefficient a z k)
    (divisor : reals z 0 ≠ 0) :
    SameBelow n (2 * mk (reals z) * differential z) (differential a) := by
  rw [sameBelow_iff]
  intro k below
  rw [mul_assoc, two_mul, map_add, ← two_mul, coeff_mul_mk, PowerSeries.coeff_mk]
  rcases Nat.eq_zero_or_pos k with rfl | above
  · rw [Finset.sum_range_one, start_sqrt (each 0 below)]
    field_simp
  · have own := shift_sqrt above (each k below) divisor
    have mirrored : ∑ j ∈ Finset.range (k + 1), reals z j * shifts z (k - j) =
        ∑ j ∈ Finset.range (k + 1), reals z (k - j) * shifts z j := by
      rw [← Finset.sum_range_reflect]
      refine Finset.sum_congr rfl fun j member => ?_
      have low := Finset.mem_range.1 member
      rw [show k + 1 - 1 - j = k - j by omega, Nat.sub_sub_self (by omega)]
    rw [mirrored, Finset.range_eq_Ico, Finset.sum_eq_sum_Ico_succ_bot (Nat.succ_pos k),
      Finset.sum_Ico_succ_top above, Nat.sub_self, Nat.sub_zero]
    linear_combination own

/-- The differentials of a sine are those of its argument times the cosine, and those of a cosine
the same times the sine, negated. -/
private theorem sinCos_linearized (a : Nat → DualNumber F) :
    (mk fun k => (sinCosTerm a k).1.snd) =
        (mk fun k => (sinCosTerm (reals a) k).2) * differential a ∧
      (mk fun k => (sinCosTerm a k).2.snd) =
        -(mk fun k => (sinCosTerm (reals a) k).1) * differential a := by
  have law : euler (mk fun k => (sinCosTerm a k).1.snd) =
      euler (mk (reals a)) * (mk fun k => (sinCosTerm a k).2.snd) +
        euler (differential a) * mk fun k => (sinCosTerm (reals a) k).2 := by
    ext k
    rw [coeff_euler, PowerSeries.coeff_mk]
    rcases Nat.eq_zero_or_pos k with rfl | above
    · simp
    · rw [(shift_sinCos a above).1]
      exact natCast_mul_sum_ratio above (reals a) (fun k => (sinCosTerm a k).2.snd) (shifts a)
        fun k => (sinCosTerm (reals a) k).2
  have law' : euler (mk fun k => (sinCosTerm a k).2.snd) =
      -(euler (mk (reals a)) * (mk fun k => (sinCosTerm a k).1.snd) +
        euler (differential a) * mk fun k => (sinCosTerm (reals a) k).1) := by
    ext k
    rw [coeff_euler, PowerSeries.coeff_mk, map_neg]
    rcases Nat.eq_zero_or_pos k with rfl | above
    · simp
    · rw [(shift_sinCos a above).2, mul_neg]
      exact congrArg Neg.neg (natCast_mul_sum_ratio above (reals a)
        (fun k => (sinCosTerm a k).1.snd) (shifts a) fun k => (sinCosTerm (reals a) k).1)
  have sine := euler_sin (reals a)
  have cosine := euler_cos (reals a)
  obtain ⟨start, start'⟩ := start_sinCos a
  set s : PowerSeries F := mk fun k => (sinCosTerm (reals a) k).1 with s_eq
  set c : PowerSeries F := mk fun k => (sinCosTerm (reals a) k).2 with c_eq
  set ds : PowerSeries F := mk fun k => (sinCosTerm a k).1.snd with ds_eq
  set dc : PowerSeries F := mk fun k => (sinCosTerm a k).2.snd with dc_eq
  -- what is missing from either rule is, in its Euler derivative, a multiple of the other
  have equation : 1 * euler (ds - c * differential a) =
      euler (mk (reals a)) * (dc - -s * differential a) := by
    rw [euler_sub, euler_mul, cosine, law]
    ring
  have equation' : 1 * euler (dc - -s * differential a) =
      -euler (mk (reals a)) * (ds - c * differential a) := by
    rw [euler_sub, euler_mul, euler_neg, sine, law']
    ring
  have none : constantCoeff (ds - c * differential a) = 0 := by
    simpa [ds_eq, c_eq, sub_eq_zero] using start
  have none' : constantCoeff (dc - -s * differential a) = 0 := by
    rw [map_sub, sub_eq_zero, map_mul, map_neg]
    simpa [dc_eq, s_eq] using start'
  have vanish : ∀ n, SameBelow n (ds - c * differential a) 0 ∧
      SameBelow n (dc - -s * differential a) 0 := fun n =>
    vanish_of_euler (p := 1) (by simp) (by simp) (by simp) none none'
      (sameBelow_iff.2 fun k _ => congrArg _ equation)
      (sameBelow_iff.2 fun k _ => congrArg _ equation')
  constructor
  · ext k
    have same := sameBelow_iff.1 (vanish (k + 1)).1 k (Nat.lt_succ_self k)
    rwa [map_sub, map_zero, sub_eq_zero] at same
  · ext k
    have same := sameBelow_iff.1 (vanish (k + 1)).2 k (Nat.lt_succ_self k)
    rwa [map_sub, map_zero, sub_eq_zero] at same

/-- The factor of the differentials of a result, for an operation of one argument. -/
noncomputable def UnaryOp.pivot (op : UnaryOp) (a z : Nat → F) : PowerSeries F :=
  match op with
  | .ln => mk a
  | .sqrt => mk z + mk z
  | .neg | .exp | .sin | .cos | .abs => 1

/-- The factor of the differentials of the argument. -/
noncomputable def UnaryOp.factor (op : UnaryOp) (a z : Nat → F) : PowerSeries F :=
  match op with
  | .neg => -1
  | .exp => mk z
  | .ln | .sqrt => 1
  | .sin => mk fun k => (sinCosTerm a k).2
  | .cos => -mk fun k => (sinCosTerm a k).1
  | .abs => PowerSeries.C (Scalar.sign (a 0))

theorem UnaryOp.pivot_ne_zero {op : UnaryOp} {a z : Nat → F} (regular : op.Regular (a 0) (z 0)) :
    constantCoeff (op.pivot a z) ≠ 0 := by
  cases op with
  | ln => simpa [pivot] using show a 0 ≠ 0 from regular
  | sqrt =>
    have root : z 0 ≠ 0 := regular
    rw [pivot, ← two_mul, map_mul, map_ofNat]
    simpa using root
  | neg | exp | sin | cos | abs => simp [pivot]

/-- The differentials of an operation of one argument are linear over power series. -/
theorem UnaryOp.linearized (op : UnaryOp) (each : ∀ k < n, z k = op.coefficient a z k)
    (regular : op.Regular (reals a 0) (reals z 0)) :
    SameBelow n (op.pivot (reals a) (reals z) * differential z)
      (op.factor (reals a) (reals z) * differential a) := by
  cases op with
  | neg =>
    rw [pivot, factor, one_mul, neg_one_mul, sameBelow_iff]
    intro k below
    rw [map_neg, PowerSeries.coeff_mk, PowerSeries.coeff_mk, shift_neg (each k below)]
  | abs =>
    rw [pivot, factor, one_mul, sameBelow_iff]
    intro k below
    rw [PowerSeries.coeff_C_mul, PowerSeries.coeff_mk, PowerSeries.coeff_mk,
      shift_abs (each k below)]
  | exp =>
    rw [pivot, factor, one_mul]
    exact exp_linearized each
  | ln =>
    rw [pivot, factor, one_mul]
    exact ln_linearized each regular
  | sqrt =>
    rw [pivot, factor, one_mul, ← two_mul]
    exact sqrt_linearized each regular
  | sin =>
    rw [pivot, factor, one_mul, ← (sinCos_linearized a).1, sameBelow_iff]
    intro k below
    rw [PowerSeries.coeff_mk, PowerSeries.coeff_mk, shifts, each k below, coefficient_sin]
  | cos =>
    rw [pivot, factor, one_mul, ← (sinCos_linearized a).2, sameBelow_iff]
    intro k below
    rw [PowerSeries.coeff_mk, PowerSeries.coeff_mk, shifts, each k below, coefficient_cos]

/-- The factor of the differentials of a result, for an operation of two arguments. -/
noncomputable def BinaryOp.pivot (op : BinaryOp) (b : Nat → F) : PowerSeries F :=
  match op with
  | .div => mk b
  | .add | .sub | .mul => 1

/-- The factor of the differentials of the first argument. -/
noncomputable def BinaryOp.factor (op : BinaryOp) (b : Nat → F) : PowerSeries F :=
  match op with
  | .add | .sub | .div => 1
  | .mul => mk b

/-- The factor of the differentials of the second argument. -/
noncomputable def BinaryOp.factor' (op : BinaryOp) (a z : Nat → F) : PowerSeries F :=
  match op with
  | .add => 1
  | .sub => -1
  | .mul => mk a
  | .div => -mk z

theorem BinaryOp.pivot_ne_zero {op : BinaryOp} {b : Nat → F} (regular : op.Regular (b 0)) :
    constantCoeff (op.pivot b) ≠ 0 := by
  cases op with
  | div => simpa [pivot] using show b 0 ≠ 0 from regular
  | add | sub | mul => simp [pivot]

/-- The differentials of an operation of two arguments are linear over power series. -/
theorem BinaryOp.linearized (op : BinaryOp) (each : ∀ k < n, z k = op.coefficient a b z k)
    (regular : op.Regular (reals b 0)) :
    SameBelow n (op.pivot (reals b) * differential z)
      (op.factor (reals b) * differential a +
        op.factor' (reals a) (reals z) * differential b) := by
  rw [sameBelow_iff]
  intro k below
  cases op with
  | add =>
    rw [pivot, factor, factor', one_mul, one_mul, one_mul]
    simp [shifts, each k below, coefficient]
  | sub =>
    rw [pivot, factor, factor', one_mul, one_mul, neg_one_mul]
    simp [shifts, each k below, coefficient, sub_eq_add_neg]
  | mul =>
    rw [pivot, factor, factor', one_mul, mul_comm (mk (reals b)), map_add, coeff_mul_mk,
      coeff_mul_mk, PowerSeries.coeff_mk, shifts, each k below, coefficient, snd_sum,
      ← Finset.sum_add_distrib]
    refine Finset.sum_congr rfl fun j _ => ?_
    rw [DualNumber.snd_mul, add_comm]
  | div =>
    have own := shift_div (each k below) regular
    rw [Finset.sum_add_distrib] at own
    rw [pivot, factor, factor', one_mul, neg_mul, mul_comm (mk (reals z)), map_add, map_neg,
      coeff_mul_mk, coeff_mul_mk, PowerSeries.coeff_mk, Finset.range_eq_Ico,
      Finset.sum_eq_sum_Ico_succ_bot (Nat.succ_pos k),
      Finset.sum_eq_sum_Ico_succ_bot (Nat.succ_pos k), Nat.sub_zero]
    simp only [mul_comm (shifts b _) (reals z _)]
    linear_combination own

end Operations

end TaylorTape
