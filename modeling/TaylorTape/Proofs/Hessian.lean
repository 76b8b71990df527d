import TaylorTape.Proofs.OrderShift
import TaylorTape.Proofs.Slopes
import TaylorTape.Evaluator.Derivatives

/-!
Products with the Hessian are consistent with the second order of a forward sweep.

At a point every variable has a first derivative, which is a linear form on the directions, and a
second one, which is a symmetric bilinear form.  Through order two the recurrences of an operation
are the rules for the two derivatives of a composition.  So a sweep through order two finds the first
derivative along a direction and half the second one, and the differentials of its coefficients at
another direction find the mixed values.  The product with a Hessian consists of those values at the
unit directions.
-/

set_option autoImplicit false
set_option relaxedAutoImplicit false

namespace TaylorTape

open Duals

section Operations

variable {F : Type} [ExactScalar F] {a b z : Nat → DualNumber F}

/-- The curvature of an operation of one argument at an element, given its result. -/
def UnaryOp.curvature (op : UnaryOp) (a z : F) : F :=
  match op with
  | .neg | .abs => 0
  | .exp => z
  | .ln => -(1 / (a * a))
  | .sqrt => -(1 / (4 * (z * z * z)))
  | .sin => -Scalar.sin a
  | .cos => -Scalar.cos a

/-- The mixed curvature of an operation of two arguments. -/
def BinaryOp.mixed (op : BinaryOp) (b : F) : F :=
  match op with
  | .add | .sub => 0
  | .mul => 1
  | .div => -(1 / (b * b))

/-- The curvature of an operation of two arguments in its second argument, given its result; in the
first argument there is none. -/
def BinaryOp.curvature (op : BinaryOp) (b z : F) : F :=
  match op with
  | .add | .sub | .mul => 0
  | .div => (z + z) / (b * b)

private theorem ratio_last : (Scalar.ratio 2 2 : F) = 1 := by
  rw [ratio_eq]
  norm_num

private theorem sum_order_one {M : Type} [AddCommMonoid M] (f : Nat → M) :
    ∑ j ∈ Finset.Ico 1 2, f j = f 1 := by
  simp

private theorem sum_order_two {M : Type} [AddCommMonoid M] (f : Nat → M) :
    ∑ j ∈ Finset.Ico 1 3, f j = f 1 + f 2 := by
  rw [Finset.sum_Ico_succ_top (by omega), sum_order_one]

/-- The recurrences of an operation of one argument through order two. -/
private theorem UnaryOp.coefficients (op : UnaryOp) {a z : Nat → F}
    (each : ∀ k < 3, z k = op.coefficient a z k) (regular : op.Regular (a 0) (z 0)) :
    z 1 = op.slope (a 0) (z 0) * a 1 ∧
    2 * z 2 = op.slope (a 0) (z 0) * (2 * a 2) + op.curvature (a 0) (z 0) * (a 1 * a 1) := by
  have one : z 1 = op.coefficient a z 1 := each 1 (by omega)
  have two : z 2 = op.coefficient a z 2 := each 2 (by omega)
  cases op with
  | neg | abs =>
    simp only [coefficient, Nat.one_ne_zero, OfNat.ofNat_ne_zero, if_false] at one two
    rw [slope, curvature, one, two]
    exact ⟨by ring, by ring⟩
  | exp =>
    simp only [coefficient, Nat.one_ne_zero, OfNat.ofNat_ne_zero, if_false, sum_order_one,
      sum_order_two, ratio_one, ratio_half, ratio_last, Nat.reduceAdd, Nat.reduceSub] at one two
    rw [slope, curvature]
    refine ⟨by rw [one]; ring, ?_⟩
    rw [two, one]
    ring
  | ln =>
    have divisor : a 0 ≠ 0 := regular
    simp only [coefficient, Nat.one_ne_zero, OfNat.ofNat_ne_zero, if_false, Finset.Ico_self,
      Finset.sum_empty, sum_order_one, ratio_half, sub_zero, Nat.reduceSub] at one two
    rw [slope, curvature]
    refine ⟨by rw [one]; ring, ?_⟩
    rw [two, one]
    field_simp
    ring
  | sqrt =>
    have divisor : z 0 ≠ 0 := regular
    simp only [coefficient, Nat.one_ne_zero, OfNat.ofNat_ne_zero, if_false, Finset.Ico_self,
      Finset.sum_empty, sum_order_one, ratio_two, sub_zero, Nat.reduceSub] at one two
    rw [slope, curvature]
    refine ⟨by rw [one]; ring, ?_⟩
    rw [two, one]
    field_simp
    ring
  | sin | cos =>
    simp only [coefficient, Nat.one_ne_zero, OfNat.ofNat_ne_zero, if_false,
      sinCosTerm_of_pos a Nat.two_pos, sinCosTerm_of_pos a Nat.one_pos, sum_order_one,
      sum_order_two, ratio_one, ratio_half, ratio_last, Nat.reduceAdd, Nat.reduceSub,
      sinCosTerm] at one two
    rw [slope, curvature]
    refine ⟨by rw [one]; ring, ?_⟩
    rw [two]
    ring

/-- The differentials of an operation of one argument through order one. -/
theorem UnaryOp.differentials (op : UnaryOp) (each : ∀ k < 2, z k = op.coefficient a z k)
    (regular : op.Regular (reals a 0) (reals z 0)) :
    shifts z 0 = op.slope (reals a 0) (reals z 0) * shifts a 0 ∧
    shifts z 1 = op.slope (reals a 0) (reals z 0) * shifts a 1 +
      op.curvature (reals a 0) (reals z 0) * (shifts a 0 * reals a 1) := by
  have start := each 0 (by omega)
  have next := each 1 (by omega)
  have one := UnaryOp.reals_coefficient each 1 (by omega)
  cases op with
  | neg =>
    rw [slope, curvature, shift_neg start, shift_neg next]
    exact ⟨by ring, by ring⟩
  | abs =>
    rw [slope, curvature, shift_abs start, shift_abs next]
    exact ⟨rfl, by ring⟩
  | exp =>
    simp only [coefficient, Nat.one_ne_zero, if_false, sum_order_one, ratio_one,
      Nat.reduceAdd, Nat.reduceSub] at one
    rw [slope, curvature, shift_exp Nat.one_pos next, sum_order_one, Nat.sub_self, ratio_one,
      start_exp start]
    exact ⟨rfl, by ring⟩
  | ln =>
    have divisor : reals a 0 ≠ 0 := regular
    have law := shift_ln Nat.one_pos next divisor
    simp only [coefficient, Nat.one_ne_zero, if_false, Finset.Ico_self, Finset.sum_empty, sub_zero]
      at one law
    rw [slope, curvature, start_ln start]
    refine ⟨by ring, ?_⟩
    refine mul_left_cancel₀ divisor ?_
    rw [law, one]
    field_simp
    ring
  | sqrt =>
    have divisor : reals z 0 ≠ 0 := regular
    have law := shift_sqrt Nat.one_pos next divisor
    have first := start_sqrt start
    simp only [coefficient, Nat.one_ne_zero, if_false, Finset.Ico_self, Finset.sum_empty, ratio_two,
      mul_zero, sub_zero] at one law
    rw [slope, curvature, first]
    refine ⟨by ring, ?_⟩
    refine mul_left_cancel₀ (mul_ne_zero two_ne_zero divisor) ?_
    rw [mul_assoc, law, one, first]
    field_simp
    ring
  | sin =>
    rw [coefficient_sin] at start next
    have law := (shift_sinCos a Nat.one_pos).1
    rw [sum_order_one, Nat.sub_self, ratio_one, (start_sinCos a).2] at law
    have first : shifts z 0 = _ := (congrArg TrivSqZeroExt.snd start).trans (start_sinCos a).1
    have second : shifts z 1 = _ := (congrArg TrivSqZeroExt.snd next).trans law
    rw [slope, curvature, first, second, sinCosTerm]
    exact ⟨rfl, by ring⟩
  | cos =>
    rw [coefficient_cos] at start next
    have law := (shift_sinCos a Nat.one_pos).2
    rw [sum_order_one, Nat.sub_self, ratio_one, (start_sinCos a).1] at law
    have first : shifts z 0 = _ := (congrArg TrivSqZeroExt.snd start).trans (start_sinCos a).2
    have second : shifts z 1 = _ := (congrArg TrivSqZeroExt.snd next).trans law
    rw [slope, curvature, first, second, sinCosTerm]
    exact ⟨by ring, by ring⟩

private theorem BinaryOp.coefficients (op : BinaryOp) {a b z : Nat → F}
    (each : ∀ k < 3, z k = op.coefficient a b z k) (regular : op.Regular (b 0)) :
    z 1 = op.slope (b 0) * a 1 + op.slope' (a 0) (b 0) (z 0) * b 1 ∧
    2 * z 2 = op.slope (b 0) * (2 * a 2) + op.slope' (a 0) (b 0) (z 0) * (2 * b 2) +
      (2 * op.mixed (b 0) * (a 1 * b 1) + op.curvature (b 0) (z 0) * (b 1 * b 1)) := by
  have one : z 1 = op.coefficient a b z 1 := each 1 (by omega)
  have two : z 2 = op.coefficient a b z 2 := each 2 (by omega)
  cases op with
  | add | sub =>
    rw [coefficient] at one two
    rw [slope, slope', mixed, curvature]
    refine ⟨by rw [one]; ring, by rw [two]; ring⟩
  | mul =>
    simp only [coefficient, Finset.sum_range_succ, Finset.sum_range_zero, Nat.sub_zero,
      Nat.reduceSub] at one two
    rw [slope, slope', mixed, curvature]
    refine ⟨by rw [one]; ring, by rw [two]; ring⟩
  | div =>
    have divisor : b 0 ≠ 0 := regular
    simp only [coefficient, sum_order_one, sum_order_two, Nat.reduceAdd, Nat.reduceSub] at one two
    rw [slope, slope', mixed, curvature]
    refine ⟨by rw [one]; ring, ?_⟩
    rw [two, one]
    field_simp
    ring

/-- The differentials of an operation of two arguments through order one. -/
theorem BinaryOp.differentials (op : BinaryOp) (each : ∀ k < 2, z k = op.coefficient a b z k)
    (regular : op.Regular (reals b 0)) :
    shifts z 0 = op.slope (reals b 0) * shifts a 0 +
      op.slope' (reals a 0) (reals b 0) (reals z 0) * shifts b 0 ∧
    shifts z 1 = op.slope (reals b 0) * shifts a 1 +
      op.slope' (reals a 0) (reals b 0) (reals z 0) * shifts b 1 +
      (op.mixed (reals b 0) * (shifts a 0 * reals b 1 + shifts b 0 * reals a 1) +
        op.curvature (reals b 0) (reals z 0) * (shifts b 0 * reals b 1)) := by
  have start := each 0 (by omega)
  have next := each 1 (by omega)
  cases op with
  | add | sub =>
    rw [slope, slope', mixed, curvature]
    simp only [shifts, start, next, coefficient, TrivSqZeroExt.snd_add, TrivSqZeroExt.snd_sub]
    exact ⟨by ring, by ring⟩
  | mul =>
    rw [slope, slope', mixed, curvature]
    simp only [shifts, start, next, coefficient, Finset.sum_range_succ, Finset.sum_range_zero,
      Nat.sub_zero, Nat.sub_self, TrivSqZeroExt.snd_add, TrivSqZeroExt.snd_zero, DualNumber.snd_mul]
    exact ⟨by ring, by ring⟩
  | div =>
    have divisor : reals b 0 ≠ 0 := regular
    have first := shift_div start divisor
    have law := shift_div next divisor
    have one : reals z 1 = (reals a 1 - reals b 1 * reals z 0) / reals b 0 := by
      rw [reals, next, fst_binary]
      simp [coefficient]
    rw [sum_order_one, Nat.sub_self] at law
    simp only [Nat.zero_add, Finset.Ico_self, Finset.sum_empty, sub_zero] at first
    have quotient : shifts z 0 = (shifts a 0 - reals z 0 * shifts b 0) / reals b 0 := by
      rw [← first, mul_div_cancel_left₀ _ divisor]
    rw [slope, slope', mixed, curvature]
    refine ⟨by rw [quotient]; ring, ?_⟩
    refine mul_left_cancel₀ divisor ?_
    rw [law, one, quotient]
    field_simp
    ring

end Operations

/-- The first and the second derivative of a variable at a point, on the directions. -/
structure Jet (F : Type) [Field F] where
  slope : (Nat → F) →ₗ[F] F
  bend : (Nat → F) →ₗ[F] (Nat → F) →ₗ[F] F
  symm : ∀ u v, bend u v = bend v u

namespace Jet

section Rules

variable {F : Type} [Field F]

/-- The jet of a parameter. -/
def constant : Jet F :=
  ⟨0, 0, fun _ _ => rfl⟩

/-- The jet of an input. -/
def input (j : Nat) : Jet F :=
  ⟨LinearMap.proj j, 0, fun _ _ => rfl⟩

/-- The jet of an operation of one argument with a slope and a curvature. -/
def compose (s r : F) (J : Jet F) : Jet F where
  slope := s • J.slope
  bend := s • J.bend + r • J.slope.smulRight J.slope
  symm u v := by
    simp [J.symm u v, mul_comm (J.slope u)]

/-- The jet of an operation of two arguments with slopes, a mixed curvature and one in the second
argument. -/
def compose₂ (s s' m r : F) (J K : Jet F) : Jet F where
  slope := s • J.slope + s' • K.slope
  bend := s • J.bend + s' • K.bend +
    (m • (J.slope.smulRight K.slope + K.slope.smulRight J.slope) + r • K.slope.smulRight K.slope)
  symm u v := by
    simp [J.symm u v, K.symm u v]
    ring

end Rules

variable {F : Type} [ExactScalar F]

/-- Coefficients along a direction `v`, perturbed at the point by `u`, have the derivatives that a
jet says. -/
structure Describes (J : Jet F) (u v : Nat → F) (a : Nat → DualNumber F) : Prop where
  perturbed : shifts a 0 = J.slope u
  along : reals a 1 = J.slope v
  mixed : shifts a 1 = J.bend u v
  twice : 2 * reals a 2 = J.bend v v

variable {J K : Jet F} {u v : Nat → F} {a b z : Nat → DualNumber F}

theorem Describes.congr (describes : J.Describes u v a) (same : ∀ k < 3, z k = a k) :
    J.Describes u v z := by
  have start := same 0 (by omega)
  have next := same 1 (by omega)
  have last := same 2 (by omega)
  constructor
  · rw [shifts, start]
    exact describes.perturbed
  · rw [reals, next]
    exact describes.along
  · rw [shifts, next]
    exact describes.mixed
  · rw [reals, last]
    exact describes.twice

private theorem Describes.unary (describes : J.Describes u v a) (op : UnaryOp)
    (each : ∀ k < 3, z k = op.coefficient a z k)
    (regular : op.Regular (reals a 0) (reals z 0)) :
    (J.compose (op.slope (reals a 0) (reals z 0))
      (op.curvature (reals a 0) (reals z 0))).Describes u v z := by
  obtain ⟨along, twice⟩ := op.coefficients (UnaryOp.reals_coefficient each) regular
  obtain ⟨start, mixed⟩ := op.differentials (fun k low => each k (by omega)) regular
  constructor
  · rw [start, describes.perturbed]
    rfl
  · rw [along, describes.along]
    rfl
  · rw [mixed, describes.perturbed, describes.along, describes.mixed]
    rfl
  · rw [twice, describes.along, describes.twice]
    rfl

private theorem Describes.binary (left : J.Describes u v a) (right : K.Describes u v b)
    (op : BinaryOp)
    (each : ∀ k < 3, z k = op.coefficient a b z k) (regular : op.Regular (reals b 0)) :
    (J.compose₂ (op.slope (reals b 0)) (op.slope' (reals a 0) (reals b 0) (reals z 0))
      (op.mixed (reals b 0)) (op.curvature (reals b 0) (reals z 0)) K).Describes u v z := by
  have own : ∀ k < 3, reals z k = op.coefficient (reals a) (reals b) (reals z) k := by
    intro k below
    rw [reals, each k below, fst_binary]
  obtain ⟨along, twice⟩ := op.coefficients own regular
  obtain ⟨start, mixed⟩ := op.differentials (fun k low => each k (by omega)) regular
  constructor
  · rw [start, left.perturbed, right.perturbed]
    rfl
  · rw [along, left.along, right.along]
    rfl
  · rw [mixed, left.perturbed, right.perturbed, left.along, right.along, left.mixed, right.mixed]
    rfl
  · rw [twice, left.along, right.along, left.twice, right.twice]
    simp [compose₂]
    ring

end Jet

namespace Evaluator

variable {F : Type} [ExactScalar F] {e : Evaluator F}

/-- The coefficients of a run through order two, from a point along a direction `v`, with the point
perturbed by `u`. -/
structure Curve (e : Evaluator F) (u v : Nat → F) (lifted : Tape (DualNumber F))
    (seed : Nat → List (DualNumber F)) (c : Nat → Nat → DualNumber F) : Prop
    extends Varies e 3 lifted seed c where
  point : ∀ j < e.numInputs, (c j 0).snd = u j
  along : ∀ j < e.numInputs, c j 1 = perturb (v j) 0
  straight : ∀ j < e.numInputs, (c j 2).fst = 0

/-- Every variable has a jet at a point, whatever the run. -/
private theorem exists_jets {tape : Tape F} (wf : tape.WellFormed) (passing : tape.Passing)
    (p : Nat → F) :
    ∃ J : Nat → Jet F, ∀ (e : Evaluator F) u v lifted seed c, e.tape = tape →
      e.Curve u v lifted seed c → e.Regular → (∀ i < tape.size, (c i 0).fst = p i) →
      ∀ i < tape.size, (J i).Describes u v (c i) := by
  suffices each : ∀ i, ∃ J : Jet F, ∀ (e : Evaluator F) u v lifted seed c, e.tape = tape →
      e.Curve u v lifted seed c → e.Regular → (∀ i < tape.size, (c i 0).fst = p i) →
      i < tape.size → J.Describes u v (c i) by
    choose J describes using each
    exact ⟨J, fun e u v lifted seed c same curve regular values i =>
      describes i e u v lifted seed c same curve regular values⟩
  intro i
  induction i using Nat.strong_induction_on with
  | _ i before =>
  by_cases inside : i < tape.size
  swap
  · exact ⟨Jet.constant, fun _ _ _ _ _ _ _ _ _ _ inside' => absurd inside' inside⟩
  obtain ⟨entry, found⟩ := Tape.exists_entry inside
  have operands := wf.operands i entry found
  cases entry with
  | input =>
    have input : i < tape.numInputs := (wf.inputs i _ found).1 rfl
    refine ⟨Jet.input i, ?_⟩
    rintro e u v lifted seed c rfl curve regular values _
    have along := curve.along i input
    constructor
    · exact curve.point i input
    · rw [reals, along]
      rfl
    · rw [shifts, along]
      rfl
    · rw [reals, curve.straight i input, mul_zero]
      rfl
  | const =>
    refine ⟨Jet.constant, ?_⟩
    rintro e u v lifted seed c rfl curve regular values _
    have start : (c i 0).snd = 0 := curve.still found (by omega)
    have next : c i 1 = 0 := curve.constant found (by omega) (by omega)
    have last : c i 2 = 0 := curve.constant found (by omega) (by omega)
    constructor
    · exact start
    · rw [reals, next]
      rfl
    · rw [shifts, next]
      rfl
    · rw [reals, last]
      exact mul_zero _
  | unary op a =>
    have earlier := operands a (by simp [Entry.operands])
    obtain ⟨J, describes⟩ := before a earlier
    refine ⟨J.compose (op.slope (p a) (p i)) (op.curvature (p a) (p i)), ?_⟩
    rintro e u v lifted seed c rfl curve regular values _
    have known := describes e u v lifted seed c rfl curve regular values (by omega)
    rw [← values a (by omega), ← values i inside]
    exact known.unary op (fun k low => curve.unary found low)
      (curve.regular_unary (by omega) regular found)
  | binary op a b =>
    have earlier := operands a (by simp [Entry.operands])
    have earlier' := operands b (by simp [Entry.operands])
    obtain ⟨J, left⟩ := before a earlier
    obtain ⟨K, right⟩ := before b earlier'
    refine ⟨J.compose₂ (op.slope (p b)) (op.slope' (p a) (p b) (p i)) (op.mixed (p b))
      (op.curvature (p b) (p i)) K, ?_⟩
    rintro e u v lifted seed c rfl curve regular values _
    have known := left e u v lifted seed c rfl curve regular values (by omega)
    have known' := right e u v lifted seed c rfl curve regular values (by omega)
    rw [← values a (by omega), ← values b (by omega), ← values i inside]
    exact known.binary known' op (fun k low => curve.binary found low)
      (curve.regular_binary (by omega) regular found)
  | call place args n =>
    obtain ⟨_, _, a, _, _, _, rfl, _⟩ := passing i place args n found
    have earlier := operands a (by simp [Entry.operands])
    obtain ⟨J, describes⟩ := before a earlier
    refine ⟨J, ?_⟩
    rintro e u v lifted seed c rfl curve regular values _
    have known := describes e u v lifted seed c rfl curve regular values (by omega)
    exact known.congr fun k low => curve.call found low
  | result owner => exact absurd found (passing.not_result wf owner)

private theorem RecordedOfBuiltIns.passing (recorded : e.RecordedOfBuiltIns) : e.tape.Passing := by
  obtain ⟨x, c, solves⟩ := recorded.exists_solves
  exact Tape.passing_of_holds recorded.onlyBuiltIns solves

private theorem Regular.agree {e' : Evaluator F} {n : Nat} (regular : e.Regular)
    (agree : AgreeBelow n e e') (wf : e.WellFormed) (positive : 0 < n) : e'.Regular := by
  have same : ∀ i < e.tape.size, e'.table.value i 0 0 = e.table.value i 0 0 := fun i inside =>
    agree.values i inside 0 positive 0 (.inl rfl)
  intro i entry found
  rw [agree.tape] at found
  have inside := Tape.lt_size_of_entry found
  have operands := wf.tape.operands i entry found
  have law := regular i entry found
  cases entry with
  | unary op a =>
    have earlier := operands a (by simp [Entry.operands])
    show op.Regular _ _
    rw [same a (by omega), same i inside]
    exact law
  | binary op a b =>
    have earlier := operands b (by simp [Entry.operands])
    show op.Regular _
    rw [same b (by omega)]
    exact law
  | input | const | call _ _ _ | result _ => trivial

/-- A list of elements as a vector that is zero behind them. -/
def vector (v : List F) (j : Nat) : F :=
  (v[j]?).getD 0

private theorem forward_single {q : Nat} {seed : List F} (wf : e.WellFormed)
    (passing : e.tape.Passing) (count : seed.length = e.numInputs) (orders : q ≤ e.numOrders)
    (directions : 1 < q → e.numDirections = 1) :
    ∃ e', forward q 1 [seed] e = (.ok [e'.outputs.map fun y => e'.table.value y q 0], e') ∧
      e.Advanced q 1 [seed] [e'.outputs.map fun y => e'.table.value y q 0] e' := by
  have accepts : e.Accepts q 1 [seed] := by
    refine ⟨Nat.one_ne_zero, rfl, ?_, fun _ => rfl, orders, fun higher => (directions higher).symm⟩
    intro s member
    obtain rfl := List.mem_singleton.1 member
    exact count
  obtain ⟨ys, e', done, advanced⟩ := forward_scalar wf passing accepts
  have answer : ys = [e'.outputs.map fun y => e'.table.value y q 0] := by
    rw [advanced.answer, advanced.outputs]
    rfl
  rw [answer] at done advanced
  exact ⟨e', done, advanced⟩

/-- From a point a run can go on along any direction through order two; its coefficients, perturbed
at the point in any way, are those of a curve. -/
private theorem exists_curve {v : List F} (recorded : e.RecordedOfBuiltIns)
    (point : e.numOrders = 1) (count : v.length = e.numInputs) :
    ∃ e₁ e₂, forwardOne v e = (.ok (e₁.outputs.map fun y => e₁.table.value y 1 0), e₁) ∧
      forward 2 1 [List.replicate e.numInputs 0] e₁ =
        (.ok [e₂.outputs.map fun y => e₂.table.value y 2 0], e₂) ∧
      AgreeBelow 1 e e₁ ∧ AgreeBelow 2 e₁ e₂ ∧ e₁.numDirections = 1 ∧ e₂.numDirections = 1 ∧
      e₁.WellFormed ∧ ∀ u : Nat → F, ∃ lifted seed c, e₂.Curve u (vector v) lifted seed c := by
  have wf := recorded.recorded.wellFormed
  have passing := recorded.passing
  obtain ⟨e₁, done₁, first⟩ := forward_single wf passing count point.ge (by omega)
  have single : e₁.numDirections = 1 := first.directions
  have inputs : e₁.numInputs = e.numInputs := congrArg Tape.numInputs first.tape
  obtain ⟨e₂, done₂, second⟩ := forward_single first.wellFormed (first.tape ▸ passing)
    (show (List.replicate e.numInputs 0).length = e₁.numInputs by rw [List.length_replicate, inputs])
    first.orders.ge fun _ => single
  have recorded₂ : e₂.RecordedOfBuiltIns := by
    have kept := recorded.forward 1 1 [v]
    rw [done₁] at kept
    have kept' := RecordedOfBuiltIns.forward kept 2 1 [List.replicate e.numInputs 0]
    rwa [done₂] at kept'
  have tape₂ : e₂.tape = e.tape := second.tape.trans first.tape
  have inputs₂ : e₂.numInputs = e.numInputs := congrArg Tape.numInputs tape₂
  refine ⟨e₁, e₂, ?_, done₂, first.agreeBelow, second.agreeBelow, single, second.directions,
    first.wellFormed, fun u => ?_⟩
  · unfold forwardOne
    rw [run_bind_ok done₁]
    rfl
  obtain ⟨lifted, runs⟩ := recorded₂.exists_varies (show 0 < 3 by omega) second.orders.ge
  obtain ⟨seed, c, varies, real, moved⟩ := runs fun j k => if k = 0 then u j else 0
  refine ⟨lifted, seed, c, { varies with point := ?_, along := ?_, straight := ?_ }⟩
  · intro j input
    rw [moved j input 0 (by omega), if_pos rfl]
  · intro j input
    rw [inputs₂] at input
    have inside : j < e.tape.size := lt_of_lt_of_le input wf.tape.inputs_le
    obtain ⟨entry, found⟩ := Tape.exists_entry inside
    obtain rfl := (wf.tape.inputs j entry found).2 input
    have read := (first.holds 0 v rfl j inside).input found
    have same := second.low j (first.tape ▸ inside) 1 (by omega) 0
      (.inr (second.directions ▸ Nat.one_pos))
    refine TrivSqZeroExt.ext ?_ ?_
    · calc (c j 1).fst = e₂.table.along 0 j 1 := congrFun (real j) 1
        _ = e₁.table.along 0 j 1 := same
        _ = vector v j := by rw [vector, read]; rfl
    · exact (moved j (inputs₂ ▸ input) 1 (by omega)).trans (if_neg Nat.one_ne_zero)
  · intro j input
    rw [inputs₂] at input
    have inside : j < e.tape.size := lt_of_lt_of_le input wf.tape.inputs_le
    obtain ⟨entry, found⟩ := Tape.exists_entry inside
    obtain rfl := (wf.tape.inputs j entry found).2 input
    have read := (second.holds 0 _ rfl j (first.tape ▸ inside)).input (first.tape ▸ found)
    rw [List.getElem?_replicate, if_pos input] at read
    exact (congrFun (real j) 2).trans (Option.some.inj read).symm

/-- The product with the Hessian that a jet has. -/
def product (J : Jet F) (n : Nat) (v : List F) : List F :=
  (List.range n).map fun j => J.bend (Pi.single j 1) (vector v)

private theorem vector_eq_sum {u : List F} {n : Nat} (count : u.length = n) :
    vector u = ∑ j ∈ Finset.range n, vector u j • (Pi.single j 1 : Nat → F) := by
  funext i
  rw [Finset.sum_apply]
  by_cases below : i < n
  · rw [Finset.sum_eq_single i]
    · simp
    · intro j _ other
      simp [Pi.single_eq_of_ne (Ne.symm other)]
    · intro missing
      exact absurd (Finset.mem_range.2 below) missing
  · have none : vector u i = 0 := by
      rw [vector, List.getElem?_eq_none (by omega), Option.getD_none]
    rw [none]
    refine (Finset.sum_eq_zero fun j among => ?_).symm
    have low := Finset.mem_range.1 among
    simp [Pi.single_eq_of_ne (show i ≠ j by omega)]

private theorem sum_product (J : Jet F) {n : Nat} {u v : List F} (count : u.length = n) :
    (List.zipWith (· * ·) u (product J n v)).sum = J.bend (vector u) (vector v) := by
  have length : u.length = (product J n v).length := by simp [product, count]
  rw [sum_zipWith _ 0 0 length, count]
  conv_rhs => rw [vector_eq_sum count, map_sum, LinearMap.sum_apply]
  refine Finset.sum_congr rfl fun j among => ?_
  have entry : (product J n v)[j]? = some (J.bend (Pi.single j 1) (vector v)) := by
    rw [product, List.getElem?_map, List.getElem?_range (Finset.mem_range.1 among)]
    rfl
  rw [entry, Option.getD_some, map_smul]
  rfl

private theorem vector_combination {v v' : List F} (same : v.length = v'.length) (s t : F) :
    vector (List.zipWith (fun a b => s * a + t * b) v v') = s • vector v + t • vector v' := by
  funext j
  show ((List.zipWith _ v v')[j]?).getD 0 = s * (v[j]?).getD 0 + t * (v'[j]?).getD 0
  rw [List.getElem?_zipWith]
  by_cases below : j < v.length
  · rw [List.getElem?_eq_getElem below, List.getElem?_eq_getElem (same ▸ below)]
    rfl
  · rw [List.getElem?_eq_none (by omega), List.getElem?_eq_none (by omega)]
    simp

private theorem product_combination (J : Jet F) (n : Nat) {v v' : List F}
    (same : v.length = v'.length) (s t : F) :
    product J n (List.zipWith (fun a b => s * a + t * b) v v') =
      List.zipWith (fun a b => s * a + t * b) (product J n v) (product J n v') := by
  unfold product
  rw [vector_combination same, List.zipWith_map, List.zipWith_self]
  refine List.map_congr_left fun j _ => ?_
  simp

/-- A reverse sweep through both orders of a curve gives the product with the Hessian of the only
output. -/
private theorem reverse_curve {v : List F} {y : Nat} {J : Nat → Jet F}
    (wf : e.WellFormed) (curves : ∀ u, ∃ lifted seed c, e.Curve u (vector v) lifted seed c ∧
      ∀ i < e.tape.size, (J i).Describes u (vector v) (c i))
    (regular : e.Regular) (single : e.numDirections = 1) (outputs : e.outputs = [y]) :
    ∃ px, e.reverse 2 [[0, 1]] = .ok px ∧ lowest px = .ok (product (J y) e.numInputs v) := by
  obtain ⟨_, _, _, still, _⟩ := curves 0
  have accepts : e.AcceptsReverse 2 [[0, 1]] := by
    refine ⟨Nat.succ_ne_zero 1, ?_, fun _ => single, (congrArg List.length outputs).symm, by simp⟩
    exact le_trans (by omega) still.orders
  obtain ⟨px, done, ⟨many, wide⟩, _⟩ :=
    (still.toVaries.mono (by omega : 2 ≤ 3)).reverse_shaped regular accepts
  have inside : y < e.tape.size := wf.outputs y (by simp [outputs])
  have each : ∀ j < e.numInputs, cell px j 0 = (J y).bend (Pi.single j 1) (vector v) := by
    intro j input
    obtain ⟨_, _, c, curve, describes⟩ := curves (Pi.single j 1)
    rw [cell_of_unit (curve.toVaries.mono (by omega : 2 ≤ 3)) regular accepts done input
      Nat.two_pos]
    · have count : e.numOutputs = 1 := congrArg List.length outputs
      rw [count, outputs, Finset.sum_range_one, Finset.sum_range_succ, Finset.sum_range_one]
      have mixed : (c y 1).snd = _ := (describes y inside).mixed
      show 0 * (c y 0).snd + 1 * (c y 1).snd = _
      rw [zero_mul, zero_add, one_mul, mixed]
    · intro i input' l low
      match l, low with
      | 0, _ =>
        rw [curve.point i input', Pi.single_apply]
        simp
      | 1, _ =>
        rw [curve.along i input']
        simp
  refine ⟨px, done, ?_⟩
  have picked : lowest px = .ok (px.map fun p => (p[0]?).getD 0) := by
    refine mapM_eq_map fun p member => ?_
    have width := wide p member
    rw [pick_eq_ok_iff, List.getElem?_eq_getElem (by omega)]
    rfl
  rw [picked]
  refine congrArg Except.ok (eq_map_range (by rw [List.length_map, many]) fun j input => ?_)
  rw [← each j input, cell, List.getElem?_map, List.getElem?_eq_getElem (by omega)]
  rfl

private theorem hessianVector_eq {x v ys dy : List F} {e₀ e₁ : Evaluator F}
    (single : e.numOutputs = 1)
    (point : forwardZero x e = (.ok ys, e₀)) (along : forwardOne v e₀ = (.ok dy, e₁)) :
    (hessianVector x v e).1 = e₁.reverse 2 [[Base.zero, Base.one]] >>= lowest := by
  unfold hessianVector
  rw [run_bind_ok (run_get e), if_neg (not_not.2 single)]
  refine (congrArg Prod.fst (run_bind_ok point)).trans ?_
  rw [run_bind_ok along, run_bind_ok (run_get e₁), run_bind, run_lift]
  cases e₁.reverse 2 [[Base.zero, Base.one]] with
  | error err => rfl
  | ok px => exact congrArg Prod.fst (run_lift (lowest px) e₁)

/-- What one vector leads to, from a point at which the variables have jets. -/
private theorem hessianVector_along {x v : List F} {ys : List (List F)} {e₀ : Evaluator F} {y : Nat}
    {J : Nat → Jet F} (recorded : e₀.RecordedOfBuiltIns) (zero : e.Advanced 0 1 [x] ys e₀)
    (point : forwardZero x e = (.ok (e₀.outputs.map fun y => e₀.table.value y 0 0), e₀))
    (regular : e₀.Regular) (only : e.outputs = [y])
    (describes : ∀ (e' : Evaluator F) u v lifted seed c, e'.tape = e.tape →
      e'.Curve u v lifted seed c → e'.Regular →
      (∀ i < e.tape.size, (c i 0).fst = e₀.table.value i 0 0) →
      ∀ i < e.tape.size, (J i).Describes u v (c i))
    (length : v.length = e.numInputs) :
    ∃ dy e₁ y₂, forwardOne v e₀ = (.ok dy, e₁) ∧
      (forward 2 1 [List.replicate e.numInputs 0] e₁).1 = .ok [[y₂]] ∧
      (hessianVector x v e).1 = .ok (product (J y) e.numInputs v) ∧
      (J y).bend (vector v) (vector v) = 2 * y₂ := by
  have inputs₀ : e₀.numInputs = e.numInputs := congrArg Tape.numInputs zero.tape
  obtain ⟨e₁, e₂, along, last, agree₁, agree₂, single₁, single₂, wf₁, curves⟩ :=
    exists_curve recorded zero.orders (length.trans inputs₀.symm)
  have agree := agree₁.trans (agree₂.mono (by omega))
  have tape₂ : e₂.tape = e.tape := agree.tape.trans zero.tape
  have outputs₁ : e₁.outputs = [y] := (agree₁.outputs.trans zero.outputs).trans only
  have outputs₂ : e₂.outputs = [y] := (agree.outputs.trans zero.outputs).trans only
  have inputs₂ : e₂.numInputs = e.numInputs := congrArg Tape.numInputs tape₂
  have regular₂ := regular.agree agree zero.wellFormed Nat.one_pos
  have described : ∀ u, ∃ lifted seed c, e₂.Curve u (vector v) lifted seed c ∧
      ∀ i < e₂.tape.size, (J i).Describes u (vector v) (c i) := by
    intro u
    obtain ⟨lifted, seed, c, curve⟩ := curves u
    refine ⟨lifted, seed, c, curve, ?_⟩
    rw [tape₂]
    apply describes e₂ u _ lifted seed c tape₂ curve regular₂
    intro i low
    exact (curve.reals 0 (by omega) i (tape₂ ▸ low)).trans
      (agree.values i (zero.tape ▸ low) 0 Nat.one_pos 0 (.inl rfl))
  obtain ⟨_, _, c, curve, describe⟩ := described 0
  have wf₂ := curve.wellFormed
  have inside : y < e₂.tape.size := wf₂.outputs y (by simp [outputs₂])
  obtain ⟨px, swept, low⟩ := reverse_curve wf₂ described regular₂ single₂ outputs₂
  -- the reverse sweep is asked for before order two is there
  have swept₁ : e₁.reverse 2 [[0, 1]] = .ok px := by
    rw [← swept]
    apply agree₂.reverseWith wf₁ wf₂
    · exact ⟨Nat.succ_ne_zero 1, agree₂.orders, fun _ => single₁,
        (congrArg List.length outputs₁).symm, by simp⟩
    · exact ⟨Nat.succ_ne_zero 1, agree₂.orders', fun _ => single₂,
        (congrArg List.length outputs₂).symm, by simp⟩
  refine ⟨_, e₁, e₂.table.value y 2 0, along, ?_, ?_, ?_⟩
  · rw [← inputs₀, last, outputs₂]
    rfl
  · rw [hessianVector_eq (congrArg List.length only) point along]
    show e₁.reverse 2 [[0, 1]] >>= lowest = _
    rw [swept₁, ok_bind, low, inputs₂]
  · rw [← (describe y inside).twice]
    exact congrArg _ (curve.reals 2 (by omega) y inside)

/-- The product with the Hessian at a point is linear in the vector and symmetric, and multiplied by
the vector it is twice the coefficient of order two along the vector. -/
theorem hessianVector_consistent {x : List F} (recorded : e.RecordedOfBuiltIns)
    (single : e.numOutputs = 1) (count : x.length = e.numInputs)
    (regular : ∀ ys e₀, forwardZero x e = (.ok ys, e₀) → e₀.Regular) :
    ∃ H : List F → List F,
      (∀ v, v.length = e.numInputs →
        (hessianVector x v e).1 = .ok (H v) ∧ (H v).length = e.numInputs) ∧
      (∀ s t v v', v.length = e.numInputs → v'.length = e.numInputs →
        H (List.zipWith (fun a b => s * a + t * b) v v') =
          List.zipWith (fun a b => s * a + t * b) (H v) (H v')) ∧
      (∀ u v, u.length = e.numInputs → v.length = e.numInputs →
        (List.zipWith (· * ·) u (H v)).sum = (List.zipWith (· * ·) v (H u)).sum) ∧
      ∀ v, v.length = e.numInputs → ∃ ys e₀ dy e₁ y₂,
        forwardZero x e = (.ok ys, e₀) ∧ forwardOne v e₀ = (.ok dy, e₁) ∧
        (forward 2 1 [List.replicate e.numInputs 0] e₁).1 = .ok [[y₂]] ∧
        (List.zipWith (· * ·) v (H v)).sum = 2 * y₂ := by
  have wf := recorded.recorded.wellFormed
  have passing := recorded.passing
  obtain ⟨y, only⟩ := List.length_eq_one_iff.1 single
  obtain ⟨e₀, done, zero⟩ := forward_single wf passing count (Nat.zero_le _) (by omega)
  have point : forwardZero x e = (.ok (e₀.outputs.map fun y => e₀.table.value y 0 0), e₀) := by
    unfold forwardZero
    rw [run_bind_ok done]
    rfl
  have recorded₀ : e₀.RecordedOfBuiltIns := recorded.forwardZero point
  obtain ⟨J, describes⟩ := exists_jets wf.tape passing fun i => e₀.table.value i 0 0
  have each := fun v => hessianVector_along (v := v) recorded₀ zero point (regular _ _ point) only
    describes
  refine ⟨product (J y) e.numInputs, ?_, ?_, ?_, ?_⟩
  · intro v length
    obtain ⟨_, _, _, _, _, done, _⟩ := each v length
    exact ⟨done, by simp [product]⟩
  · intro s t v v' length length'
    exact product_combination _ _ (length.trans length'.symm) s t
  · intro u v length length'
    rw [sum_product _ length, sum_product _ length', (J y).symm]
  · intro v length
    obtain ⟨dy, e₁, y₂, along, last, _, twice⟩ := each v length
    exact ⟨_, e₀, dy, e₁, y₂, point, along, last, (sum_product _ length).trans twice⟩

/-- A quotient at twelve and two. -/
theorem hessianVector_consistent_div :
    ∃ H : List ℝ → List ℝ,
      (hessianVector [12, 2] [1, 5] (.ofTape quotient [2])).1 = .ok (H [1, 5]) ∧
      (List.zipWith (· * ·) [3, 4] (H [1, 5])).sum =
        (List.zipWith (· * ·) [1, 5] (H [3, 4])).sum ∧
      ∃ ys e₀ dy e₁ y₂, forwardZero [12, 2] (.ofTape quotient [2]) = (.ok ys, e₀) ∧
        forwardOne [1, 5] e₀ = (.ok dy, e₁) ∧ (forward 2 1 [[0, 0]] e₁).1 = .ok [[y₂]] ∧
        (List.zipWith (· * ·) [1, 5] (H [1, 5])).sum = 2 * y₂ := by
  have wf := recorded_quotient.recorded.wellFormed
  obtain ⟨e₀, done, zero⟩ := forward_single wf recorded_quotient.passing
    (show [12, 2].length = numInputs (ofTape quotient [2]) from rfl) (Nat.zero_le _) (by omega)
  have divisor : some (2 : ℝ) = some (e₀.table.value 1 0 0) :=
    (zero.holds 0 _ rfl 1 (by simp [ofTape, quotient, Tape.size])).input rfl
  obtain ⟨H, found, _, symmetric, twice⟩ := hessianVector_consistent recorded_quotient
    (x := [12, 2]) rfl rfl fun ys e' point => by
      unfold forwardZero at point
      rw [run_bind_ok done] at point
      obtain ⟨_, rfl⟩ := Prod.mk.inj point
      apply regular_quotient zero.tape
      rw [← Option.some.inj divisor]
      exact two_ne_zero
  exact ⟨H, (found [1, 5] rfl).1, symmetric [3, 4] [1, 5] rfl rfl, twice [1, 5] rfl⟩

end Evaluator

end TaylorTape
