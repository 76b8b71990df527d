import TaylorTape.Proofs.Elements
import TaylorTape.Proofs.Frozen
import TaylorTape.Proofs.Reals
import Mathlib.RingTheory.PowerSeries.Derivative
import Mathlib.Tactic.FieldSimp

/-!
The sweeps compute Taylor coefficients of every order.

The coefficients that a run leaves along a direction are power series, one for each variable.  Up to
the orders of the run they satisfy the identities of the operations: sums and products are those of
power series, a quotient times its divisor is the dividend, and the elementary functions satisfy
their differential equations.  These are written with Euler's derivative `t f'`, whose coefficients
of the orders of the run are all known.
-/

set_option autoImplicit false
set_option relaxedAutoImplicit false

namespace TaylorTape

open PowerSeries (mk constantCoeff coeff)

section Series

variable {F : Type} [ExactScalar F]

/-- Two power series have the same coefficients below an order. -/
def SameBelow (n : Nat) (f g : PowerSeries F) : Prop :=
  PowerSeries.X ^ n ∣ f - g

theorem sameBelow_iff {n : Nat} {f g : PowerSeries F} :
    SameBelow n f g ↔ ∀ k < n, coeff k f = coeff k g := by
  unfold SameBelow
  rw [PowerSeries.X_pow_dvd_iff]
  simp only [map_sub, sub_eq_zero]

/-- The derivative times the variable. -/
noncomputable def euler (f : PowerSeries F) : PowerSeries F :=
  PowerSeries.X * PowerSeries.derivative F f

theorem coeff_euler (f : PowerSeries F) (k : Nat) : coeff k (euler f) = k * coeff k f := by
  unfold euler
  cases k with
  | zero => simp
  | succ k => rw [PowerSeries.coeff_succ_X_mul, PowerSeries.coeff_derivative, mul_comm, Nat.cast_succ]

theorem coeff_euler_mul (f g : Nat → F) (k : Nat) :
    coeff k (euler (mk f) * mk g) = ∑ j ∈ Finset.Ico 1 (k + 1), j * f j * g (k - j) := by
  rw [PowerSeries.coeff_mul, Finset.Nat.sum_antidiagonal_eq_sum_range_succ_mk,
    Finset.range_eq_Ico, Finset.sum_eq_sum_Ico_succ_bot (Nat.succ_pos k)]
  simp [coeff_euler]

theorem coeff_mul_mk (f g : Nat → F) (k : Nat) :
    coeff k (mk f * mk g) = ∑ j ∈ Finset.range (k + 1), f j * g (k - j) := by
  rw [PowerSeries.coeff_mul, Finset.Nat.sum_antidiagonal_eq_sum_range_succ_mk]
  simp

/-- What the series of an operation of one argument satisfies, up to an order. -/
def UnaryOp.Identity (op : UnaryOp) (n : Nat) (a z : PowerSeries F) : Prop :=
  let a0 := constantCoeff a
  let z0 := constantCoeff z
  z0 = op.onElem a0 ∧
  match op with
  | .neg => SameBelow n z (-a)
  | .exp => SameBelow n (euler z) (euler a * z)
  | .ln => a0 ≠ 0 → SameBelow n (a * euler z) (euler a)
  | .sqrt => z0 * z0 = a0 → z0 ≠ 0 → SameBelow n (z * z) a
  | .sin => ∃ c, constantCoeff c = Scalar.cos a0 ∧
      SameBelow n (euler z) (euler a * c) ∧ SameBelow n (euler c) (-(euler a * z))
  | .cos => ∃ s, constantCoeff s = Scalar.sin a0 ∧
      SameBelow n (euler s) (euler a * z) ∧ SameBelow n (euler z) (-(euler a * s))
  | .abs => Scalar.abs a0 = Scalar.sign a0 * a0 →
      SameBelow n z (PowerSeries.C (Scalar.sign a0) * a)

/-- What the series of an operation of two arguments satisfies, up to an order. -/
def BinaryOp.Identity (op : BinaryOp) (n : Nat) (a b z : PowerSeries F) : Prop :=
  match op with
  | .add => SameBelow n z (a + b)
  | .sub => SameBelow n z (a - b)
  | .mul => SameBelow n z (a * b)
  | .div => constantCoeff b ≠ 0 → SameBelow n (z * b) a

variable {a b z : Nat → F} {n : Nat}

theorem euler_sin (a : Nat → F) :
    euler (mk fun k => (sinCosTerm a k).1) = euler (mk a) * mk fun k => (sinCosTerm a k).2 := by
  ext k
  rw [coeff_euler, coeff_euler_mul, PowerSeries.coeff_mk]
  by_cases zero : k = 0
  · simp [zero]
  · have nonzero : (k : F) ≠ 0 := Nat.cast_ne_zero.2 zero
    rw [sinCosTerm_of_pos a (Nat.pos_of_ne_zero zero), Finset.mul_sum]
    refine Finset.sum_congr rfl fun j _ => ?_
    rw [ratio_eq]
    field_simp

/-- The terms of the cosine satisfy its differential equation. -/
theorem euler_cos (a : Nat → F) :
    euler (mk fun k => (sinCosTerm a k).2) =
      -(euler (mk a) * mk fun k => (sinCosTerm a k).1) := by
  ext k
  rw [coeff_euler, map_neg, coeff_euler_mul, PowerSeries.coeff_mk]
  by_cases zero : k = 0
  · simp [zero]
  · have nonzero : (k : F) ≠ 0 := Nat.cast_ne_zero.2 zero
    rw [sinCosTerm_of_pos a (Nat.pos_of_ne_zero zero), mul_neg, Finset.mul_sum]
    refine congrArg _ (Finset.sum_congr rfl fun j _ => ?_)
    rw [ratio_eq]
    field_simp

private theorem coeff_euler_mul_congr {f g h : Nat → F} {k : Nat} (same : ∀ j < k, g j = h j) :
    coeff k (euler (mk f) * mk g) = coeff k (euler (mk f) * mk h) := by
  rw [coeff_euler_mul, coeff_euler_mul]
  refine Finset.sum_congr rfl fun j member => ?_
  obtain ⟨low, high⟩ := Finset.mem_Ico.1 member
  rw [same (k - j) (by omega)]

theorem exp_identity (each : ∀ k < n, z k = UnaryOp.exp.coefficient a z k) :
    SameBelow n (euler (mk z)) (euler (mk a) * mk z) := by
  rw [sameBelow_iff]
  intro k below
  rw [coeff_euler, coeff_euler_mul, PowerSeries.coeff_mk]
  by_cases zero : k = 0
  · simp [zero]
  · have nonzero : (k : F) ≠ 0 := Nat.cast_ne_zero.2 zero
    rw [each k below, UnaryOp.coefficient, if_neg zero, Finset.mul_sum]
    refine Finset.sum_congr rfl fun j _ => ?_
    rw [ratio_eq]
    field_simp

theorem ln_identity (each : ∀ k < n, z k = UnaryOp.ln.coefficient a z k) (divisor : a 0 ≠ 0) :
    SameBelow n (mk a * euler (mk z)) (euler (mk a)) := by
  rw [sameBelow_iff]
  intro k below
  rw [mul_comm, coeff_euler, coeff_euler_mul, PowerSeries.coeff_mk]
  by_cases zero : k = 0
  · simp [zero]
  · have nonzero : (k : F) ≠ 0 := Nat.cast_ne_zero.2 zero
    have last : z k * a 0 = a k - ∑ j ∈ Finset.Ico 1 k, z j * a (k - j) * Scalar.ratio j k := by
      rw [each k below, UnaryOp.coefficient, if_neg zero, div_mul_cancel₀ _ divisor]
    have rest : ∑ j ∈ Finset.Ico 1 k, j * z j * a (k - j) =
        k * ∑ j ∈ Finset.Ico 1 k, z j * a (k - j) * Scalar.ratio j k := by
      rw [Finset.mul_sum]
      refine Finset.sum_congr rfl fun j _ => ?_
      rw [ratio_eq]
      field_simp
    rw [Finset.sum_Ico_succ_top (Nat.pos_of_ne_zero zero), rest, Nat.sub_self, mul_assoc, last]
    ring

private theorem sqrt_identity (each : ∀ k < n, z k = UnaryOp.sqrt.coefficient a z k)
    (root : z 0 * z 0 = a 0) (divisor : z 0 ≠ 0) : SameBelow n (mk z * mk z) (mk a) := by
  rw [sameBelow_iff]
  intro k below
  rw [coeff_mul_mk, PowerSeries.coeff_mk]
  by_cases zero : k = 0
  · simpa [zero] using root
  · have last : 2 * (z 0 * z k) = a k - ∑ j ∈ Finset.Ico 1 k, z j * z (k - j) := by
      rw [each k below, UnaryOp.coefficient, if_neg zero, ratio_eq]
      push_cast
      field_simp
    have ends : ∑ j ∈ Finset.range (k + 1), z j * z (k - j) =
        2 * (z 0 * z k) + ∑ j ∈ Finset.Ico 1 k, z j * z (k - j) := by
      rw [Finset.range_eq_Ico, Finset.sum_eq_sum_Ico_succ_bot (Nat.succ_pos k),
        Finset.sum_Ico_succ_top (Nat.pos_of_ne_zero zero), Nat.sub_zero, Nat.sub_self]
      ring
    rw [ends, last]
    ring

private theorem div_identity (each : ∀ k < n, z k = BinaryOp.div.coefficient a b z k)
    (divisor : b 0 ≠ 0) : SameBelow n (mk z * mk b) (mk a) := by
  rw [sameBelow_iff]
  intro k below
  have last : b 0 * z k = a k - ∑ j ∈ Finset.Ico 1 (k + 1), b j * z (k - j) := by
    rw [each k below, BinaryOp.coefficient]
    field_simp
  rw [mul_comm, coeff_mul_mk, PowerSeries.coeff_mk, Finset.range_eq_Ico,
    Finset.sum_eq_sum_Ico_succ_bot (Nat.succ_pos k), Nat.sub_zero, last]
  ring

/-- Coefficients that follow one another by the recurrence satisfy the identity of the operation. -/
private theorem UnaryOp.identity_of_coefficient (op : UnaryOp) (positive : 0 < n)
    (each : ∀ k < n, z k = op.coefficient a z k) : op.Identity n (mk a) (mk z) := by
  have start : z 0 = op.onElem (a 0) := each 0 positive
  refine ⟨by simpa using start, ?_⟩
  cases op with
  | neg =>
    rw [sameBelow_iff]
    intro k below
    rw [map_neg, PowerSeries.coeff_mk, PowerSeries.coeff_mk, each k below, coefficient]
    by_cases zero : k = 0
    · rw [if_pos zero, zero]
      rfl
    · rw [if_neg zero]
  | exp => exact exp_identity each
  | ln =>
    intro divisor
    exact ln_identity each (by simpa using divisor)
  | sqrt =>
    intro root divisor
    exact sqrt_identity each (by simpa using root) (by simpa using divisor)
  | sin =>
    have same : ∀ k < n, z k = (sinCosTerm a k).1 := fun k below =>
      (each k below).trans (coefficient_sin a z k)
    refine ⟨mk fun k => (sinCosTerm a k).2, by simp [sinCosTerm], ?_, ?_⟩
    · rw [sameBelow_iff, ← euler_sin]
      intro k below
      rw [coeff_euler, coeff_euler, PowerSeries.coeff_mk, PowerSeries.coeff_mk, same k below]
    · rw [sameBelow_iff, euler_cos]
      intro k below
      rw [map_neg, map_neg, coeff_euler_mul_congr fun j lower => (same j (by omega)).symm]
  | cos =>
    have same : ∀ k < n, z k = (sinCosTerm a k).2 := fun k below =>
      (each k below).trans (coefficient_cos a z k)
    refine ⟨mk fun k => (sinCosTerm a k).1, by simp [sinCosTerm], ?_, ?_⟩
    · rw [sameBelow_iff, euler_sin]
      intro k below
      rw [coeff_euler_mul_congr fun j lower => (same j (by omega)).symm]
    · rw [sameBelow_iff, ← euler_cos]
      intro k below
      rw [coeff_euler, coeff_euler, PowerSeries.coeff_mk, PowerSeries.coeff_mk, same k below]
  | abs =>
    intro sign
    rw [sameBelow_iff]
    intro k below
    have value : Scalar.abs (a 0) = Scalar.sign (a 0) * a 0 := by simpa using sign
    rw [PowerSeries.coeff_C_mul, PowerSeries.coeff_mk, PowerSeries.coeff_mk, each k below,
      coefficient]
    by_cases zero : k = 0
    · rw [if_pos zero, zero]
      simpa [onElem] using value
    · rw [if_neg zero]
      simp

private theorem BinaryOp.identity_of_coefficient (op : BinaryOp)
    (each : ∀ k < n, z k = op.coefficient a b z k) : op.Identity n (mk a) (mk b) (mk z) := by
  cases op with
  | add | sub =>
    refine sameBelow_iff.2 fun k below => ?_
    simp [each k below, coefficient]
  | mul =>
    refine sameBelow_iff.2 fun k below => ?_
    rw [coeff_mul_mk, PowerSeries.coeff_mk, each k below, coefficient]
  | div =>
    intro divisor
    exact div_identity each (by simpa using divisor)

end Series

namespace Tape

variable {F : Type} [ExactScalar F]

/-- What the series of the entry at a position satisfies up to an order, where the inputs have the
seeds for coefficients.  Of an atomic that is no built-in nothing is said. -/
def Identity (tape : Tape F) (n : Nat) (seed : Nat → List F) (c : Nat → Nat → F) (i : Nat) : Prop :=
  ∃ node, tape.nodes[i]? = some node ∧
    match node.entry with
    | .input => ∀ k < n, (seed k)[i]? = some (c i k)
    | .const => SameBelow n (PowerSeries.mk (c i)) (PowerSeries.C node.value)
    | .unary op a => op.Identity n (PowerSeries.mk (c a)) (PowerSeries.mk (c i))
    | .binary op a b => op.Identity n (PowerSeries.mk (c a)) (PowerSeries.mk (c b)) (PowerSeries.mk (c i))
    | .call place args _ => ∀ r, tape.atomics[place]? = some r → r.IsBuiltIn →
      ∃ a, args = [a] ∧ SameBelow n (PowerSeries.mk (c i)) (PowerSeries.mk (c a))
    | .result _ => True

private theorem identity_of_holds {tape : Tape F} {n i : Nat} {seed : Nat → List F}
    {c : Nat → Nat → F}
    (positive : 0 < n) (inside : i < tape.size) (holds : ∀ k < n, tape.Holds k (seed k) c i) :
    tape.Identity n seed c i := by
  obtain ⟨⟨e, v⟩, node⟩ := exists_node inside
  have found := entry_of_node node
  refine ⟨⟨e, v⟩, node, ?_⟩
  cases e with
  | input => exact fun k below => (holds k below).input found
  | const =>
    refine sameBelow_iff.2 fun k below => ?_
    rw [PowerSeries.coeff_mk, (holds k below).const node, PowerSeries.coeff_C]
    rfl
  | unary op a => exact op.identity_of_coefficient positive fun k below => (holds k below).unary found
  | binary op a b => exact op.identity_of_coefficient fun k below => (holds k below).binary found
  | call place args m =>
    intro r there builtIn
    obtain ⟨_, a, _, _, rfl, _⟩ := (holds 0 positive).call found there builtIn
    refine ⟨a, rfl, sameBelow_iff.2 fun k below => ?_⟩
    obtain ⟨_, a', _, _, args', _, same⟩ := (holds k below).call found there builtIn
    obtain rfl : a = a' := List.head_eq_of_cons_eq args'
    rw [PowerSeries.coeff_mk, PowerSeries.coeff_mk, same]
  | result owner => trivial

end Tape

namespace Evaluator

variable {F : Type} [ExactScalar F]

/-- A run of calls for the orders `0, ..., q` leaves, along each direction, series that satisfy the
identities of their entries up to order `q`, and each answer consists of the terms of its order of
the outputs' series. -/
theorem forwardFrom_identities {e e' : Evaluator F} {q : Nat} {rows answers : List (List (List F))}
    (recorded : e.Recorded) (count : rows.length = q + 1)
    (done : forwardFrom 0 rows e = (.ok answers, e')) :
    (∀ d < e'.numDirections, ∀ i < e'.tape.size,
      e'.table.series i (q + 1) d = .ok (.of (e'.table.along d i) (q + 1)) ∧
      e'.tape.Identity (q + 1) (seedAt rows · d) (e'.table.along d) i) ∧
    ∀ k ≤ q, ∀ seeds, rows[k]? = some seeds →
      answers[k]? = some ((List.range seeds.length).map fun d =>
        e'.outputs.map fun y => e'.table.along d y k) := by
  have ran := forwardFrom_zero recorded.wellFormed done
  have orders : e'.numOrders = q + 1 := by
    rw [ran.orders (List.ne_nil_of_length_eq_add_one count), count, List.length_nil, Nat.zero_add]
  have room : q + 1 ≤ e'.table.capacity := orders ▸ ran.wellFormed.table.orders
  refine ⟨fun d along i inside => ⟨?_, ?_⟩, fun k low seeds found => ?_⟩
  · refine Coefficients.series_eq ran.wellFormed.table fun k below => ⟨?_, by omega, .inr along⟩
    rw [ran.wellFormed.extent]
    exact inside
  · refine Tape.identity_of_holds (Nat.succ_pos q) inside fun k below => ?_
    exact ran.cached.holds k (count ▸ below) d along i inside
  · rw [ran.answers, getElem?_answers, found, List.length_nil, Nat.zero_add]
    rfl

/-- The logarithm at two, through order two. -/
theorem forwardFrom_identities_ln :
    ∃ (f : Program.Frozen ℝ) (answers : List (List (List ℝ))) (e' : Evaluator ℝ),
      Program.freeze Registry.builtins 7 [2] [.unary .ln 0] [1] = .ok f ∧
      forwardFrom 0 [[[2]], [[1]], [[0]]] f.evaluator = (.ok answers, e') ∧
      ∀ d < e'.numDirections, ∀ i < e'.tape.size,
        e'.tape.Identity 3 (seedAt [[[2]], [[1]], [[0]]] · d) (e'.table.along d) i := by
  let tape : Tape ℝ := {
    id := 7
    nodes := #[⟨.input, 2⟩, ⟨.unary .ln 0, Real.log 2⟩]
    numInputs := 1
    atomics := #[] }
  have frozen : Program.freeze Registry.builtins 7 [2] [.unary .ln 0] [1] =
      .ok ⟨[Real.log 2], [.unary .ln 0], .ofTape tape [1]⟩ := rfl
  have recorded : (Evaluator.ofTape tape [1]).Recorded :=
    ⟨_, 7, [2], _, [1], _, Registry.builtins_faithful.numbered, by simp [Step.Foreign], frozen, .refl⟩
  have passing : tape.Passing := Tape.passing_of_no_call (by simp [tape])
  obtain ⟨answers, e', done⟩ := forwardFrom_scalar (k := 0) recorded.wellFormed passing
    (show ∀ seed ∈ [[2], [1], [0]], _ by simp [numInputs, ofTape, tape]) (Nat.zero_le _) (by omega)
  exact ⟨_, answers, e', frozen, done, fun d along i inside =>
    ((forwardFrom_identities recorded rfl done).1 d along i inside).2⟩

end Evaluator

end TaylorTape
