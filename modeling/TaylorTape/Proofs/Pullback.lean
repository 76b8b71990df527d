import Mathlib.Tactic.FieldSimp
import Mathlib.Tactic.LinearCombination
import TaylorTape.Proofs.Duals
import TaylorTape.Series.Reverse

/-!
The backward recurrences are the transposes of the differentials of the forward ones.

A walk through the orders moves what it carries from the partials of the result to those of the
arguments.  Paired with the perturbations of the series that they belong to, the partials that are
still to be passed on and those that have been passed on keep one sum.  So in the end the arguments
have received as much as the result was given.
-/

set_option autoImplicit false
set_option relaxedAutoImplicit false

namespace TaylorTape

namespace Series

section Updates

variable {F : Type} [RingScalar F] {p d : Nat → F} {k n : Nat} {v : F}

theorem zeros_eq_of (n : Nat) : (Series.zeros n : Series F) = .of (fun _ => 0) n := by
  simp [Series.zeros, Series.of]

/-- Partials with an amount added to one of them. -/
def bump (p : Nat → F) (k : Nat) (v : F) : Nat → F :=
  Function.update p k (p k + v)

private theorem bump_of_ne {j : Nat} (other : j ≠ k) : bump p k v j = p j :=
  Function.update_of_ne other _ _

omit [RingScalar F] in
theorem store_of (low : k < n) (p : Nat → F) (v : F) :
    store (Series.of p n) k v = .ok (Series.of (Function.update p k v) n) := by
  refine store_eq_ok_iff.2 ⟨by simpa using low, Array.ext_getElem? fun j => ?_⟩
  rw [Array.getElem?_set, getElem?_of, getElem?_of]
  by_cases same : k = j
  · subst same
    rw [if_pos rfl, if_pos low, Function.update_self]
  · rw [if_neg same, Function.update_of_ne (Ne.symm same)]

theorem addAt_of (low : k < n) (p : Nat → F) (v : F) :
    (Series.of p n).addAt k v = .ok (.of (bump p k v) n) := by
  unfold addAt
  rw [coeff_of low, ok_bind, add_scalar, ok_bind, store_of low]
  rfl

theorem subAt_of (low : k < n) (p : Nat → F) (v : F) :
    (Series.of p n).subAt k v = .ok (.of (bump p k (-v)) n) := by
  unfold subAt
  rw [coeff_of low, ok_bind, sub_scalar, ok_bind, store_of low, sub_eq_add_neg]
  rfl

theorem divAt_of (low : k < n) (p : Nat → F) (v : F) :
    (Series.of p n).divAt k v = .ok (.of (Function.update p k (p k / v)) n) := by
  unfold divAt
  rw [coeff_of low, ok_bind, div_scalar, ok_bind, store_of low]

/-- The partials of the orders below a number, paired with perturbations. -/
def pairing (n : Nat) (p d : Nat → F) : F :=
  ∑ k ∈ Finset.range n, p k * d k

private theorem pairing_succ (n : Nat) (p d : Nat → F) :
    pairing (n + 1) p d = pairing n p d + p n * d n :=
  Finset.sum_range_succ _ _

theorem pairing_congr {p' : Nat → F} (same : ∀ k < n, p k = p' k) :
    pairing n p d = pairing n p' d :=
  Finset.sum_congr rfl fun k member => by rw [same k (Finset.mem_range.1 member)]

theorem pairing_zero (n : Nat) (d : Nat → F) : pairing n (fun _ => 0) d = 0 := by
  simp [pairing]

private theorem pairing_bump (low : k < n) :
    pairing n (bump p k v) d = pairing n p d + v * d k := by
  unfold pairing
  rw [← Finset.add_sum_erase _ _ (Finset.mem_range.2 low),
    ← Finset.add_sum_erase (Finset.range n) (fun k => p k * d k) (Finset.mem_range.2 low)]
  have others : ∀ j ∈ (Finset.range n).erase k, bump p k v j * d j = p j * d j :=
    fun j member => by rw [bump_of_ne (Finset.ne_of_mem_erase member)]
  have own : bump p k v k = p k + v := Function.update_self _ _ _
  rw [Finset.sum_congr rfl others, own]
  ring

private theorem pairing_update (n : Nat) (p d : Nat → F) (v : F) :
    pairing n (Function.update p n v) d = pairing n p d :=
  pairing_congr fun _ below => Function.update_of_ne (Nat.ne_of_lt below) _ _

omit [RingScalar F] in
private theorem exists_of {x : Except Error (Series F)} {Q : (Nat → F) → Prop}
    (found : ∃ t, x = .ok t ∧ ∃ p, t = .of p n ∧ Q p) : ∃ p, x = .ok (.of p n) ∧ Q p := by
  obtain ⟨_, done, p, rfl, held⟩ := found
  exact ⟨p, done, held⟩

/-- A walk that adds an amount to one of the partials at each step. -/
theorem foldlM_bump {f : Series F → Nat → Except Error (Series F)} {p₀ : Nat → F} {a b : Nat}
    {Q : (Nat → F) → Prop} (m : Nat) (d : Nat → F) (place : Nat → Nat) (u : Nat → F)
    (step : ∀ p j, a ≤ j → j < a + b → (∀ l, m ≤ l → p l = p₀ l) →
      f (.of p n) j = .ok (.of (bump p (place j) (u j)) n))
    (low : ∀ j, a ≤ j → j < a + b → place j < m)
    (finish : ∀ p, (∀ l, m ≤ l → p l = p₀ l) →
      pairing m p d = pairing m p₀ d + ∑ j ∈ Finset.Ico a (a + b), u j * d (place j) → Q p) :
    ∃ t, (List.range' a b).foldlM f (.of p₀ n) = .ok t ∧ ∃ p, t = .of p n ∧ Q p := by
  obtain ⟨_, done, p, rfl, kept, sum⟩ := foldlM_up (f := f) (a := a) (n := b) (s := .of p₀ n)
    (P := fun i s => ∃ p, s = .of p n ∧ (∀ l, m ≤ l → p l = p₀ l) ∧
      pairing m p d = pairing m p₀ d + ∑ j ∈ Finset.Ico a i, u j * d (place j))
    (by
      rintro j _ start stop ⟨p, rfl, kept, sum⟩
      refine ⟨_, step p j start stop kept, _, rfl, fun l high => ?_, ?_⟩
      · have := low j start stop
        rw [bump_of_ne (by omega), kept l high]
      · rw [pairing_bump (low j start stop), sum, Finset.sum_Ico_succ_top start, add_assoc])
    ⟨p₀, rfl, fun _ _ => rfl, by simp⟩
  exact ⟨_, done, p, rfl, finish p kept sum⟩

private theorem foldlM_bump_pair
    {f : Series F × Series F → Nat → Except Error (Series F × Series F)}
    {p₀ r₀ : Nat → F} {a b : Nat} {Q : (Nat → F) → (Nat → F) → Prop} (m m' : Nat) (d d' : Nat → F)
    (place place' : Nat → Nat) (u u' : Nat → F)
    (step : ∀ p r j, a ≤ j → j < a + b → (∀ l, m ≤ l → p l = p₀ l) →
      f (.of p n, .of r n) j =
        .ok (.of (bump p (place j) (u j)) n, .of (bump r (place' j) (u' j)) n))
    (low : ∀ j, a ≤ j → j < a + b → place j < m)
    (low' : ∀ j, a ≤ j → j < a + b → place' j < m')
    (finish : ∀ p r, (∀ l, m ≤ l → p l = p₀ l) →
      pairing m p d + pairing m' r d' = pairing m p₀ d + pairing m' r₀ d' +
        ∑ j ∈ Finset.Ico a (a + b), (u j * d (place j) + u' j * d' (place' j)) → Q p r) :
    ∃ t, (List.range' a b).foldlM f (.of p₀ n, .of r₀ n) = .ok t ∧
      ∃ p r, t = (.of p n, .of r n) ∧ Q p r := by
  obtain ⟨_, done, p, r, rfl, kept, sum⟩ := foldlM_up (f := f) (a := a) (n := b)
    (s := (.of p₀ n, .of r₀ n))
    (P := fun i s => ∃ p r, s = (.of p n, .of r n) ∧ (∀ l, m ≤ l → p l = p₀ l) ∧
      pairing m p d + pairing m' r d' = pairing m p₀ d + pairing m' r₀ d' +
        ∑ j ∈ Finset.Ico a i, (u j * d (place j) + u' j * d' (place' j)))
    (by
      rintro j _ start stop ⟨p, r, rfl, kept, sum⟩
      refine ⟨_, step p r j start stop kept, _, _, rfl, fun l high => ?_, ?_⟩
      · have := low j start stop
        rw [bump_of_ne (by omega), kept l high]
      · rw [pairing_bump (low j start stop), pairing_bump (low' j start stop),
          Finset.sum_Ico_succ_top start]
        linear_combination sum)
    ⟨p₀, r₀, rfl, fun _ _ => rfl, by simp⟩
  exact ⟨_, done, p, r, rfl, finish p r kept sum⟩

private theorem foldlM_walk {f : Series F × Series F → Nat → Except Error (Series F × Series F)}
    {g : Series F × Series F → Except Error (Series F)} {p₀ r₀ : Nat → F} (d d' : Nat → F)
    (positive : 0 < n)
    (step : ∀ p r k, 1 ≤ k → k < n → ∃ t, f (.of p n, .of r n) k = .ok t ∧
      ∃ p' r', t = (.of p' n, .of r' n) ∧
        pairing k p' d + pairing n r' d' = pairing (k + 1) p d + pairing n r d')
    (last : ∀ p r, ∃ r', g (.of p n, .of r n) = .ok (.of r' n) ∧
      pairing n r' d' = pairing n r d' + p 0 * d 0) :
    ∃ r, (Series.descending (n - 1)).foldlM f (.of p₀ n, .of r₀ n) >>= g = .ok (.of r n) ∧
      pairing n r d' = pairing n r₀ d' + pairing n p₀ d := by
  obtain ⟨_, walked, p, r, rfl, sum⟩ := foldlM_down (f := f) (a := 1) (n := n - 1)
    (s := (.of p₀ n, .of r₀ n))
    (P := fun i s => ∃ p r, s = (.of p n, .of r n) ∧
      pairing i p d + pairing n r d' = pairing n r₀ d' + pairing n p₀ d)
    (by
      rintro k _ low high ⟨p, r, rfl, sum⟩
      obtain ⟨_, done, p', r', rfl, kept⟩ := step p r k low (by omega)
      exact ⟨_, done, p', r', rfl, kept.trans sum⟩)
    ⟨p₀, r₀, rfl, by rw [Nat.add_sub_cancel' positive, add_comm]⟩
  obtain ⟨r', done, kept⟩ := last p r
  refine ⟨r', bind_eq_ok.2 ⟨_, walked, done⟩, ?_⟩
  rw [kept, ← sum, pairing_succ]
  simp [pairing, add_comm]

end Updates

end Series

namespace Duals

variable {F : Type} [ExactScalar F]

/-- The real parts of coefficients. -/
abbrev reals (a : Nat → DualNumber F) : Nat → F :=
  fun k => (a k).fst

/-- The infinitesimal parts of coefficients. -/
abbrev shifts (a : Nat → DualNumber F) : Nat → F :=
  fun k => (a k).snd

private theorem snd_ratio (j k : Nat) : (Scalar.ratio j k : DualNumber F).snd = 0 := by
  show ((0 : F) * _ - _ * 0) / _ = 0
  simp

private theorem snd_mul_ratio (x : DualNumber F) (j k : Nat) :
    (x * Scalar.ratio j k).snd = x.snd * Scalar.ratio j k := by
  simp [snd_ratio]

private theorem mul_snd_div {x y z : DualNumber F} (own : z = x / y) (divisor : y.fst ≠ 0) :
    y.fst * z.snd = x.snd - z.fst * y.snd := by
  rw [own, snd_div, fst_div]
  field_simp

end Duals

open Series Duals

section Walks

variable {F : Type} [ExactScalar F] {a b z : Nat → DualNumber F} {p r₀ s₀ : Nat → F} {n : Nat}

theorem start_exp (own : z 0 = UnaryOp.exp.coefficient a z 0) :
    shifts z 0 = reals z 0 * shifts a 0 := by
  show (z 0).snd = (z 0).fst * _
  rw [own]
  rfl

theorem start_ln (own : z 0 = UnaryOp.ln.coefficient a z 0) :
    shifts z 0 = shifts a 0 / reals a 0 := by
  show (z 0).snd = _
  rw [own]
  rfl

/-- The differential of the square root. -/
theorem start_sqrt (own : z 0 = UnaryOp.sqrt.coefficient a z 0) :
    shifts z 0 = shifts a 0 / (reals z 0 * 2) := by
  have start : shifts z 0 = shifts a 0 / (reals z 0 * Scalar.ofNat 2) := by
    show (z 0).snd = _ / ((z 0).fst * _)
    rw [own]
    rfl
  rwa [ExactScalar.ofNat_eq, Nat.cast_ofNat] at start

theorem start_sinCos (a : Nat → DualNumber F) :
    (sinCosTerm a 0).1.snd = (sinCosTerm (reals a) 0).2 * shifts a 0 ∧
      (sinCosTerm a 0).2.snd = -((sinCosTerm (reals a) 0).1 * shifts a 0) := by
  simp only [sinCosTerm]
  exact ⟨rfl, rfl⟩

theorem shift_neg {k : Nat} (own : z k = UnaryOp.neg.coefficient a z k) :
    shifts z k = -shifts a k := by
  show (z k).snd = _
  rw [own, UnaryOp.coefficient]
  split
  · rename_i zero
    rw [zero]
    exact TrivSqZeroExt.snd_neg (a 0)
  · exact TrivSqZeroExt.snd_neg (a k)

theorem shift_abs {k : Nat} (own : z k = UnaryOp.abs.coefficient a z k) :
    shifts z k = Scalar.sign (reals a 0) * shifts a k := by
  show (z k).snd = _
  rw [own, UnaryOp.coefficient]
  split
  · rename_i zero
    rw [zero]
    rfl
  · rw [sign_eq, DualNumber.snd_mul]
    simp

theorem shift_exp {k : Nat} (positive : 0 < k) (own : z k = UnaryOp.exp.coefficient a z k) :
    shifts z k = ∑ j ∈ Finset.Ico 1 (k + 1), Scalar.ratio j k *
      (reals a j * shifts z (k - j) + reals z (k - j) * shifts a j) := by
  show (z k).snd = _
  rw [own, UnaryOp.coefficient, if_neg (Nat.ne_of_gt positive), snd_sum]
  refine Finset.sum_congr rfl fun j _ => ?_
  rw [snd_mul_ratio]
  simp
  ring

private theorem exp_pullback (positive : 0 < n)
    (each : ∀ k < n, z k = UnaryOp.exp.coefficient a z k) :
    ∃ pa, UnaryOp.exp.pullback (.of (reals a) n) (.of (reals z) n) (.of p n) (.of r₀ n) =
        .ok (.of pa n) ∧
      pairing n pa (shifts a) = pairing n r₀ (shifts a) + pairing n p (shifts z) := by
  have first := start_exp (each 0 positive)
  rw [UnaryOp.pullback, size_of]
  refine foldlM_walk (shifts z) (shifts a) positive (fun p r k low high => ?_) fun p r => ?_
  · refine foldlM_bump_pair k n (shifts z) (shifts a) (fun j => k - j) (fun j => j)
      (fun j => p k * Scalar.ratio j k * reals a j)
      (fun j => p k * Scalar.ratio j k * reals z (k - j)) (fun p' r' j start stop kept => ?_)
      (fun j start stop => by omega) (fun j start stop => by omega) fun p' r' _ sum => ?_
    · simp only [coeff_of high, coeff_of (show j < n by omega), coeff_of (show k - j < n by omega),
        ok_bind, mul_scalar, scale_scalar, addAt_of (show j < n by omega),
        addAt_of (show k - j < n by omega), kept k le_rfl]
      rfl
    · rw [sum, pairing_succ, shift_exp low (each k high), Finset.mul_sum, Nat.add_comm 1 k]
      rw [add_right_comm]
      refine congrArg (· + _) (congrArg _ (Finset.sum_congr rfl fun j _ => ?_))
      ring
  · refine ⟨bump r 0 (p 0 * reals z 0), ?_, ?_⟩
    · simp only [coeff_of positive, ok_bind, mul_scalar, addAt_of positive]
    · rw [pairing_bump positive, first]
      ring

/-- The differential of the recurrence of the logarithm. -/
theorem shift_ln {k : Nat} (positive : 0 < k) (own : z k = UnaryOp.ln.coefficient a z k)
    (divisor : reals a 0 ≠ 0) :
    reals a 0 * shifts z k = shifts a k - reals z k * shifts a 0 -
      ∑ j ∈ Finset.Ico 1 k, Scalar.ratio j k *
        (shifts z j * reals a (k - j) + reals z j * shifts a (k - j)) := by
  rw [UnaryOp.coefficient, if_neg (Nat.ne_of_gt positive)] at own
  show (a 0).fst * (z k).snd = _
  rw [mul_snd_div own divisor, TrivSqZeroExt.snd_sub, snd_sum, sub_right_comm]
  refine congrArg _ (Finset.sum_congr rfl fun j _ => ?_)
  rw [snd_mul_ratio]
  simp
  ring

private theorem ln_pullback (positive : 0 < n) (each : ∀ k < n, z k = UnaryOp.ln.coefficient a z k)
    (divisor : 1 < n → reals a 0 ≠ 0) :
    ∃ pa, UnaryOp.ln.pullback (.of (reals a) n) (.of (reals z) n) (.of p n) (.of r₀ n) =
        .ok (.of pa n) ∧
      pairing n pa (shifts a) = pairing n r₀ (shifts a) + pairing n p (shifts z) := by
  have first := start_ln (each 0 positive)
  rw [UnaryOp.pullback, size_of]
  refine foldlM_walk (shifts z) (shifts a) positive (fun p r k low high => ?_) fun p r => ?_
  · have nonzero := divisor (by omega)
    simp only [divAt_of high, coeff_of high, coeff_of positive, ok_bind, mul_scalar,
      subAt_of positive, addAt_of high, Function.update_self]
    refine foldlM_bump_pair k n (shifts z) (shifts a) (fun j => j) (fun j => k - j)
      (fun j => -(p k / reals a 0 * Scalar.ratio j k * reals a (k - j)))
      (fun j => -(p k / reals a 0 * Scalar.ratio j k * reals z j)) (fun p' r' j start stop kept => ?_)
      (fun j start stop => by omega) (fun j start stop => by omega) fun p' r' _ sum => ?_
    · simp only [coeff_of high, coeff_of (show j < n by omega), coeff_of (show k - j < n by omega),
        ok_bind, scale_scalar, subAt_of (show j < n by omega), subAt_of (show k - j < n by omega),
        kept k le_rfl, Function.update_self]
      rfl
    · have shift := shift_ln low (each k high) nonzero
      have quotient : p k / reals a 0 * reals a 0 = p k := div_mul_cancel₀ _ nonzero
      generalize p k / reals a 0 = w at sum quotient
      rw [Nat.add_sub_cancel' low, pairing_update, pairing_bump high, pairing_bump positive] at sum
      have terms : ∑ j ∈ Finset.Ico 1 k,
          (-(w * Scalar.ratio j k * reals a (k - j)) * shifts z j +
            -(w * Scalar.ratio j k * reals z j) * shifts a (k - j)) =
          -(w * ∑ j ∈ Finset.Ico 1 k, Scalar.ratio j k *
            (shifts z j * reals a (k - j) + reals z j * shifts a (k - j))) := by
        rw [Finset.mul_sum, ← Finset.sum_neg_distrib]
        refine Finset.sum_congr rfl fun j _ => ?_
        ring
      rw [sum, terms, pairing_succ, ← quotient]
      linear_combination -w * shift
  · refine ⟨bump r 0 (p 0 / reals a 0), ?_, ?_⟩
    · simp only [coeff_of positive, ok_bind, div_scalar, addAt_of positive]
    · rw [pairing_bump positive, first]
      ring

/-- The differential of the recurrence of the square root. -/
theorem shift_sqrt {k : Nat} (positive : 0 < k) (own : z k = UnaryOp.sqrt.coefficient a z k)
    (divisor : reals z 0 ≠ 0) :
    2 * (reals z 0 * shifts z k) = shifts a k - 2 * (reals z k * shifts z 0) -
      2 * ∑ j ∈ Finset.Ico 1 k, reals z (k - j) * shifts z j := by
  rw [UnaryOp.coefficient, if_neg (Nat.ne_of_gt positive)] at own
  have two : (Scalar.ratio 2 1 : F) = 2 := by
    rw [ratio_eq]
    norm_num
  have nonzero : (z 0 * Scalar.ratio 2 1).fst ≠ 0 := by
    rw [TrivSqZeroExt.fst_mul, fst_ratio, two]
    exact mul_ne_zero divisor two_ne_zero
  have quotient := mul_snd_div own nonzero
  -- the sum is symmetric in the two factors of its terms
  have other : ∑ j ∈ Finset.Ico 1 k, reals z j * shifts z (k - j) =
      ∑ j ∈ Finset.Ico 1 k, reals z (k - j) * shifts z j := by
    have mirrored := Finset.sum_Ico_reflect (fun j => reals z (k - j) * shifts z j) 1 (Nat.le_succ k)
    rw [Nat.add_sub_cancel_left, Nat.add_sub_cancel] at mirrored
    rw [← mirrored]
    refine Finset.sum_congr rfl fun j member => ?_
    rw [Nat.sub_sub_self (le_of_lt (Finset.mem_Ico.1 member).2)]
  have terms : (∑ j ∈ Finset.Ico 1 k, z j * z (k - j)).snd =
      2 * ∑ j ∈ Finset.Ico 1 k, reals z (k - j) * shifts z j := by
    calc
      _ = ∑ j ∈ Finset.Ico 1 k, (reals z j * shifts z (k - j) + reals z (k - j) * shifts z j) := by
        rw [snd_sum]
        refine Finset.sum_congr rfl fun j _ => ?_
        rw [DualNumber.snd_mul, mul_comm (z j).snd]
      _ = _ := by rw [Finset.sum_add_distrib, other, two_mul]
  rw [TrivSqZeroExt.snd_sub, terms, snd_mul_ratio, TrivSqZeroExt.fst_mul, fst_ratio, two] at quotient
  linear_combination quotient

private theorem sqrt_pullback (positive : 0 < n)
    (each : ∀ k < n, z k = UnaryOp.sqrt.coefficient a z k) (divisor : 1 < n → reals z 0 ≠ 0) :
    ∃ pa, UnaryOp.sqrt.pullback (.of (reals a) n) (.of (reals z) n) (.of p n) (.of r₀ n) =
        .ok (.of pa n) ∧
      pairing n pa (shifts a) = pairing n r₀ (shifts a) + pairing n p (shifts z) := by
  have half : (Scalar.ratio 1 2 : F) = 1 / 2 := by
    rw [ratio_eq]
    norm_num
  have first := start_sqrt (each 0 positive)
  rw [UnaryOp.pullback, size_of]
  refine foldlM_walk (shifts z) (shifts a) positive (fun p r k low high => ?_) fun p r => ?_
  · have nonzero := divisor (by omega)
    have apart : k ≠ 0 := Nat.ne_of_gt low
    simp only [divAt_of high, coeff_of high, coeff_of positive, ok_bind, mul_scalar, scale_scalar,
      subAt_of positive, addAt_of high, bump_of_ne apart, Function.update_self]
    refine exists_bind (foldlM_bump k (shifts z) (fun j => j)
      (fun j => -(p k / reals z 0 * reals z (k - j))) (fun p' j start stop kept => ?_)
      (fun j start stop => by omega) fun p' _ sum => sum) ?_
    · simp only [coeff_of high, coeff_of (show k - j < n by omega), ok_bind,
        subAt_of (show j < n by omega), kept k le_rfl, bump_of_ne apart, Function.update_self]
    · rintro _ ⟨p', rfl, sum⟩
      refine ⟨_, rfl, p', _, rfl, ?_⟩
      have shift := shift_sqrt low (each k high) nonzero
      have quotient : p k / reals z 0 * reals z 0 = p k := div_mul_cancel₀ _ nonzero
      generalize p k / reals z 0 = w at sum quotient ⊢
      rw [Nat.add_sub_cancel' low, pairing_bump low, pairing_update] at sum
      have terms : ∑ j ∈ Finset.Ico 1 k, -(w * reals z (k - j)) * shifts z j =
          -(w * ∑ j ∈ Finset.Ico 1 k, reals z (k - j) * shifts z j) := by
        rw [Finset.mul_sum, ← Finset.sum_neg_distrib]
        refine Finset.sum_congr rfl fun j _ => ?_
        ring
      rw [sum, terms, pairing_bump high, pairing_succ, ← quotient, half]
      linear_combination -w / 2 * shift
  · refine ⟨bump r 0 (p 0 / reals z 0 * Scalar.ratio 1 2), ?_, ?_⟩
    · simp only [coeff_of positive, ok_bind, div_scalar, scale_scalar, addAt_of positive]
    · rw [pairing_bump positive, first, half]
      ring

/-- The differentials of the recurrences of the sine and the cosine. -/
theorem shift_sinCos (a : Nat → DualNumber F) {k : Nat} (positive : 0 < k) :
    (sinCosTerm a k).1.snd = ∑ j ∈ Finset.Ico 1 (k + 1), Scalar.ratio j k *
      (reals a j * (sinCosTerm a (k - j)).2.snd + (sinCosTerm (reals a) (k - j)).2 * shifts a j) ∧
    (sinCosTerm a k).2.snd = -∑ j ∈ Finset.Ico 1 (k + 1), Scalar.ratio j k *
      (reals a j * (sinCosTerm a (k - j)).1.snd +
        (sinCosTerm (reals a) (k - j)).1 * shifts a j) := by
  rw [sinCosTerm_of_pos a positive]
  constructor
  · rw [snd_sum]
    refine Finset.sum_congr rfl fun j _ => ?_
    rw [← (fst_sinCosTerm a (k - j)).2]
    simp [snd_ratio]
    ring
  · rw [TrivSqZeroExt.snd_neg, snd_sum]
    refine congrArg _ (Finset.sum_congr rfl fun j _ => ?_)
    rw [← (fst_sinCosTerm a (k - j)).1]
    simp [snd_ratio]
    ring

/-- The sine and the cosine together pass on what they are given. -/
private theorem sinCosPullback_of (a : Nat → DualNumber F) (ps pc r₀ : Nat → F) (positive : 0 < n) :
    ∃ pa, Series.sinCosPullback (.of (reals a) n) (.of ps n) (.of pc n) (.of r₀ n) =
        .ok (.of pa n) ∧ pairing n pa (shifts a) = pairing n r₀ (shifts a) +
          (pairing n ps (fun k => (sinCosTerm a k).1.snd) +
            pairing n pc (fun k => (sinCosTerm a k).2.snd)) := by
  have pair := sinCos_of (reals a) (show n - 1 < n by omega)
  rw [Nat.sub_add_cancel positive] at pair
  rw [Series.sinCosPullback, size_of, pair, ok_bind]
  set ds : Nat → F := fun k => (sinCosTerm a k).1.snd
  set dc : Nat → F := fun k => (sinCosTerm a k).2.snd
  set s : Nat → F := fun k => (sinCosTerm (reals a) k).1
  set c : Nat → F := fun k => (sinCosTerm (reals a) k).2
  refine exists_of (exists_bind (foldlM_down (a := 1) (n := n - 1)
    (P := fun i (walk : Series F × Series F × Series F) => ∃ p r h,
      walk = (.of p n, .of r n, .of h n) ∧
      pairing i p ds + pairing i r dc + pairing n h (shifts a) =
        pairing n r₀ (shifts a) + (pairing n ps ds + pairing n pc dc))
    ?_ ⟨ps, pc, r₀, rfl, ?_⟩) ?_)
  · rintro k _ low high ⟨p, r, h, rfl, sum⟩
    have inside : k < n := by omega
    refine Exists.imp (fun walk done => ⟨done.1, ?_⟩) (foldlM_up (a := 1) (n := k)
      (P := fun i (walk : Series F × Series F × Series F) => ∃ p' r' h',
        walk = (.of p' n, .of r' n, .of h' n) ∧ p' k = p k ∧ r' k = r k ∧
        pairing k p' ds + pairing k r' dc + pairing n h' (shifts a) =
          pairing k p ds + pairing k r dc + pairing n h (shifts a) +
            (p k * ∑ j ∈ Finset.Ico 1 i, Scalar.ratio j k *
                (reals a j * dc (k - j) + c (k - j) * shifts a j) -
              r k * ∑ j ∈ Finset.Ico 1 i, Scalar.ratio j k *
                (reals a j * ds (k - j) + s (k - j) * shifts a j)))
      ?_ ⟨p, r, h, rfl, rfl, rfl, by simp⟩)
    · obtain ⟨p', r', h', rfl, _, _, total⟩ := done.2
      obtain ⟨shift, shift'⟩ := shift_sinCos a low
      refine ⟨p', r', h', rfl, ?_⟩
      rw [total, ← sum, pairing_succ, pairing_succ, Nat.add_comm 1 k]
      linear_combination -p k * shift - r k * shift'
    · rintro j _ start stop ⟨p', r', h', rfl, own, own', total⟩
      have below : k - j < n := by omega
      have upto : j < n := by omega
      have apart : k ≠ k - j := by omega
      simp only [coeff_of inside, coeff_of below, coeff_of upto, ok_bind, mul_scalar, scale_scalar,
        addAt_of upto, subAt_of upto, addAt_of below, subAt_of below]
      refine ⟨_, rfl, _, _, _, rfl, ?_, ?_, ?_⟩
      · rw [bump_of_ne apart, own]
      · rw [bump_of_ne apart, own']
      · rw [pairing_bump (show k - j < k by omega), pairing_bump (show k - j < k by omega),
          pairing_bump upto, pairing_bump upto, own, own', Finset.sum_Ico_succ_top start,
          Finset.sum_Ico_succ_top start]
        linear_combination total
  · rw [Nat.add_sub_cancel' positive, add_comm]
  · rintro _ ⟨p, r, h, rfl, sum⟩
    obtain ⟨first, first'⟩ : ds 0 = c 0 * shifts a 0 ∧ dc 0 = -(s 0 * shifts a 0) := start_sinCos a
    simp only [coeff_of positive, ok_bind, mul_scalar, addAt_of positive, subAt_of positive]
    refine ⟨_, rfl, _, rfl, ?_⟩
    rw [pairing_bump positive, pairing_bump positive, ← sum]
    simp only [pairing, Finset.sum_range_one, first, first']
    ring

private theorem neg_pullback (positive : 0 < n)
    (each : ∀ k < n, z k = UnaryOp.neg.coefficient a z k) :
    ∃ pa, UnaryOp.neg.pullback (.of (reals a) n) (.of (reals z) n) (.of p n) (.of r₀ n) =
        .ok (.of pa n) ∧
      pairing n pa (shifts a) = pairing n r₀ (shifts a) + pairing n p (shifts z) := by
  rw [UnaryOp.pullback, size_of, Nat.sub_add_cancel positive, List.range_eq_range']
  refine exists_of (foldlM_bump n (shifts a) (fun j => j) (fun j => -p j)
    (fun r j _ stop _ => ?_) (fun j _ stop => by omega) fun r _ sum => ?_)
  · have below : j < n := by omega
    rw [coeff_of below, ok_bind, subAt_of below]
  · rw [sum, Nat.zero_add, ← Finset.range_eq_Ico]
    refine congrArg _ (Finset.sum_congr rfl fun j member => ?_)
    rw [shift_neg (each j (Finset.mem_range.1 member)), neg_mul, mul_neg]

private theorem abs_pullback (positive : 0 < n)
    (each : ∀ k < n, z k = UnaryOp.abs.coefficient a z k) :
    ∃ pa, UnaryOp.abs.pullback (.of (reals a) n) (.of (reals z) n) (.of p n) (.of r₀ n) =
        .ok (.of pa n) ∧
      pairing n pa (shifts a) = pairing n r₀ (shifts a) + pairing n p (shifts z) := by
  rw [UnaryOp.pullback, size_of, Nat.sub_add_cancel positive, List.range_eq_range',
    coeff_of positive, ok_bind]
  refine exists_of (foldlM_bump n (shifts a) (fun j => j) (fun j => Scalar.sign (reals a 0) * p j)
    (fun r j _ stop _ => ?_) (fun j _ stop => by omega) fun r _ sum => ?_)
  · have below : j < n := by omega
    simp only [coeff_of below, ok_bind, map_scalar, mul_scalar, addAt_of below]
  · rw [sum, Nat.zero_add, ← Finset.range_eq_Ico]
    refine congrArg _ (Finset.sum_congr rfl fun j member => ?_)
    rw [shift_abs (each j (Finset.mem_range.1 member))]
    ring

/-- What must not vanish at order zero where an operation of one argument has higher orders. -/
def UnaryOp.Regular (op : UnaryOp) (a0 z0 : F) : Prop :=
  match op with
  | .ln => a0 ≠ 0
  | .sqrt => z0 ≠ 0
  | .neg | .exp | .sin | .cos | .abs => True

/-- An operation of one argument adds to the partials of its argument what it passes on. -/
theorem UnaryOp.pullback_from (op : UnaryOp) (positive : 0 < n)
    (each : ∀ k < n, z k = op.coefficient a z k)
    (regular : 1 < n → op.Regular (reals a 0) (reals z 0)) (p r₀ : Nat → F) :
    ∃ pa, op.pullback (.of (reals a) n) (.of (reals z) n) (.of p n) (.of r₀ n) = .ok (.of pa n) ∧
      pairing n pa (shifts a) = pairing n r₀ (shifts a) + pairing n p (shifts z) := by
  cases op with
  | neg => exact neg_pullback positive each
  | abs => exact abs_pullback positive each
  | exp => exact exp_pullback positive each
  | ln => exact ln_pullback positive each regular
  | sqrt => exact sqrt_pullback positive each regular
  | sin =>
    obtain ⟨pa, done, sum⟩ := sinCosPullback_of a p (fun _ => 0) r₀ positive
    refine ⟨pa, ?_, ?_⟩
    · rwa [pullback, size_of, Nat.sub_add_cancel positive, zeros_eq_of]
    · rw [sum, pairing_zero, add_zero]
      refine congrArg _ (Finset.sum_congr rfl fun k member => ?_)
      rw [shifts, each k (Finset.mem_range.1 member), coefficient_sin]
  | cos =>
    obtain ⟨pa, done, sum⟩ := sinCosPullback_of a (fun _ => 0) p r₀ positive
    refine ⟨pa, ?_, ?_⟩
    · rwa [pullback, size_of, Nat.sub_add_cancel positive, zeros_eq_of]
    · rw [sum, pairing_zero, zero_add]
      refine congrArg _ (Finset.sum_congr rfl fun k member => ?_)
      rw [shifts, each k (Finset.mem_range.1 member), coefficient_cos]

/-- An operation of one argument passes on what it is given: the partials of its argument paired
with the differential of the argument are those of its result paired with that of the result. -/
def UnaryOp.Balances (op : UnaryOp) (a z : Nat → DualNumber F) (n : Nat) : Prop :=
  ∀ p : Nat → F,
    ∃ pa, op.pullback (.of (reals a) n) (.of (reals z) n) (.of p n) (Series.zeros n) =
        .ok (.of pa n) ∧ pairing n pa (shifts a) = pairing n p (shifts z)

theorem UnaryOp.pullback_of (op : UnaryOp) (positive : 0 < n)
    (each : ∀ k < n, z k = op.coefficient a z k)
    (regular : 1 < n → op.Regular (reals a 0) (reals z 0)) : op.Balances a z n := by
  intro p
  obtain ⟨pa, done, sum⟩ := op.pullback_from positive each regular p fun _ => 0
  rw [pairing_zero, zero_add] at sum
  rw [zeros_eq_of]
  exact ⟨pa, done, sum⟩

private theorem add_pullback (positive : 0 < n)
    (each : ∀ k < n, z k = BinaryOp.add.coefficient a b z k) :
    ∃ t, BinaryOp.add.pullback (.of (reals a) n) (.of (reals b) n) (.of (reals z) n) (.of p n)
        (.of r₀ n) (.of s₀ n) = .ok t ∧ ∃ pa pb, t = (.of pa n, .of pb n) ∧
      pairing n pa (shifts a) + pairing n pb (shifts b) =
        pairing n r₀ (shifts a) + pairing n s₀ (shifts b) + pairing n p (shifts z) := by
  rw [BinaryOp.pullback, size_of, Nat.sub_add_cancel positive, List.range_eq_range']
  refine foldlM_bump_pair n n (shifts a) (shifts b) (fun j => j) (fun j => j) p p
    (fun r r' j _ stop _ => ?_) (fun j _ stop => by omega) (fun j _ stop => by omega)
    fun r r' _ sum => ?_
  · have below : j < n := by omega
    simp only [coeff_of below, ok_bind, addAt_of below]
    rfl
  · rw [sum, Nat.zero_add, ← Finset.range_eq_Ico]
    refine congrArg _ (Finset.sum_congr rfl fun k member => ?_)
    show _ = p k * (z k).snd
    rw [each k (Finset.mem_range.1 member), BinaryOp.coefficient, TrivSqZeroExt.snd_add, mul_add]

private theorem sub_pullback (positive : 0 < n)
    (each : ∀ k < n, z k = BinaryOp.sub.coefficient a b z k) :
    ∃ t, BinaryOp.sub.pullback (.of (reals a) n) (.of (reals b) n) (.of (reals z) n) (.of p n)
        (.of r₀ n) (.of s₀ n) = .ok t ∧ ∃ pa pb, t = (.of pa n, .of pb n) ∧
      pairing n pa (shifts a) + pairing n pb (shifts b) =
        pairing n r₀ (shifts a) + pairing n s₀ (shifts b) + pairing n p (shifts z) := by
  rw [BinaryOp.pullback, size_of, Nat.sub_add_cancel positive, List.range_eq_range']
  refine foldlM_bump_pair n n (shifts a) (shifts b) (fun j => j) (fun j => j) p (fun j => -p j)
    (fun r r' j _ stop _ => ?_) (fun j _ stop => by omega) (fun j _ stop => by omega)
    fun r r' _ sum => ?_
  · have below : j < n := by omega
    simp only [coeff_of below, ok_bind, addAt_of below, subAt_of below]
    rfl
  · rw [sum, Nat.zero_add, ← Finset.range_eq_Ico]
    refine congrArg _ (Finset.sum_congr rfl fun k member => ?_)
    show _ = p k * (z k).snd
    rw [each k (Finset.mem_range.1 member), BinaryOp.coefficient, TrivSqZeroExt.snd_sub]
    ring

private theorem mul_pullback (positive : 0 < n)
    (each : ∀ k < n, z k = BinaryOp.mul.coefficient a b z k) :
    ∃ t, BinaryOp.mul.pullback (.of (reals a) n) (.of (reals b) n) (.of (reals z) n) (.of p n)
        (.of r₀ n) (.of s₀ n) = .ok t ∧ ∃ pa pb, t = (.of pa n, .of pb n) ∧
      pairing n pa (shifts a) + pairing n pb (shifts b) =
        pairing n r₀ (shifts a) + pairing n s₀ (shifts b) + pairing n p (shifts z) := by
  rw [BinaryOp.pullback, size_of, Nat.sub_add_cancel positive, List.range_eq_range']
  refine Exists.imp (fun walk done => ⟨done.1, ?_⟩) (foldlM_up (a := 0) (n := n)
    (P := fun i (walk : Series F × Series F) => ∃ r r', walk = (.of r n, .of r' n) ∧
      pairing n r (shifts a) + pairing n r' (shifts b) =
        pairing n r₀ (shifts a) + pairing n s₀ (shifts b) + pairing i p (shifts z))
    ?_ ⟨r₀, s₀, rfl, by simp [pairing]⟩)
  · obtain ⟨r, r', rfl, sum⟩ := done.2
    rw [Nat.zero_add] at sum
    exact ⟨r, r', rfl, sum⟩
  · rintro k _ _ high ⟨r, r', rfl, sum⟩
    rw [List.range_eq_range']
    refine foldlM_bump_pair n n (shifts a) (shifts b) (fun j => j) (fun j => k - j)
      (fun j => p k * reals b (k - j)) (fun j => p k * reals a j) (fun s s' j _ stop _ => ?_)
      (fun j _ stop => by omega) (fun j _ stop => by omega) fun s s' _ sum' => ?_
    · have below : j < n := by omega
      have below' : k - j < n := by omega
      have inside : k < n := by omega
      simp only [coeff_of below, coeff_of below', coeff_of inside, ok_bind, mul_scalar,
        addAt_of below, addAt_of below']
      rfl
    · rw [sum', sum, pairing_succ, Nat.zero_add, ← Finset.range_eq_Ico, add_assoc _ _ (∑ _ ∈ _, _)]
      refine congrArg _ (congrArg _ ?_)
      rw [shifts, each k (by omega), BinaryOp.coefficient, snd_sum, Finset.mul_sum]
      refine Finset.sum_congr rfl fun j _ => ?_
      rw [DualNumber.snd_mul]
      ring

theorem shift_div {k : Nat} (own : z k = BinaryOp.div.coefficient a b z k)
    (divisor : reals b 0 ≠ 0) :
    reals b 0 * shifts z k = shifts a k - reals z k * shifts b 0 -
      ∑ j ∈ Finset.Ico 1 (k + 1),
        (reals b j * shifts z (k - j) + reals z (k - j) * shifts b j) := by
  show (b 0).fst * (z k).snd = _
  rw [mul_snd_div own divisor, TrivSqZeroExt.snd_sub, snd_sum, sub_right_comm]
  refine congrArg _ (Finset.sum_congr rfl fun j _ => ?_)
  rw [DualNumber.snd_mul, mul_comm (b j).snd]

/-- The quotient passes on what it is given. -/
private theorem div_pullback (positive : 0 < n)
    (each : ∀ k < n, z k = BinaryOp.div.coefficient a b z k) (divisor : reals b 0 ≠ 0) :
    ∃ t, BinaryOp.div.pullback (.of (reals a) n) (.of (reals b) n) (.of (reals z) n) (.of p n)
        (.of r₀ n) (.of s₀ n) = .ok t ∧ ∃ pa pb, t = (.of pa n, .of pb n) ∧
      pairing n pa (shifts a) + pairing n pb (shifts b) =
        pairing n r₀ (shifts a) + pairing n s₀ (shifts b) + pairing n p (shifts z) := by
  rw [BinaryOp.pullback, size_of, Nat.sub_add_cancel positive, List.range_eq_range']
  refine exists_bind (foldlM_down (a := 0) (n := n)
    (P := fun i (walk : Series F × Series F × Series F) => ∃ p' r r',
      walk = (.of p' n, .of r n, .of r' n) ∧
      pairing i p' (shifts z) + (pairing n r (shifts a) + pairing n r' (shifts b)) =
        pairing n r₀ (shifts a) + pairing n s₀ (shifts b) + pairing n p (shifts z))
    ?_ ⟨p, r₀, s₀, rfl, by rw [Nat.zero_add, add_comm]⟩) ?_
  · rintro k _ _ high ⟨p', r, r', rfl, sum⟩
    have inside : k < n := by omega
    simp only [divAt_of inside, coeff_of inside, coeff_of positive, ok_bind, addAt_of inside,
      Function.update_self]
    refine exists_bind (foldlM_bump_pair k n (shifts z) (shifts b) (fun j => k - j) (fun j => j)
      (fun j => -(p' k / reals b 0 * reals b j)) (fun j => -(p' k / reals b 0 * reals z (k - j)))
      (fun s s' j start stop kept => ?_) (fun j start stop => by omega)
      (fun j start stop => by omega) fun s s' kept sum' => And.intro (kept k le_rfl) sum') ?_
    · have below : j < n := by omega
      have below' : k - j < n := by omega
      have apart : k ≠ k - j := by omega
      simp only [coeff_of below, coeff_of below', coeff_of inside, ok_bind, mul_scalar,
        subAt_of below, subAt_of below', bump_of_ne apart, kept k le_rfl, Function.update_self]
      rfl
    · rintro _ ⟨s, s', rfl, own, sum'⟩
      simp only [coeff_of inside, ok_bind, mul_scalar, subAt_of positive, own, Function.update_self]
      refine ⟨_, rfl, _, _, _, rfl, ?_⟩
      have shift := shift_div (each k inside) divisor
      have quotient : p' k / reals b 0 * reals b 0 = p' k := div_mul_cancel₀ _ divisor
      generalize p' k / reals b 0 = w at sum' quotient ⊢
      rw [Nat.add_comm 1 k, pairing_update] at sum'
      have terms : ∑ j ∈ Finset.Ico 1 (k + 1),
          (-(w * reals b j) * shifts z (k - j) + -(w * reals z (k - j)) * shifts b j) =
          -(w * ∑ j ∈ Finset.Ico 1 (k + 1),
            (reals b j * shifts z (k - j) + reals z (k - j) * shifts b j)) := by
        rw [Finset.mul_sum, ← Finset.sum_neg_distrib]
        refine Finset.sum_congr rfl fun j _ => ?_
        ring
      rw [pairing_bump positive, pairing_bump inside, ← sum, pairing_succ, ← quotient]
      rw [terms] at sum'
      linear_combination sum' - w * shift
  · rintro _ ⟨p', r, r', rfl, sum⟩
    refine ⟨_, rfl, r, r', rfl, ?_⟩
    rw [← sum]
    simp [pairing]

/-- What must not vanish at order zero where an operation of two arguments is differentiated. -/
def BinaryOp.Regular (op : BinaryOp) (b0 : F) : Prop :=
  match op with
  | .div => b0 ≠ 0
  | .add | .sub | .mul => True

/-- An operation of two arguments adds to the partials of both what it passes on. -/
theorem BinaryOp.pullback_from (op : BinaryOp) (positive : 0 < n)
    (each : ∀ k < n, z k = op.coefficient a b z k) (regular : op.Regular (reals b 0))
    (p r₀ s₀ : Nat → F) :
    ∃ t, op.pullback (.of (reals a) n) (.of (reals b) n) (.of (reals z) n) (.of p n)
        (.of r₀ n) (.of s₀ n) = .ok t ∧ ∃ pa pb, t = (.of pa n, .of pb n) ∧
      pairing n pa (shifts a) + pairing n pb (shifts b) =
        pairing n r₀ (shifts a) + pairing n s₀ (shifts b) + pairing n p (shifts z) := by
  cases op with
  | add => exact add_pullback positive each
  | sub => exact sub_pullback positive each
  | mul => exact mul_pullback positive each
  | div => exact div_pullback positive each regular

/-- An operation of two arguments passes on what it is given. -/
def BinaryOp.Balances (op : BinaryOp) (a b z : Nat → DualNumber F) (n : Nat) : Prop :=
  ∀ p : Nat → F,
    ∃ t, op.pullback (.of (reals a) n) (.of (reals b) n) (.of (reals z) n) (.of p n)
        (Series.zeros n) (Series.zeros n) = .ok t ∧ ∃ pa pb, t = (.of pa n, .of pb n) ∧
      pairing n pa (shifts a) + pairing n pb (shifts b) = pairing n p (shifts z)

theorem BinaryOp.pullback_of (op : BinaryOp) (positive : 0 < n)
    (each : ∀ k < n, z k = op.coefficient a b z k) (regular : op.Regular (reals b 0)) :
    op.Balances a b z n := by
  intro p
  obtain ⟨_, done, pa, pb, rfl, sum⟩ :=
    op.pullback_from positive each regular p (fun _ => 0) fun _ => 0
  rw [pairing_zero, pairing_zero, add_zero, zero_add] at sum
  rw [zeros_eq_of]
  exact ⟨_, done, pa, pb, rfl, sum⟩

end Walks

end TaylorTape
