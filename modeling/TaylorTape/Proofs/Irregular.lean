import TaylorTape.Proofs.Partials

/-!
Points where a divisor vanishes.

Division by zero gives zero in a field whose division is total.  So where the argument of a logarithm,
the result of a square root or the divisor of a quotient vanishes at order zero, the differentials of
the result are zero, and nothing is passed on to the arguments.  The pairing of partials with
differentials is then kept at these points as well, and a reverse sweep has it at every point.
-/

set_option autoImplicit false
set_option relaxedAutoImplicit false

namespace TaylorTape

open Series Duals

section Walks

variable {F : Type} [ExactScalar F] {p a b z : Nat → F} {n : Nat}

omit [ExactScalar F] in
private theorem bump_zero [RingScalar F] (p : Nat → F) (k : Nat) : bump p k 0 = p := by
  rw [bump, add_zero, Function.update_eq_self]

private theorem foldlM_walk_zero
    {f : Series F × Series F → Nat → Except Error (Series F × Series F)}
    {g : Series F × Series F → Except Error (Series F)} (positive : 0 < n)
    (step : ∀ p k, 1 ≤ k → k < n →
      ∃ p', f (.of p n, .of (fun _ => 0) n) k = .ok (.of p' n, .of (fun _ => 0) n))
    (last : ∀ p, g (.of p n, .of (fun _ => 0) n) = .ok (.of (fun _ => 0) n)) :
    (Series.descending (n - 1)).foldlM f (.of p n, .of (fun _ => 0) n) >>= g =
      .ok (.of (fun _ => 0) n) := by
  obtain ⟨_, walked, p', rfl⟩ := foldlM_down (f := f) (a := 1) (n := n - 1)
    (P := fun _ s => ∃ p, s = (.of p n, .of (fun _ => 0) n))
    (by
      rintro k _ low high ⟨p, rfl⟩
      obtain ⟨p', done⟩ := step p k low (by omega)
      exact ⟨_, done, p', rfl⟩)
    ⟨p, rfl⟩
  exact bind_eq_ok.2 ⟨_, walked, last p'⟩

private theorem ln_pullback_zero (positive : 0 < n) (vanishes : a 0 = 0) :
    UnaryOp.ln.pullback (.of a n) (.of z n) (.of p n) (Series.zeros n) =
      .ok (.of (fun _ => 0) n) := by
  rw [UnaryOp.pullback, size_of, zeros_eq_of]
  refine foldlM_walk_zero positive (fun p k low high => ⟨Function.update p k 0, ?_⟩) fun p => ?_
  · simp only [divAt_of high, coeff_of high, coeff_of positive, ok_bind, mul_scalar,
      subAt_of positive, addAt_of high, Function.update_self, vanishes, div_zero, zero_mul, neg_zero,
      bump_zero]
    refine foldlM_eq (fun _ => _) rfl (fun j start stop => ?_) rfl
    simp only [coeff_of high, coeff_of (show j < n by omega), coeff_of (show k - j < n by omega),
      ok_bind, scale_scalar, subAt_of (show j < n by omega), subAt_of (show k - j < n by omega),
      Function.update_self, zero_mul, neg_zero, bump_zero]
    rfl
  · simp only [coeff_of positive, ok_bind, div_scalar, addAt_of positive, vanishes, div_zero,
      bump_zero]

private theorem sqrt_pullback_zero (positive : 0 < n) (vanishes : z 0 = 0) :
    UnaryOp.sqrt.pullback (.of a n) (.of z n) (.of p n) (Series.zeros n) =
      .ok (.of (fun _ => 0) n) := by
  rw [UnaryOp.pullback, size_of, zeros_eq_of]
  refine foldlM_walk_zero positive (fun p k low high => ⟨Function.update p k 0, ?_⟩) fun p => ?_
  · simp only [divAt_of high, coeff_of high, coeff_of positive, ok_bind, mul_scalar, scale_scalar,
      subAt_of positive, addAt_of high, Function.update_self, vanishes, div_zero, zero_mul, neg_zero,
      bump_zero]
    refine bind_eq_ok.2 ⟨_, foldlM_eq (fun _ => _) rfl (fun j start stop => ?_) rfl, rfl⟩
    simp only [coeff_of high, coeff_of (show k - j < n by omega), ok_bind,
      subAt_of (show j < n by omega), Function.update_self, zero_mul, neg_zero, bump_zero]
  · simp only [coeff_of positive, ok_bind, div_scalar, scale_scalar, addAt_of positive, vanishes,
      div_zero, zero_mul, bump_zero]

private theorem div_pullback_zero (positive : 0 < n) (vanishes : b 0 = 0) :
    BinaryOp.div.pullback (.of a n) (.of b n) (.of z n) (.of p n) (Series.zeros n)
        (Series.zeros n) = .ok (.of (fun _ => 0) n, .of (fun _ => 0) n) := by
  suffices passed : ∃ t, BinaryOp.div.pullback (.of a n) (.of b n) (.of z n) (.of p n)
      (Series.zeros n) (Series.zeros n) = .ok t ∧ t = (.of (fun _ => 0) n, .of (fun _ => 0) n) by
    obtain ⟨_, done, rfl⟩ := passed
    exact done
  rw [BinaryOp.pullback, size_of, zeros_eq_of, Nat.sub_add_cancel positive, List.range_eq_range']
  refine exists_bind (foldlM_down (a := 0) (n := n)
    (P := fun _ (walk : Series F × Series F × Series F) =>
      ∃ p, walk = (.of p n, .of (fun _ => 0) n, .of (fun _ => 0) n))
    ?_ ⟨p, rfl⟩) ?_
  · rintro k _ _ high ⟨p', rfl⟩
    have inside : k < n := by omega
    refine ⟨_, ?_, Function.update p' k 0, rfl⟩
    simp only [divAt_of inside, coeff_of inside, coeff_of positive, ok_bind, addAt_of inside,
      Function.update_self, vanishes, div_zero, bump_zero]
    refine bind_eq_ok.2 ⟨_, foldlM_eq (fun _ => _) rfl (fun j start stop => ?_) rfl, ?_⟩
    · simp only [coeff_of inside, coeff_of (show j < n by omega), coeff_of (show k - j < n by omega),
        ok_bind, mul_scalar, subAt_of (show j < n by omega), subAt_of (show k - j < n by omega),
        Function.update_self, zero_mul, neg_zero, bump_zero]
      rfl
    · simp only [coeff_of inside, ok_bind, mul_scalar, subAt_of positive, Function.update_self,
        zero_mul, neg_zero, bump_zero]
      rfl
  · rintro _ ⟨_, rfl⟩
    exact ⟨_, rfl, rfl⟩

end Walks

namespace Duals

variable {F : Type} [ExactScalar F] {a b z : Nat → DualNumber F} {n k : Nat}

private theorem snd_div_zero {x y z : DualNumber F} (own : z = x / y) (vanishes : y.fst = 0) :
    z.snd = 0 := by
  rw [own, snd_div, vanishes, mul_zero, mul_zero, div_zero]

private theorem shift_ln_zero (own : z k = UnaryOp.ln.coefficient a z k)
    (vanishes : reals a 0 = 0) :
    shifts z k = 0 := by
  rcases Nat.eq_zero_or_pos k with rfl | positive
  · rw [start_ln own, vanishes, div_zero]
  · rw [UnaryOp.coefficient, if_neg (Nat.ne_of_gt positive)] at own
    exact snd_div_zero own vanishes

private theorem shift_sqrt_zero (own : z k = UnaryOp.sqrt.coefficient a z k)
    (vanishes : reals z 0 = 0) :
    shifts z k = 0 := by
  rcases Nat.eq_zero_or_pos k with rfl | positive
  · rw [start_sqrt own, vanishes, zero_mul, div_zero]
  · rw [UnaryOp.coefficient, if_neg (Nat.ne_of_gt positive)] at own
    refine snd_div_zero own ?_
    rw [TrivSqZeroExt.fst_mul, show (z 0).fst = 0 from vanishes, zero_mul]

private theorem pairing_of_still {p d : Nat → F} (still : ∀ k < n, d k = 0) : pairing n p d = 0 :=
  Finset.sum_eq_zero fun k among => by rw [still k (Finset.mem_range.1 among), mul_zero]

end Duals

section Everywhere

variable {F : Type} [ExactScalar F] {a b z : Nat → DualNumber F} {n : Nat}

private theorem UnaryOp.balances (op : UnaryOp) (positive : 0 < n)
    (each : ∀ k < n, z k = op.coefficient a z k) : op.Balances a z n := by
  by_cases regular : op.Regular (reals a 0) (reals z 0)
  · exact op.pullback_of positive each fun _ => regular
  · intro p
    cases op with
    | neg | exp | sin | cos | abs => exact absurd trivial regular
    | ln =>
      have vanishes := not_not.1 regular
      refine ⟨_, ln_pullback_zero positive vanishes, ?_⟩
      rw [pairing_zero, pairing_of_still fun k below => shift_ln_zero (each k below) vanishes]
    | sqrt =>
      have vanishes := not_not.1 regular
      refine ⟨_, sqrt_pullback_zero positive vanishes, ?_⟩
      rw [pairing_zero, pairing_of_still fun k below => shift_sqrt_zero (each k below) vanishes]

private theorem BinaryOp.balances (op : BinaryOp) (positive : 0 < n)
    (each : ∀ k < n, z k = op.coefficient a b z k) : op.Balances a b z n := by
  by_cases regular : op.Regular (reals b 0)
  · exact op.pullback_of positive each regular
  · intro p
    cases op with
    | add | sub | mul => exact absurd trivial regular
    | div =>
      have vanishes := not_not.1 regular
      refine ⟨_, div_pullback_zero positive vanishes, _, _, rfl, ?_⟩
      rw [pairing_zero, pairing_zero, add_zero,
        pairing_of_still fun k below => snd_div_zero (each k below) vanishes]

namespace Evaluator

variable {e : Evaluator F} {q : Nat} {lifted : Tape (DualNumber F)}
  {seed : Nat → List (DualNumber F)} {c : Nat → Nat → DualNumber F}

theorem Varies.reverse_everywhere (varies : e.Varies q lifted seed c) {weights : List (List F)}
    (accepts : e.AcceptsReverse q weights) :
    ∃ partials, e.reverse q weights = .ok partials ∧
      (partials.length = e.numInputs ∧ ∀ p ∈ partials, p.length = q) ∧
      ∑ i ∈ Finset.range e.numOutputs, ∑ k ∈ Finset.range q,
          cell weights i k * (c ((e.outputs[i]?).getD 0) k).snd =
        ∑ j ∈ Finset.range e.numInputs, ∑ k ∈ Finset.range q, cell partials j k * (c j k).snd := by
  have positive := Nat.pos_of_ne_zero accepts.positive
  exact varies.reverse_of (varies.adjoint positive
    (fun i op a found => op.balances positive fun k low => varies.unary found low)
    fun i op a b found => op.balances positive fun k low => varies.binary found low) accepts

end Evaluator

end Everywhere

end TaylorTape
