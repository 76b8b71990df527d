import TaylorTape.Proofs.Broadcast
import TaylorTape.Series.Reverse

/-!
The elementary operations at order one, over scalars and arrays.

In every element the coefficient of order one of a result is a sum of the arguments' coefficients
times slopes, which depend on the order-zero elements only.  What a result passes back to an
argument is its own share times the same slope.
-/

set_option autoImplicit false
set_option relaxedAutoImplicit false

namespace TaylorTape

open Value

variable {F : Type} [ExactScalar F]

/-- The slope of an operation of one argument at an element, given its result. -/
def UnaryOp.slope (op : UnaryOp) (a z : F) : F :=
  match op with
  | .neg => -1
  | .exp => z
  | .ln => 1 / a
  | .sqrt => 1 / (2 * z)
  | .sin => Scalar.cos a
  | .cos => -Scalar.sin a
  | .abs => Scalar.sign a

/-- The slope of an operation of two arguments in its first argument. -/
def BinaryOp.slope (op : BinaryOp) (b : F) : F :=
  match op with
  | .add | .sub => 1
  | .mul => b
  | .div => 1 / b

/-- The slope of an operation of two arguments in its second argument, given its result. -/
def BinaryOp.slope' (op : BinaryOp) (a b z : F) : F :=
  match op with
  | .add => 1
  | .sub => -1
  | .mul => a
  | .div => -(z / b)

theorem ratio_one : (Scalar.ratio 1 1 : F) = 1 := by
  rw [ratio_eq]
  norm_num

theorem ratio_two : (Scalar.ratio 2 1 : F) = 2 := by
  rw [ratio_eq]
  norm_num

theorem ratio_half : (Scalar.ratio 1 2 : F) = 1 / 2 := by
  rw [ratio_eq]
  norm_num

section Forward

variable {s : Value F} {a b z : Nat → Value F}

private theorem sinCos_one (fits : (a 1).Fits (a 0)) :
    ∃ pair : Value F × Value F, (Series.of a 2).sinCos 1 =
        .ok (#[UnaryOp.sin.eval (a 0), pair.1], #[UnaryOp.cos.eval (a 0), pair.2]) ∧
      (a 0).Stands pair.1 (fun e => Scalar.cos ((a 0).component e) * (a 1).component e) ∧
      (a 0).Stands pair.2 (fun e => -Scalar.sin ((a 0).component e) * (a 1).component e) := by
  have first : (Series.of a 2).coeff 0 = .ok (a 0) := Series.coeff_of (by omega)
  have last : (Series.of a 2).coeff 1 = .ok (a 1) := Series.coeff_of (by omega)
  have base := (SameShape.refl (a 0)).fits.stands
  have zero : (a 0).Stands (.scalar 0) fun _ => 0 := ⟨.scalar 0 _, fun _ _ => rfl⟩
  have weighted := fits.stands.map (· * Scalar.ratio 1 1)
  obtain ⟨u, product, left⟩ := weighted.zipWith "mul" (· * ·) (base.map Scalar.cos)
  obtain ⟨v, product', right⟩ := weighted.zipWith "mul" (· * ·) (base.map Scalar.sin)
  obtain ⟨s, sum, sine⟩ := zero.zipWith "add" (· + ·) left
  obtain ⟨c, difference, cosine⟩ := zero.zipWith "sub" (· - ·) right
  have product : Base.mul (Base.scale (a 1) (Scalar.ratio 1 1)) (UnaryOp.cos.eval (a 0)) = .ok u :=
    product
  have product' : Base.mul (Base.scale (a 1) (Scalar.ratio 1 1)) (UnaryOp.sin.eval (a 0)) = .ok v :=
    product'
  have sum : Base.add Base.zero u = .ok s := sum
  have difference : Base.sub Base.zero v = .ok c := difference
  have heads : ∀ w : Value F, Series.coeff #[w] 0 = .ok w := fun _ => rfl
  refine ⟨(s, c), ?_, sine.congr fun e _ => ?_, cosine.congr fun e _ => ?_⟩
  · simp only [Series.sinCos, List.range'_one, List.foldlM_cons, List.foldlM_nil, bind_pure,
      first, last, ok_bind, Nat.sub_self, heads, product, product', sum, difference, pure_bind]
    rfl
  · rw [ratio_one, zero_add, mul_one, mul_comm]
  · rw [ratio_one, zero_sub, mul_one, mul_comm, neg_mul]

/-- The coefficient of order one is the slope times that of the argument. -/
theorem UnaryOp.next_one (op : UnaryOp) (start : z 0 = op.eval (a 0)) (fits : (a 1).Fits (a 0)) :
    ∃ w, op.next (.of a 2) (.of z 1) = .ok w ∧ (a 0).Stands w fun e =>
      op.slope ((a 0).component e) ((z 0).component e) * (a 1).component e := by
  have first : (Series.of a 2).coeff 0 = .ok (a 0) := Series.coeff_of (by omega)
  have last : (Series.of a 2).coeff 1 = .ok (a 1) := Series.coeff_of (by omega)
  have own : (Series.of z 1).coeff 0 = .ok (z 0) := Series.coeff_of (by omega)
  have shape : (z 0).SameShape (a 0) := start ▸ SameShape.map _ _
  have base := (SameShape.refl (a 0)).fits.stands
  have zero : (a 0).Stands (.scalar 0) fun _ => 0 := ⟨.scalar 0 _, fun _ _ => rfl⟩
  rw [UnaryOp.next, Series.size_of, if_neg Nat.one_ne_zero]
  cases op with
  | neg =>
    simp only [recurrence, last, ok_bind]
    exact ⟨_, rfl, (fits.stands.map (- ·)).congr fun e _ => (neg_one_mul _).symm⟩
  | abs =>
    simp only [recurrence, first, last, ok_bind]
    exact (base.map Scalar.sign).zipWith "mul" (· * ·) fits.stands
  | exp =>
    simp only [recurrence, List.range'_one, List.foldlM_cons, List.foldlM_nil, bind_pure, last,
      own, ok_bind]
    refine exists_bind (fits.stands.zipWith "mul" (· * ·) shape.fits.stands) fun term held => ?_
    refine Exists.imp (fun w => And.imp_right fun sum => sum.congr fun e _ => ?_)
      (zero.zipWith "add" (· + ·) (held.map (· * Scalar.ratio 1 1)))
    rw [slope, ratio_one, zero_add, mul_one, mul_comm]
  | ln =>
    simp only [recurrence, Nat.sub_self, List.range'_zero, List.foldlM_nil, first, last, ok_bind,
      pure_bind]
    refine Exists.imp (fun w => And.imp_right fun quotient => quotient.congr fun e _ => ?_)
      (fits.stands.zipWith "div" (· / ·) base)
    rw [slope, one_div_mul_eq_div]
  | sqrt =>
    simp only [recurrence, Nat.sub_self, List.range'_zero, List.foldlM_nil, own, last, ok_bind,
      pure_bind]
    refine Exists.imp (fun w => And.imp_right fun quotient => quotient.congr fun e _ => ?_)
      (fits.stands.zipWith "div" (· / ·) (shape.fits.stands.map (· * Scalar.ratio 2 1)))
    rw [slope, ratio_two, mul_comm _ (2 : F), one_div_mul_eq_div]
  | sin =>
    obtain ⟨pair, done, sine, _⟩ := sinCos_one fits
    simp only [recurrence, done, ok_bind]
    exact ⟨_, rfl, sine⟩
  | cos =>
    obtain ⟨pair, done, _, cosine⟩ := sinCos_one fits
    simp only [recurrence, done, ok_bind]
    exact ⟨_, rfl, cosine⟩

/-- The coefficient of order one is the sum of the slopes times those of the arguments. -/
theorem BinaryOp.next_one (op : BinaryOp) (left : (a 0).Fits (z 0)) (right : (b 0).Fits (z 0))
    (fits : (a 1).Fits (a 0)) (fits' : (b 1).Fits (b 0)) :
    ∃ w, op.next (.of a 2) (.of b 2) (.of z 1) = .ok w ∧ (z 0).Stands w fun e =>
      op.slope ((b 0).component e) * (a 1).component e +
        op.slope' ((a 0).component e) ((b 0).component e) ((z 0).component e) *
          (b 1).component e := by
  have first : (Series.of a 2).coeff 0 = .ok (a 0) := Series.coeff_of (by omega)
  have last : (Series.of a 2).coeff 1 = .ok (a 1) := Series.coeff_of (by omega)
  have first' : (Series.of b 2).coeff 0 = .ok (b 0) := Series.coeff_of (by omega)
  have last' : (Series.of b 2).coeff 1 = .ok (b 1) := Series.coeff_of (by omega)
  have own : (Series.of z 1).coeff 0 = .ok (z 0) := Series.coeff_of (by omega)
  have zero : (z 0).Stands (.scalar 0) fun _ => 0 := ⟨.scalar 0 _, fun _ _ => rfl⟩
  have da := (fits.trans left).stands
  have db := (fits'.trans right).stands
  rw [BinaryOp.next, Series.size_of, if_neg Nat.one_ne_zero]
  cases op with
  | add =>
    simp only [recurrence, last, last', ok_bind]
    refine Exists.imp (fun w => And.imp_right fun sum => sum.congr fun e _ => ?_)
      (da.zipWith "add" (· + ·) db)
    rw [slope, slope', one_mul, one_mul]
  | sub =>
    simp only [recurrence, last, last', ok_bind]
    refine Exists.imp (fun w => And.imp_right fun sum => sum.congr fun e _ => ?_)
      (da.zipWith "sub" (· - ·) db)
    rw [slope, slope', one_mul, neg_one_mul, sub_eq_add_neg]
  | mul =>
    have two : List.range (1 + 1) = [0, 1] := rfl
    simp only [recurrence, two, List.foldlM_cons, List.foldlM_nil, bind_pure, first, first', last,
      last', ok_bind, Nat.sub_zero, Nat.sub_self, bind_assoc]
    refine exists_bind (left.stands.zipWith "mul" (· * ·) db) fun u product => ?_
    refine exists_bind (zero.zipWith "add" (· + ·) product) fun v sum => ?_
    refine exists_bind (da.zipWith "mul" (· * ·) right.stands) fun u' product' => ?_
    refine Exists.imp (fun w => And.imp_right fun sum => sum.congr fun e _ => ?_)
      (sum.zipWith "add" (· + ·) product')
    rw [slope, slope', zero_add, add_comm, mul_comm ((a 1).component e)]
  | div =>
    simp only [recurrence, List.range'_one, List.foldlM_cons, List.foldlM_nil, bind_pure, first',
      last, last', own, ok_bind, Nat.sub_self, bind_assoc]
    refine exists_bind (db.zipWith "mul" (· * ·) (SameShape.refl (z 0)).fits.stands)
      fun u product => ?_
    refine exists_bind (da.zipWith "sub" (· - ·) product) fun v difference => ?_
    refine Exists.imp (fun w => And.imp_right fun quotient => quotient.congr fun e _ => ?_)
      (difference.zipWith "div" (· / ·) right.stands)
    rw [slope, slope', sub_div, one_div_mul_eq_div, sub_eq_add_neg, neg_mul, div_mul_eq_mul_div,
      mul_comm ((b 1).component e)]

end Forward

section Reverse

variable {s a b z p : Value F}

theorem Series.addAt_one (u v : Value F) :
    Series.addAt #[u] 0 v = Base.add u v >>= fun w => .ok #[w] := by
  show (Base.add u v >>= fun w => store #[u] 0 w) = _
  cases Base.add u v <;> rfl

private theorem Series.subAt_one (u v : Value F) :
    Series.subAt #[u] 0 v = Base.sub u v >>= fun w => .ok #[w] := by
  show (Base.sub u v >>= fun w => store #[u] 0 w) = _
  cases Base.sub u v <;> rfl

private theorem Series.divAt_one (u v : Value F) :
    Series.divAt #[u] 0 v = Base.div u v >>= fun w => .ok #[w] := by
  show (Base.div u v >>= fun w => store #[u] 0 w) = _
  cases Base.div u v <;> rfl

omit [ExactScalar F] in
theorem Series.coeff_one (u : Value F) : Series.coeff #[u] 0 = .ok u := rfl

theorem Series.zeros_one : (Series.zeros 1 : Series (Value F)) = #[.scalar 0] := rfl

private theorem sinCosPullback_one (a ps pc : Value F) :
    Series.sinCosPullback #[a] #[ps] #[pc] #[.scalar 0] = (do
      let u ← Base.mul ps (UnaryOp.cos.eval a)
      let v ← Base.add (.scalar 0) u
      let u' ← Base.mul pc (UnaryOp.sin.eval a)
      let w ← Base.sub v u'
      return #[w]) := by
  have pair : Series.sinCos #[a] 0 = .ok (#[UnaryOp.sin.eval a], #[UnaryOp.cos.eval a]) := rfl
  have none : Series.descending 0 = [] := rfl
  have size : Array.size #[a] - 1 = 0 := rfl
  simp only [Series.sinCosPullback, size, pair, none, List.foldlM_nil, Series.coeff_one, ok_bind,
    pure_bind, Series.addAt_one, Series.subAt_one, bind_assoc]
  rfl

/-- What a result passes back to its argument is its share times the slope. -/
theorem UnaryOp.pullback_one (op : UnaryOp) (start : z = op.eval a) (share : p.SameShape a) :
    ∃ pa, op.pullback #[a] #[z] #[p] (Series.zeros 1) = .ok pa ∧ ∃ w, pa = #[w] ∧
      a.Fills w fun e => p.component e * op.slope (a.component e) (z.component e) := by
  have base := (SameShape.refl a).fits.stands
  have shape : z.SameShape a := start ▸ SameShape.map _ _
  have zero : a.Stands (.scalar 0) fun _ => 0 := ⟨.scalar 0 _, fun _ _ => rfl⟩
  have one : List.range 1 = [0] := rfl
  have none : Series.descending 0 = [] := rfl
  have size : Array.size #[a] - 1 = 0 := rfl
  simp only [pullback, size, Nat.zero_add, one, none, List.foldlM_cons, List.foldlM_nil, bind_pure,
    Series.coeff_one, ok_bind, pure_bind, Series.zeros_one, Series.addAt_one, Series.subAt_one,
    sinCosPullback_one]
  cases op with
  | neg =>
    refine exists_bind (zero.zipWith_fills "sub" (· - ·) share.fills) fun w sum => ?_
    refine ⟨_, rfl, w, rfl, sum.congr fun e _ => ?_⟩
    rw [slope, zero_sub, mul_neg_one]
  | abs =>
    refine exists_bind ((base.map Scalar.sign).zipWith_fills "mul" (· * ·) share.fills)
      fun u product => ?_
    refine exists_bind (zero.zipWith_fills "add" (· + ·) product) fun w sum => ?_
    refine ⟨_, rfl, w, rfl, sum.congr fun e _ => ?_⟩
    rw [slope, zero_add, mul_comm]
  | exp =>
    refine exists_bind (share.fills.zipWith "mul" (· * ·) shape.fits.stands) fun u product => ?_
    refine exists_bind (zero.zipWith_fills "add" (· + ·) product) fun w sum => ?_
    refine ⟨_, rfl, w, rfl, sum.congr fun e _ => ?_⟩
    rw [slope, zero_add]
  | ln =>
    refine exists_bind (share.fills.zipWith "div" (· / ·) base) fun u quotient => ?_
    refine exists_bind (zero.zipWith_fills "add" (· + ·) quotient) fun w sum => ?_
    refine ⟨_, rfl, w, rfl, sum.congr fun e _ => ?_⟩
    rw [slope, zero_add, mul_one_div]
  | sqrt =>
    refine exists_bind (share.fills.zipWith "div" (· / ·) shape.fits.stands) fun u quotient => ?_
    refine exists_bind (zero.zipWith_fills "add" (· + ·) (quotient.map (· * Scalar.ratio 1 2)))
      fun w sum => ?_
    refine ⟨_, rfl, w, rfl, sum.congr fun e _ => ?_⟩
    rw [slope, ratio_half, zero_add, mul_one_div, mul_one_div, div_div, mul_comm (z.component e)]
  | sin =>
    refine exists_bind (share.fills.zipWith "mul" (· * ·) (base.map Scalar.cos)) fun u product => ?_
    refine exists_bind (zero.zipWith_fills "add" (· + ·) product) fun v sum => ?_
    refine exists_bind (zero.zipWith "mul" (· * ·) (base.map Scalar.sin)) fun u' nothing => ?_
    refine exists_bind (sum.zipWith "sub" (· - ·) nothing) fun w difference => ?_
    refine ⟨_, rfl, w, rfl, difference.congr fun e _ => ?_⟩
    rw [slope, zero_add, zero_mul, sub_zero]
  | cos =>
    refine exists_bind (zero.zipWith "mul" (· * ·) (base.map Scalar.cos)) fun u nothing => ?_
    refine exists_bind (zero.zipWith "add" (· + ·) nothing) fun v sum => ?_
    refine exists_bind (share.fills.zipWith "mul" (· * ·) (base.map Scalar.sin))
      fun u' product => ?_
    refine exists_bind (sum.zipWith_fills "sub" (· - ·) product) fun w difference => ?_
    refine ⟨_, rfl, w, rfl, difference.congr fun e _ => ?_⟩
    rw [slope, zero_add, zero_mul, zero_sub, mul_neg]

/-- What a result passes back to its arguments is its share times the slopes. -/
theorem BinaryOp.pullback_one (op : BinaryOp) (left : a.Fits z) (right : b.Fits z)
    (share : p.SameShape z) :
    ∃ pair, op.pullback #[a] #[b] #[z] #[p] (Series.zeros 1) (Series.zeros 1) = .ok pair ∧
      ∃ w w', pair = (#[w], #[w']) ∧
        z.Fills w (fun e => p.component e * op.slope (b.component e)) ∧
        z.Fills w' (fun e => p.component e *
          op.slope' (a.component e) (b.component e) (z.component e)) := by
  have zero : z.Stands (.scalar 0) fun _ => 0 := ⟨.scalar 0 _, fun _ _ => rfl⟩
  have one : List.range 1 = [0] := rfl
  have size : Array.size #[a] - 1 = 0 := rfl
  simp only [pullback, size, Nat.zero_add, one, List.reverse_singleton, List.range'_zero,
    List.foldlM_cons, List.foldlM_nil, bind_pure, Series.coeff_one, ok_bind, pure_bind, Series.zeros_one,
    Series.addAt_one, Series.subAt_one, Series.divAt_one, bind_assoc, Nat.sub_self]
  cases op with
  | add =>
    refine exists_bind (zero.zipWith_fills "add" (· + ·) share.fills) fun w sum => ?_
    refine exists_bind (zero.zipWith_fills "add" (· + ·) share.fills) fun w' sum' => ?_
    refine ⟨_, rfl, w, w', rfl, sum.congr fun e _ => ?_, sum'.congr fun e _ => ?_⟩
    · rw [slope, zero_add, mul_one]
    · rw [slope', zero_add, mul_one]
  | sub =>
    refine exists_bind (zero.zipWith_fills "add" (· + ·) share.fills) fun w sum => ?_
    refine exists_bind (zero.zipWith_fills "sub" (· - ·) share.fills) fun w' sum' => ?_
    refine ⟨_, rfl, w, w', rfl, sum.congr fun e _ => ?_, sum'.congr fun e _ => ?_⟩
    · rw [slope, zero_add, mul_one]
    · rw [slope', zero_sub, mul_neg_one]
  | mul =>
    refine exists_bind (share.fills.zipWith "mul" (· * ·) right.stands) fun u product => ?_
    refine exists_bind (zero.zipWith_fills "add" (· + ·) product) fun w sum => ?_
    refine exists_bind (share.fills.zipWith "mul" (· * ·) left.stands) fun u' product' => ?_
    refine exists_bind (zero.zipWith_fills "add" (· + ·) product') fun w' sum' => ?_
    refine ⟨_, rfl, w, w', rfl, sum.congr fun e _ => ?_, sum'.congr fun e _ => ?_⟩
    · rw [slope, zero_add]
    · rw [slope', zero_add]
  | div =>
    refine exists_bind (share.fills.zipWith "div" (· / ·) right.stands) fun u quotient => ?_
    refine exists_bind (zero.zipWith_fills "add" (· + ·) quotient) fun w sum => ?_
    refine exists_bind (quotient.zipWith "mul" (· * ·) (SameShape.refl z).fits.stands)
      fun u' product => ?_
    refine exists_bind (zero.zipWith_fills "sub" (· - ·) product) fun w' difference => ?_
    refine ⟨_, rfl, w, w', rfl, sum.congr fun e _ => ?_, difference.congr fun e _ => ?_⟩
    · rw [slope, zero_add, mul_one_div]
    · rw [slope', zero_sub, mul_neg, mul_div_assoc', div_mul_eq_mul_div]

end Reverse

end TaylorTape
