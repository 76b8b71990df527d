import TaylorTape.Proofs.Broadcast
import TaylorTape.Proofs.Calls
import TaylorTape.Series.Reverse

/-!
Arrays of a wrong length.

An array whose length is not that of a variable does not combine with the coefficients of order zero
of that variable.  Whatever is added to such a partial, it keeps its length, so that most rules of
the series come to an operation that refuses it.  Only what does no more than hand partials on takes
it: negations, sums, differences and reversals.
-/

set_option autoImplicit false
set_option relaxedAutoImplicit false

namespace TaylorTape

namespace Value

section Shapes

variable {F : Type} {s t u v w : Value F}

theorem Fits.sameShape_of_array (fits : u.Fits s) (array : u.isScalar = false) : u.SameShape s := by
  cases fits with
  | scalar x s => cases array
  | array same => exact .array same

/-- An array of a length that is not that of another array. -/
inductive Misfits : Value F → Value F → Prop where
  | array {us xs : List F} (odd : us.length ≠ xs.length) : Misfits (.array us) (.array xs)

private theorem Misfits.isScalar (misfits : u.Misfits s) : u.isScalar = false := by
  cases misfits with
  | array odd => rfl

theorem Misfits.isScalar_shape (misfits : u.Misfits s) : s.isScalar = false := by
  cases misfits with
  | array odd => rfl

private theorem Misfits.length_ne (misfits : u.Misfits s) : u.length ≠ s.length := by
  cases misfits with
  | array odd => exact odd

theorem Misfits.congr (misfits : u.Misfits s) (shape : s.SameShape t) : u.Misfits t := by
  cases misfits with
  | array odd =>
    cases shape with
    | array same => exact .array fun other => odd (other.trans same.symm)

private theorem Misfits.of_sameShape (misfits : u.Misfits s) (shape : w.SameShape u) :
    w.Misfits s := by
  cases misfits with
  | array odd =>
    cases shape with
    | array same => exact .array fun other => odd (same.symm.trans other)

theorem Misfits.map (misfits : u.Misfits s) (h : F → F) : (u.map h).Misfits s :=
  misfits.of_sameShape (.map h u)

variable {context : String} {h : F → F → F}

private theorem Misfits.of_fits (misfits : u.Misfits s) (fits : u.Fits w) : w.Misfits s := by
  cases misfits with
  | array odd =>
    cases fits with
    | array same => exact .array fun other => odd (same.trans other)

private theorem Misfits.not_fits (misfits : u.Misfits s) (shape : v.SameShape s) (left : u.Fits w)
    (right : v.Fits w) : False := by
  cases misfits with
  | array odd =>
    cases shape with
    | array same =>
      cases left with
      | array left =>
        cases right with
        | array right => exact odd (left.trans (right.symm.trans same))

private theorem Misfits.zipWith_refused (misfits : u.Misfits s) (shape : v.SameShape s) :
    Value.zipWith context h u v ≠ .ok w := fun done =>
  misfits.not_fits shape (fits_of_zipWith done).1 (fits_of_zipWith done).2

private theorem Misfits.zipWith_refused_right (misfits : u.Misfits s) (shape : v.SameShape s) :
    Value.zipWith context h v u ≠ .ok w := fun done =>
  misfits.not_fits shape (fits_of_zipWith done).2 (fits_of_zipWith done).1

end Shapes

end Value

open Value

variable {F : Type} [Scalar F] {s : Value F} {k q : Nat}

theorem Value.Misfits.reduceLike {u : Value F} (misfits : u.Misfits s) : Base.reduceLike u s = u := by
  cases misfits with
  | array odd => rfl

theorem Value.Misfits.not_broadcastLike {u w : Value F} (misfits : u.Misfits s) :
    Base.broadcastLike u s ≠ .ok w := by
  cases misfits with
  | array odd =>
    intro done
    obtain ⟨elems, made, _⟩ := map_eq_ok.1 (show Except.map _ _ = _ from done)
    rw [Value.broadcastTo, if_neg odd] at made
    cases made

/-- Partials of which one order is an array of a wrong length. -/
def Series.Misfits (s : Value F) (k : Nat) (p : Series (Value F)) : Prop :=
  ∃ u, p[k]? = some u ∧ u.Misfits s

namespace Series

variable {p p' : Series (Value F)} {j : Nat} {x : Value F} {context : String} {h : F → F → F}

omit [Scalar F] in
private theorem Misfits.exists_coeff (misfits : Misfits s k p) :
    ∃ u, p.coeff k = .ok u ∧ u.Misfits s := by
  obtain ⟨u, here, wrong⟩ := misfits
  exact ⟨u, fetch_eq_ok_iff.2 here, wrong⟩

omit [Scalar F] in
private theorem Misfits.of_coeff {u : Value F} (misfits : Misfits s k p)
    (read : p.coeff k = .ok u) :
    u.Misfits s := by
  obtain ⟨u', here, wrong⟩ := misfits.exists_coeff
  obtain rfl := Except.ok.inj (here.symm.trans read)
  exact wrong

omit [Scalar F] in
theorem Misfits.congr {t : Value F} (misfits : Misfits s k p) (shape : s.SameShape t) :
    Misfits t k p := by
  obtain ⟨u, here, wrong⟩ := misfits
  exact ⟨u, here, wrong.congr shape⟩

omit [Scalar F] in
private theorem Misfits.update (misfits : Misfits s k p)
    (done : (do store p j (← Value.zipWith context h (← p.coeff j) x)) = .ok p') :
    Misfits s k p' := by
  obtain ⟨u, here, wrong⟩ := misfits
  obtain ⟨old, read, rest⟩ := bind_eq_ok.1 done
  obtain ⟨w, combined, stored⟩ := bind_eq_ok.1 rest
  obtain ⟨room, rfl⟩ := store_eq_ok_iff.1 stored
  unfold Misfits
  rw [Array.getElem?_set]
  by_cases same : j = k
  · subst same
    obtain rfl := Option.some.inj (here.symm.trans (fetch_eq_ok_iff.1 read))
    exact ⟨w, if_pos rfl, wrong.of_fits (fits_of_zipWith combined).1⟩
  · exact ⟨u, by rw [if_neg same, here], wrong⟩

theorem Misfits.addAt (misfits : Misfits s k p) (done : p.addAt j x = .ok p') : Misfits s k p' :=
  misfits.update done

private theorem Misfits.subAt (misfits : Misfits s k p) (done : p.subAt j x = .ok p') :
    Misfits s k p' :=
  misfits.update done

private theorem Misfits.divAt (misfits : Misfits s k p) (done : p.divAt j x = .ok p') :
    Misfits s k p' :=
  misfits.update done

private theorem Misfits.not_divAt (misfits : Misfits s k p) (shape : x.SameShape s) :
    p.divAt k x ≠ .ok p' := by
  intro done
  obtain ⟨u, read, rest⟩ := bind_eq_ok.1 done
  obtain ⟨w, quotient, _⟩ := bind_eq_ok.1 rest
  exact (misfits.of_coeff read).zipWith_refused shape quotient

omit [Scalar F] in
private theorem misfits_of_update (wrong : x.Misfits s)
    (done : (do store p k (← Value.zipWith context h (← p.coeff k) x)) = .ok p') :
    Misfits s k p' := by
  obtain ⟨old, read, rest⟩ := bind_eq_ok.1 done
  obtain ⟨w, combined, stored⟩ := bind_eq_ok.1 rest
  obtain ⟨room, rfl⟩ := store_eq_ok_iff.1 stored
  exact ⟨w, Array.getElem?_set_self room, wrong.of_fits (fits_of_zipWith combined).2⟩

theorem misfits_of_addAt (wrong : x.Misfits s) (done : p.addAt k x = .ok p') : Misfits s k p' :=
  misfits_of_update wrong done

private theorem misfits_of_subAt (wrong : x.Misfits s) (done : p.subAt k x = .ok p') :
    Misfits s k p' :=
  misfits_of_update wrong done

end Series

section Rules

open Series

private theorem triangle_reached {ε σ : Type} {f : Nat → σ → Nat → Except ε σ} {P : σ → Prop}
    {n : Nat} {start last : σ} (keep : ∀ i j t t', P t → f i t j = .ok t' → P t') (first : P start)
    (done : (Series.descending n).foldlM (fun t i => (List.range' 1 i).foldlM (f i) t) start =
      .ok last) : P last ∧ ∀ k, k ≠ 0 → k ≤ n → ∃ t t', P t ∧ f k t k = .ok t' := by
  have inner : ∀ i, ∀ j ∈ List.range' 1 i, ∀ t t', P t → f i t j = .ok t' → P t' :=
    fun i j _ => keep i j
  have outer : ∀ i ∈ Series.descending n, ∀ t t', P t →
      (List.range' 1 i).foldlM (f i) t = .ok t' → P t' := fun i _ t t' => foldlM_kept (inner i)
  obtain ⟨kept, reached⟩ := foldlM_reached outer first done
  refine ⟨kept, fun k positive below => ?_⟩
  have among : k ∈ Series.descending n :=
    List.mem_reverse.2 (List.mem_range'_1.2 ⟨by omega, by omega⟩)
  obtain ⟨t, t', held, step⟩ := reached k among
  exact (foldlM_reached (inner k) held step).2 k (List.mem_range'_1.2 ⟨by omega, by omega⟩)

variable {a b z : Nat → Value F} {sa sb sz pz pa pb r : Series (Value F)}
  {rs : Series (Value F) × Series (Value F)}

omit [Scalar F] in
private theorem mem_range_of (f : Nat → Value F) (below : k < q) :
    k ∈ List.range ((Series.of f q).size - 1 + 1) := by
  rw [size_of, List.mem_range]
  omega

omit [Scalar F] in
private theorem mem_descending_of (f : Nat → Value F) (positive : k ≠ 0) (below : k < q) :
    k ∈ Series.descending ((Series.of f q).size - 1) := by
  rw [size_of, Series.descending, List.mem_reverse, List.mem_range'_1]
  omega

omit [Scalar F] in
private theorem coeff_of_zero {u : Value F} {f : Nat → Value F} (below : k < q)
    (read : (Series.of f q).coeff 0 = .ok u) : u = f 0 :=
  Except.ok.inj (read.symm.trans (coeff_of (by omega)))

private theorem abs_refuses (shape : (a 0).SameShape s) (below : k < q) (wrong : Misfits s k pz) :
    UnaryOp.abs.pullback (.of a q) sz pz pa ≠ .ok r := by
  intro done
  obtain ⟨x, read, done⟩ := bind_eq_ok.1 done
  obtain rfl := coeff_of_zero below read
  obtain ⟨_, _, _, step⟩ := (foldlM_reached (P := fun _ => True) (fun _ _ _ _ _ _ => trivial) trivial
    done).2 k (mem_range_of a below)
  obtain ⟨u, read', step⟩ := bind_eq_ok.1 step
  obtain ⟨w, product, _⟩ := bind_eq_ok.1 step
  exact (wrong.of_coeff read').zipWith_refused_right ((SameShape.map _ _).trans shape) product

private theorem exp_refuses (shape : (z 0).SameShape s) (below : k < q) (wrong : Misfits s k pz) :
    UnaryOp.exp.pullback (.of a q) (.of z q) pz pa ≠ .ok r := by
  intro done
  obtain ⟨⟨pz', pa'⟩, walked, last⟩ := bind_eq_ok.1 done
  obtain ⟨kept, reached⟩ := triangle_reached (P := fun walk => Misfits s k walk.1)
    (by
      rintro i j ⟨p, p'⟩ walk' wrong step
      simp only [bind_eq_ok, pure_eq_ok] at step
      obtain ⟨_, _, _, _, _, _, _, _, _, _, _, _, _, added, rfl⟩ := step
      exact wrong.addAt added) wrong walked
  by_cases first : k = 0
  · subst first
    obtain ⟨u, read, last⟩ := bind_eq_ok.1 last
    obtain ⟨v, read', last⟩ := bind_eq_ok.1 last
    obtain ⟨w, product, _⟩ := bind_eq_ok.1 last
    obtain rfl := coeff_of_zero below read'
    exact (kept.of_coeff read).zipWith_refused shape product
  · obtain ⟨⟨p, p'⟩, _, wrong, step⟩ := reached k first (by rw [size_of]; omega)
    obtain ⟨u, read, step⟩ := bind_eq_ok.1 step
    obtain ⟨v, read', step⟩ := bind_eq_ok.1 step
    obtain ⟨w, product, _⟩ := bind_eq_ok.1 step
    rw [Nat.sub_self] at read'
    obtain rfl := coeff_of_zero below read'
    exact ((wrong.of_coeff read).map _).zipWith_refused shape product

private theorem ln_refuses (shape : (a 0).SameShape s) (below : k < q) (wrong : Misfits s k pz) :
    UnaryOp.ln.pullback (.of a q) sz pz pa ≠ .ok r := by
  intro done
  obtain ⟨⟨pz', pa'⟩, walked, last⟩ := bind_eq_ok.1 done
  obtain ⟨kept, reached⟩ := foldlM_reached (P := fun walk => Misfits s k walk.1)
    (by
      rintro i _ ⟨p, p'⟩ walk' wrong step
      simp only [bind_eq_ok] at step
      obtain ⟨_, _, _, divided, _, _, _, _, _, _, _, _, _, _, _, _, step⟩ := step
      refine foldlM_kept (P := fun walk => Misfits s k walk.1) ?_ (wrong.divAt divided) step
      rintro j _ ⟨p, p'⟩ walk' wrong step
      simp only [bind_eq_ok, pure_eq_ok] at step
      obtain ⟨_, _, _, _, _, _, _, taken, _, _, _, _, _, _, rfl⟩ := step
      exact wrong.subAt taken) wrong walked
  by_cases first : k = 0
  · subst first
    obtain ⟨u, read, last⟩ := bind_eq_ok.1 last
    obtain ⟨v, read', last⟩ := bind_eq_ok.1 last
    obtain ⟨w, quotient, _⟩ := bind_eq_ok.1 last
    obtain rfl := coeff_of_zero below read'
    exact (kept.of_coeff read).zipWith_refused shape quotient
  · obtain ⟨⟨p, p'⟩, _, wrong, step⟩ := reached k (mem_descending_of a first below)
    obtain ⟨v, read, step⟩ := bind_eq_ok.1 step
    obtain ⟨_, divided, _⟩ := bind_eq_ok.1 step
    obtain rfl := coeff_of_zero below read
    exact wrong.not_divAt shape divided

private theorem sqrt_refuses (shape : (z 0).SameShape s) (below : k < q) (wrong : Misfits s k pz) :
    UnaryOp.sqrt.pullback (.of a q) (.of z q) pz pa ≠ .ok r := by
  intro done
  obtain ⟨⟨pz', pa'⟩, walked, last⟩ := bind_eq_ok.1 done
  obtain ⟨kept, reached⟩ := foldlM_reached (P := fun walk => Misfits s k walk.1)
    (by
      rintro i _ ⟨p, p'⟩ walk' wrong step
      simp only [bind_eq_ok, pure_eq_ok] at step
      obtain ⟨_, _, _, divided, _, _, _, _, _, _, _, taken, _, _, _, _, _, walked, rfl⟩ := step
      refine foldlM_kept (P := Misfits s k) ?_ ((wrong.divAt divided).subAt taken) walked
      intro j _ p p' wrong step
      simp only [bind_eq_ok] at step
      obtain ⟨_, _, _, _, _, _, taken⟩ := step
      exact wrong.subAt taken) wrong walked
  by_cases first : k = 0
  · subst first
    obtain ⟨u, read, last⟩ := bind_eq_ok.1 last
    obtain ⟨v, read', last⟩ := bind_eq_ok.1 last
    obtain ⟨w, quotient, _⟩ := bind_eq_ok.1 last
    obtain rfl := coeff_of_zero below read'
    exact (kept.of_coeff read).zipWith_refused shape quotient
  · obtain ⟨⟨p, p'⟩, _, wrong, step⟩ := reached k (mem_descending_of a first below)
    obtain ⟨v, read, step⟩ := bind_eq_ok.1 step
    obtain ⟨_, divided, _⟩ := bind_eq_ok.1 step
    obtain rfl := coeff_of_zero below read
    exact wrong.not_divAt shape divided

private theorem sinCos_starts {n : Nat} {pair : Series (Value F) × Series (Value F)}
    (positive : 0 < q) (done : (Series.of a q).sinCos n = .ok pair) :
    pair.1.coeff 0 = .ok ((a 0).map Scalar.sin) ∧ pair.2.coeff 0 = .ok ((a 0).map Scalar.cos) := by
  obtain ⟨x, read, walked⟩ := bind_eq_ok.1 done
  obtain rfl := coeff_of_zero positive read
  refine foldlM_kept (P := fun pair => pair.1.coeff 0 = .ok ((a 0).map Scalar.sin) ∧
    pair.2.coeff 0 = .ok ((a 0).map Scalar.cos)) ?_ ⟨rfl, rfl⟩ walked
  rintro i _ ⟨p, p'⟩ walk' ⟨sine, cosine⟩ step
  obtain ⟨next, _, step⟩ := bind_eq_ok.1 step
  obtain rfl := pure_eq_ok.1 step
  have grown : ∀ {p : Series (Value F)} {u v : Value F}, p.coeff 0 = .ok u →
      Series.coeff (p.push v) 0 = .ok u := fun here => by
    obtain ⟨room, _⟩ := Array.getElem?_eq_some_iff.1 (fetch_eq_ok_iff.1 here)
    rw [coeff, fetch_eq_ok_iff, Array.getElem?_push_lt room, ← Array.getElem?_eq_getElem room]
    exact fetch_eq_ok_iff.1 here
  exact ⟨grown sine, grown cosine⟩

private theorem sinCos_refuses (shape : (a 0).SameShape s) (below : k < q)
    {ps pc : Series (Value F)}
    (wrong : Misfits s k ps ∨ Misfits s k pc) : (Series.of a q).sinCosPullback ps pc pa ≠ .ok r := by
  intro done
  obtain ⟨pair, made, done⟩ := bind_eq_ok.1 done
  obtain ⟨⟨ps', pc', pa'⟩, walked, last⟩ := bind_eq_ok.1 done
  obtain ⟨sine, cosine⟩ := sinCos_starts (by omega) made
  have shapes : ∀ h : F → F, ((a 0).map h).SameShape s := fun h => (SameShape.map h _).trans shape
  obtain ⟨kept, reached⟩ := triangle_reached
    (P := fun walk => Misfits s k walk.1 ∨ Misfits s k walk.2.1)
    (by
      rintro i j ⟨p, p', p''⟩ walk' wrong step
      simp only [bind_eq_ok, pure_eq_ok] at step
      obtain ⟨_, _, _, _, _, _, _, _, _, _, _, _, _, _, _, _, _, _, _, _, _, added, _, _, _, _, _,
        taken, rfl⟩ := step
      exact wrong.imp (·.subAt taken) (·.addAt added)) wrong walked
  by_cases first : k = 0
  · subst first
    simp only [bind_eq_ok] at last
    obtain ⟨u, read, v, at_v, _, product, _, _, u', read', v', at_v', _, product', _⟩ := last
    obtain rfl := Except.ok.inj (cosine.symm.trans at_v)
    obtain rfl := Except.ok.inj (sine.symm.trans at_v')
    rcases kept with wrong | wrong
    · exact (wrong.of_coeff read).zipWith_refused (shapes _) product
    · exact (wrong.of_coeff read').zipWith_refused (shapes _) product'
  · obtain ⟨⟨p, p', p''⟩, _, wrong, step⟩ := reached k first (by rw [size_of]; omega)
    simp only [bind_eq_ok, Nat.sub_self] at step
    obtain ⟨u, read, u', read', v, at_v, _, product, _, _, v', at_v', _, product', _⟩ := step
    obtain rfl := Except.ok.inj (cosine.symm.trans at_v)
    obtain rfl := Except.ok.inj (sine.symm.trans at_v')
    rcases wrong with wrong | wrong
    · exact ((wrong.of_coeff read).map _).zipWith_refused (shapes _) product
    · exact ((wrong.of_coeff read').map _).zipWith_refused (shapes _) product'

/-- Only a negation takes partials of a wrong length, and hands them on. -/
theorem UnaryOp.misfits_pullback {op : UnaryOp} (shape : (a 0).SameShape s)
    (shape' : (z 0).SameShape s) (below : k < q) (wrong : Misfits s k pz)
    (done : op.pullback (.of a q) (.of z q) pz pa = .ok r) : op = .neg ∧ Misfits s k r := by
  cases op with
  | neg =>
    refine ⟨rfl, foldlM_settled (P := Misfits s k) ?_ ?_ done (mem_range_of a below)⟩
    · intro j _ p p' wrong step
      obtain ⟨_, _, taken⟩ := bind_eq_ok.1 step
      exact wrong.subAt taken
    · intro p p' step
      obtain ⟨u, read, taken⟩ := bind_eq_ok.1 step
      exact misfits_of_subAt (wrong.of_coeff read) taken
  | abs => exact absurd done (abs_refuses shape below wrong)
  | exp => exact absurd done (exp_refuses shape' below wrong)
  | ln => exact absurd done (ln_refuses shape below wrong)
  | sqrt => exact absurd done (sqrt_refuses shape' below wrong)
  | sin => exact absurd done (sinCos_refuses shape below (.inl wrong))
  | cos => exact absurd done (sinCos_refuses shape below (.inr wrong))

private theorem mul_refuses (shape : (a 0).SameShape s ∨ (b 0).SameShape s) (below : k < q)
    (wrong : Misfits s k pz) : BinaryOp.mul.pullback (.of a q) (.of b q) sz pz pa pb ≠ .ok rs := by
  intro done
  obtain ⟨walk, _, _, row⟩ := (foldlM_reached (P := fun _ => True) (fun _ _ _ _ _ _ => trivial)
    trivial done).2 k (mem_range_of a below)
  have reached := (foldlM_reached (P := fun _ => True) (fun _ _ _ _ _ _ => trivial) trivial row).2
  rcases shape with shape | shape
  · obtain ⟨⟨p, p'⟩, _, _, step⟩ := reached 0 (List.mem_range.2 (by omega))
    simp only [bind_eq_ok] at step
    obtain ⟨_, _, _, _, _, _, _, _, u, read, v, at_v, _, product, _⟩ := step
    obtain rfl := coeff_of_zero below at_v
    exact (wrong.of_coeff read).zipWith_refused shape product
  · obtain ⟨⟨p, p'⟩, _, _, step⟩ := reached k (List.mem_range.2 (by omega))
    simp only [bind_eq_ok, Nat.sub_self] at step
    obtain ⟨u, read, v, at_v, _, product, _⟩ := step
    obtain rfl := coeff_of_zero below at_v
    exact (wrong.of_coeff read).zipWith_refused shape product

private theorem div_refuses (shape : (z 0).SameShape s) (below : k < q) (wrong : Misfits s k pz) :
    BinaryOp.div.pullback (.of a q) sb (.of z q) pz pa pb ≠ .ok rs := by
  intro done
  obtain ⟨_, walked, _⟩ := bind_eq_ok.1 done
  -- what a step at an order does to the partials, first divided and then in the products
  have inner : ∀ i j, ∀ walk walk' : Series (Value F) × Series (Value F), Misfits s k walk.1 →
      (do
        let p ← walk.1.subAt (i - j) (← Base.mul (← walk.1.coeff i) (← sb.coeff j))
        let p' ← walk.2.subAt j (← Base.mul (← p.coeff i) (← (Series.of z q).coeff (i - j)))
        return (p, p')) = .ok walk' → Misfits s k walk'.1 := by
    intro i j walk walk' wrong step
    simp only [bind_eq_ok, pure_eq_ok] at step
    obtain ⟨_, _, _, _, _, _, _, taken, _, _, _, _, _, _, _, _, rfl⟩ := step
    exact wrong.subAt taken
  obtain ⟨_, reached⟩ := foldlM_reached (P := fun walk => Misfits s k walk.1)
    (by
      rintro i _ ⟨p, p', p''⟩ walk' wrong step
      simp only [bind_eq_ok, pure_eq_ok] at step
      obtain ⟨_, _, _, divided, _, _, _, _, _, products, _, _, _, _, _, _, _, _, rfl⟩ := step
      exact foldlM_kept (P := fun walk => Misfits s k walk.1) (fun j _ => inner i j)
        (wrong.divAt divided) products) wrong walked
  obtain ⟨⟨p, p', p''⟩, _, wrong, step⟩ := reached k (List.mem_reverse.2 (mem_range_of a below))
  simp only [bind_eq_ok] at step
  obtain ⟨_, _, _, divided, _, _, _, _, _, products, u, read, v, at_v, _, product, _⟩ := step
  have wrong := wrong.divAt divided
  obtain ⟨kept, reached⟩ := foldlM_reached (P := fun walk => Misfits s k walk.1)
    (fun j _ => inner k j) wrong products
  by_cases first : k = 0
  · subst first
    obtain rfl := coeff_of_zero below at_v
    exact (kept.of_coeff read).zipWith_refused shape product
  · obtain ⟨⟨p, p'⟩, _, wrong, step⟩ := reached k (List.mem_range'_1.2 ⟨by omega, by omega⟩)
    simp only [bind_eq_ok, Nat.sub_self] at step
    obtain ⟨_, _, _, _, _, _, _, taken, u, read, v, at_v, _, product, _⟩ := step
    obtain rfl := coeff_of_zero below at_v
    exact ((wrong.subAt taken).of_coeff read).zipWith_refused shape product

/-- Only sums and differences take partials of a wrong length, and hand them on to both terms. -/
theorem BinaryOp.misfits_pullback {op : BinaryOp}
    (shape : (a 0).SameShape s ∨ (b 0).SameShape s) (shape' : (z 0).SameShape s) (below : k < q)
    (wrong : Misfits s k pz)
    (done : op.pullback (.of a q) (.of b q) (.of z q) pz pa pb = .ok rs) :
    (op = .add ∨ op = .sub) ∧ Misfits s k rs.1 ∧ Misfits s k rs.2 := by
  cases op with
  | add =>
    refine ⟨.inl rfl, foldlM_settled (P := fun rs => Misfits s k rs.1 ∧ Misfits s k rs.2) ?_ ?_ done
      (mem_range_of a below)⟩
    · rintro j _ ⟨p, p'⟩ walk ⟨left, right⟩ step
      simp only [bind_eq_ok, pure_eq_ok] at step
      obtain ⟨_, _, _, added, _, _, _, added', rfl⟩ := step
      exact ⟨left.addAt added, right.addAt added'⟩
    · rintro ⟨p, p'⟩ walk step
      simp only [bind_eq_ok, pure_eq_ok] at step
      obtain ⟨_, read, _, added, _, read', _, added', rfl⟩ := step
      exact ⟨misfits_of_addAt (wrong.of_coeff read) added,
        misfits_of_addAt (wrong.of_coeff read') added'⟩
  | sub =>
    refine ⟨.inr rfl, foldlM_settled (P := fun rs => Misfits s k rs.1 ∧ Misfits s k rs.2) ?_ ?_ done
      (mem_range_of a below)⟩
    · rintro j _ ⟨p, p'⟩ walk ⟨left, right⟩ step
      simp only [bind_eq_ok, pure_eq_ok] at step
      obtain ⟨_, _, _, added, _, _, _, taken, rfl⟩ := step
      exact ⟨left.addAt added, right.subAt taken⟩
    · rintro ⟨p, p'⟩ walk step
      simp only [bind_eq_ok, pure_eq_ok] at step
      obtain ⟨_, read, _, added, _, read', _, taken, rfl⟩ := step
      exact ⟨misfits_of_addAt (wrong.of_coeff read) added,
        misfits_of_subAt (wrong.of_coeff read') taken⟩
  | mul => exact absurd done (mul_refuses shape below wrong)
  | div => exact absurd done (div_refuses shape' below wrong)

end Rules

namespace BuiltIn

private theorem misfits_expand {context : String} {u : Value F} {n : Nat} {elems : List F}
    (wrong : u.Misfits s) (length : s.length = n) : Base.expand context u n ≠ .ok elems := by
  intro done
  unfold Base.expand at done
  rw [show Base.isScalar u = false from wrong.isScalar, if_neg Bool.false_ne_true,
    if_neg (length ▸ wrong.length_ne)] at done
  cases done

theorem sameShape_flipped {u w : Value F} (turned : Atomic.flipped u = .ok w) : w.SameShape u := by
  cases u with
  | scalar x =>
    obtain rfl := Except.ok.inj turned
    exact .refl _
  | array xs =>
    obtain rfl := Except.ok.inj turned
    exact .array List.length_reverse

section Rules

variable {x0 ss ps : List (Value F)} {u : Value F}

private theorem concat_refuses (stepped : concat.step x0 x0 = .ok (s :: ss)) (wrong : u.Misfits s) :
    concat.back x0 [u] ≠ .ok ps := by
  intro done
  obtain ⟨x, x', _, _, head, tail, _, rfl, ⟨⟩, first, second, made, same⟩ :=
    step_concat_eq_ok.1 stepped
  obtain rfl := Except.ok.inj made
  obtain ⟨rfl, _⟩ := List.cons.inj same
  obtain ⟨elems, expanded, _⟩ := bind_eq_ok.1 done
  refine misfits_expand wrong ?_ expanded
  have count : (head ++ tail).length = head.length + tail.length := List.length_append
  rw [length_expand first, length_expand second] at count
  exact count

private theorem pack_refuses (stepped : pack.step x0 x0 = .ok (s :: ss)) (wrong : u.Misfits s) :
    pack.back x0 [u] ≠ .ok ps := by
  intro done
  obtain ⟨es, _, read, made, same⟩ := step_pack_eq_ok.1 stepped
  obtain rfl := Except.ok.inj made
  obtain ⟨rfl, _⟩ := List.cons.inj same
  obtain ⟨elems, expanded, _⟩ := bind_eq_ok.1 done
  exact misfits_expand wrong (length_of_mapM read) expanded

private theorem make_refuses {n : Nat} (stepped : (make n).step x0 x0 = .ok (s :: ss))
    (wrong : u.Misfits s) : (make n).back x0 [u] ≠ .ok ps := by
  intro done
  obtain ⟨_, _, x, _, rfl, _, _, made, same⟩ := step_make_eq_ok.1 stepped
  obtain rfl := Except.ok.inj made
  obtain ⟨rfl, _⟩ := List.cons.inj same
  have other : Base.length u ≠ n := fun same =>
    wrong.length_ne (same.trans List.length_replicate.symm)
  rw [back, show Base.isScalar u = false from wrong.isScalar, if_neg Bool.false_ne_true,
    if_neg other] at done
  cases done

private theorem misfits_flip (wrong : u.Misfits s) (done : flip.back x0 [u] = .ok ps) :
    ∃ x w, x0 = [x] ∧ ps = [w] ∧ w.Misfits s := by
  match x0, done with
  | [x], done =>
    obtain ⟨w, reversed, last⟩ := bind_eq_ok.1 done
    exact ⟨x, w, rfl, (pure_eq_ok.1 last).symm,
      wrong.of_sameShape (sameShape_flipped ((turned_eq u).symm.trans reversed))⟩

private theorem misfits_back {b : BuiltIn} {us : List (Value F)}
    (stepped : b.step x0 x0 = .ok (s :: ss))
    (wrong : u.Misfits s) (count : (u :: us).length = b.count)
    (done : b.back x0 (u :: us) = .ok ps) :
    b = .flip ∧ ∃ x w, x0 = [x] ∧ ps = [w] ∧ w.Misfits s := by
  have single (one : b.count = 1) : us = [] := by
    rw [one, List.length_cons] at count
    exact List.length_eq_zero_iff.1 (by omega)
  cases b with
  | sum =>
    -- the result is a scalar, which every partial fits
    obtain ⟨_, _, _, _, _, _, same⟩ := step_sum_eq_ok.1 stepped
    obtain ⟨rfl, _⟩ := List.cons.inj same
    cases wrong
  | unpack n =>
    obtain ⟨_, _, row, _, _, _, _, same⟩ := step_unpack_eq_ok.1 stepped
    cases row with
    | nil => cases same
    | cons x row =>
      obtain ⟨rfl, _⟩ := List.cons.inj same
      cases wrong
  | concat =>
    obtain rfl := single rfl
    exact absurd done (concat_refuses stepped wrong)
  | flip =>
    obtain rfl := single rfl
    exact ⟨rfl, misfits_flip wrong done⟩
  | pack =>
    obtain rfl := single rfl
    exact absurd done (pack_refuses stepped wrong)
  | make n =>
    obtain rfl := single rfl
    exact absurd done (make_refuses stepped wrong)

/-- A call back that is given partials of a wrong length at some order fails, unless it is a reversal,
which hands them on. -/
theorem misfits_reverse {b : BuiltIn} {args : List (Nat → Value F)}
    {ys pzs shares : List (Series (Value F))} {pz : Series (Value F)}
    (stepped : b.step (args.map (· 0)) (args.map (· 0)) = .ok (s :: ss)) (below : k < q + 1)
    (wide : FillsBlock q b.count (pz :: pzs)) (wrong : Series.Misfits s k pz)
    (done : b.atomic.reverse q (args.map (.of · (q + 1))) ys (pz :: pzs) = .ok (some shares)) :
    b = .flip ∧ ∃ a share, args = [a] ∧ shares = [share] ∧ Series.Misfits s k share := by
  have arity : b.arity args.length = args.length := by simpa using arity_of_step stepped
  obtain ⟨ws, ps, read, back, passed⟩ :=
    back_of_reverse args arity wide done (Nat.le_of_lt_succ below)
  obtain ⟨u, here, misfits⟩ := wrong.exists_coeff
  rw [List.mapM_cons, here, ok_bind] at read
  obtain ⟨us, others, same⟩ := bind_eq_ok.1 read
  obtain rfl := pure_eq_ok.1 same
  have count : (u :: us).length = b.count := by
    rw [← wide.length, List.length_cons, List.length_cons, length_of_mapM others]
  obtain ⟨turns, x, w, single, rfl, misfits⟩ := misfits_back stepped misfits count back
  obtain ⟨a, rest, rfl, _, none⟩ := List.map_eq_cons_iff.1 single
  obtain rfl := List.map_eq_nil_iff.1 none
  obtain ⟨share, rfl⟩ := List.length_eq_one_iff.1 (length_of_mapM passed).symm
  refine ⟨turns, a, share, rfl, rfl, w, ?_, misfits⟩
  rw [List.mapM_cons] at passed
  obtain ⟨w', read, last⟩ := bind_eq_ok.1 passed
  obtain rfl := (List.cons.inj (pure_eq_ok.1 last)).1
  exact fetch_eq_ok_iff.1 read

end Rules

end BuiltIn

end TaylorTape
