import TaylorTape.Proofs.Parallel

/-!
What is passed back in two runs, side by side.

A rule that passes partials back adds and subtracts them, multiplies them with coefficients and
divides them by such.  What is related before is related afterwards.  The grade is what the order-zero
coefficients contribute: every order of a share takes in a product with an order-zero coefficient or
a quotient by one, but for negation, sum and difference, which hand on the partials as they are.
-/

set_option autoImplicit false
set_option relaxedAutoImplicit false

namespace TaylorTape

variable {B B' F : Type} [Scalar F] [Base B F] [Base B' F] {C P : Prop → B → B' → Prop}

namespace Series

variable {n k : Nat} {q : Prop} {grade factors : Nat → Prop} {s : Series B} {s' : Series B'}
  {u v : B} {u' v' : B'}

theorem related_zeros (linear : Linear C P) (n : Nat) :
    Related n P (fun _ => False) (zeros n) (zeros n) := by
  refine ⟨Array.size_replicate, Array.size_replicate, fun k c c' here here' => ?_⟩
  unfold zeros at here here'
  obtain ⟨_, rfl⟩ := Array.getElem?_eq_some_iff.1 here
  obtain ⟨_, rfl⟩ := Array.getElem?_eq_some_iff.1 here'
  rw [Array.getElem_replicate, Array.getElem_replicate]
  exact linear.zero

private theorem Related.store (linear : Linear C P) (related : Related n P grade s s')
    (grade' : Nat → Prop) (below : k < n)
    (own : P (grade k ∨ q) u u') (next : ∀ j < n, grade' j → grade j ∨ j = k ∧ q) :
    Both (Related n P grade') (store s k u) (TaylorTape.store s' k u') := by
  have inside : k < s.size := related.size ▸ below
  have inside' : k < s'.size := related.size' ▸ below
  refine ⟨s.set k u, s'.set k u', store_eq_ok_iff.2 ⟨inside, rfl⟩, store_eq_ok_iff.2 ⟨inside', rfl⟩,
    ?_, ?_, fun j c c' here here' => ?_⟩
  · rw [Array.size_set, related.size]
  · rw [Array.size_set, related.size']
  · rw [Array.getElem?_set] at here here'
    by_cases same : k = j
    · subst same
      rw [if_pos rfl] at here here'
      obtain rfl := Option.some.inj here
      obtain rfl := Option.some.inj here'
      exact linear.weaken own fun full => (next k below full).imp_right And.right
    · rw [if_neg same] at here here'
      have low : j < n := related.size ▸ (Array.getElem?_eq_some_iff.1 here).1
      refine linear.weaken (related.each j c c' here here') fun full => ?_
      exact (next j low full).resolve_right fun own => same own.1.symm

/-- One coefficient of the second series replaced. -/
theorem Related.store_second (related : Related n P grade s s') (below : k < n)
    (own : ∀ u, s[k]? = some u → P (grade k) u u') :
    ∃ t, TaylorTape.store s' k u' = .ok t ∧ Related n P grade s t := by
  have inside' : k < s'.size := related.size' ▸ below
  refine ⟨s'.set k u', store_eq_ok_iff.2 ⟨inside', rfl⟩, related.size, ?_, fun j c c' here here' => ?_⟩
  · rw [Array.size_set, related.size']
  · rw [Array.getElem?_set] at here'
    by_cases same : k = j
    · subst same
      rw [if_pos rfl] at here'
      obtain rfl := Option.some.inj here'
      exact own c here
    · rw [if_neg same] at here'
      exact related.each j c c' here here'

theorem Related.addAt (linear : Linear C P) (related : Related n P grade s s')
    (grade' : Nat → Prop) (below : k < n)
    (amount : P q v v') (next : ∀ j < n, grade' j → grade j ∨ j = k ∧ q) :
    Both (Related n P grade') (s.addAt k v) (s'.addAt k v') := by
  apply (related.coeff below).bind
  intro u u' old
  apply (linear.add old amount).bind
  intro w w' sum
  exact related.store linear grade' below sum next

private theorem Related.subAt (linear : Linear C P) (related : Related n P grade s s')
    (grade' : Nat → Prop) (below : k < n)
    (amount : P q v v') (next : ∀ j < n, grade' j → grade j ∨ j = k ∧ q) :
    Both (Related n P grade') (s.subAt k v) (s'.subAt k v') := by
  apply (related.coeff below).bind
  intro u u' old
  apply (linear.sub old amount).bind
  intro w w' difference
  exact related.store linear grade' below difference next

private theorem Related.divAt (linear : Linear C P) (related : Related n P grade s s')
    (grade' : Nat → Prop) (below : k < n)
    (divisor : C q v v') (next : ∀ j < n, grade' j → grade j ∨ j = k ∧ q) :
    Both (Related n P grade') (s.divAt k v) (s'.divAt k v') := by
  apply (related.coeff below).bind
  intro u u' old
  apply (linear.div old divisor).bind
  intro w w' quotient
  exact related.store linear grade' below quotient next

private theorem Related.addMul_bind (linear : Linear C P) (related : Related n P grade s s')
    (grade' : Nat → Prop) {c : Series B} {c' : Series B'} (known : Related n C factors c c')
    (weight : P q v v') {i : Nat} (there : i < n) (below : k < n)
    (next : ∀ j < n, grade' j → grade j ∨ j = k ∧ (q ∨ factors i)) {α α' : Type} {S : α → α' → Prop}
    {f : Series B → Except Error α} {f' : Series B' → Except Error α'}
    (rest : ∀ t t', Related n P grade' t t' → Both S (f t) (f' t')) :
    Both S (do f (← s.addAt k (← Base.mul v (← c.coeff i))))
      (do f' (← s'.addAt k (← Base.mul v' (← c'.coeff i)))) := by
  apply (known.coeff there).bind
  intro x x' factor
  apply (linear.mul weight factor).bind
  intro w w' product
  exact (related.addAt linear grade' below product next).bind rest

private theorem Related.subMul_bind (linear : Linear C P) (related : Related n P grade s s')
    (grade' : Nat → Prop) {c : Series B} {c' : Series B'} (known : Related n C factors c c')
    (weight : P q v v') {i : Nat} (there : i < n) (below : k < n)
    (next : ∀ j < n, grade' j → grade j ∨ j = k ∧ (q ∨ factors i)) {α α' : Type} {S : α → α' → Prop}
    {f : Series B → Except Error α} {f' : Series B' → Except Error α'}
    (rest : ∀ t t', Related n P grade' t t' → Both S (f t) (f' t')) :
    Both S (do f (← s.subAt k (← Base.mul v (← c.coeff i))))
      (do f' (← s'.subAt k (← Base.mul v' (← c'.coeff i)))) := by
  apply (known.coeff there).bind
  intro x x' factor
  apply (linear.mul weight factor).bind
  intro w w' product
  exact (related.subAt linear grade' below product next).bind rest

end Series

open Series

section Unary

variable {n : Nat} {a z pz pa : Series B} {a' z' pz' pa' : Series B'}

private theorem neg_both (linear : Linear C P) (positive : 0 < n) (args : Related n C (· = 0) a a')
    (given : Related n P (fun _ => False) pz pz') (start : Related n P (fun _ => False) pa pa') :
    Both (Related n P fun _ => False) (UnaryOp.neg.pullback a z pz pa)
      (UnaryOp.neg.pullback a' z' pz' pa') := by
  simp only [UnaryOp.pullback, args.size, args.size', Nat.sub_add_cancel positive,
    List.range_eq_range']
  apply Both.up (I := fun _ => Related n P fun _ => False)
  · intro k s s' low high related
    apply (given.coeff (show k < n by omega)).bind
    intro u u' own
    exact related.subAt linear _ (by omega) own fun _ _ => False.elim
  · exact start

private theorem abs_both (respected : Respected C) (linear : Linear C P) (positive : 0 < n)
    (args : Related n C (· = 0) a a') (given : Related n P (fun _ => False) pz pz')
    (start : Related n P (fun _ => False) pa pa') :
    Both (Related n P fun _ => True) (UnaryOp.abs.pullback a z pz pa)
      (UnaryOp.abs.pullback a' z' pz' pa') := by
  simp only [UnaryOp.pullback, args.size, args.size', Nat.sub_add_cancel positive,
    List.range_eq_range']
  apply (args.coeff positive).bind
  intro x x' first
  have sign := respected.map Scalar.sign first
  apply Both.mono (R := Related n P (· < 0 + n))
  · apply Both.up (I := fun k => Related n P (· < k))
    · intro k s s' low high related
      apply (given.coeff (show k < n by omega)).bind
      intro u u' own
      apply (linear.mul' sign own).bind
      intro v v' product
      exact related.addAt linear _ (by omega) product (by omega)
    · exact start.weaken linear.weaken (by omega)
  · intro w w' related
    exact related.weaken linear.weaken (by omega)

private theorem exp_both (linear : Linear C P) (positive : 0 < n) (args : Related n C (· = 0) a a')
    (own : Related n C (· = 0) z z') (given : Related n P (fun _ => False) pz pz')
    (start : Related n P (fun _ => False) pa pa') :
    Both (Related n P fun _ => True) (UnaryOp.exp.pullback a z pz pa)
      (UnaryOp.exp.pullback a' z' pz' pa') := by
  simp only [UnaryOp.pullback, args.size, args.size']
  apply Both.bind (R := Each (Related n P fun _ => False) (Related n P (1 ≤ ·)))
  · apply Both.down (I := fun i => Each (Related n P fun _ => False) (Related n P (i ≤ ·)))
    · rintro k ⟨s, t⟩ ⟨s', t'⟩ low high ⟨rest, share⟩
      apply Both.mono (R := Each (Related n P fun _ => False)
        (Related n P fun l => k < l ∨ l = k ∧ k < 1 + k))
      · apply Both.up (I := fun j => Each (Related n P fun _ => False)
          (Related n P fun l => k < l ∨ l = k ∧ k < j))
        · rintro j ⟨s, t⟩ ⟨s', t'⟩ start stop ⟨rest, share⟩
          apply (rest.coeff (show k < n by omega)).bind
          intro u u' here
          have weighted := linear.scale (Scalar.ratio j k) here
          apply share.addMul_bind linear (fun l => k < l ∨ l = k ∧ k < j + 1) own weighted (by omega)
            (by omega) (by omega)
          intro t t' share
          apply rest.addMul_bind linear (fun _ => False) args weighted (by omega) (by omega)
            fun _ _ => False.elim
          intro s s' rest
          exact .ok ⟨rest, share⟩
        · exact ⟨rest, share.weaken linear.weaken (by omega)⟩
      · intro w w' both
        exact ⟨both.1, both.2.weaken linear.weaken (by omega)⟩
    · exact ⟨given, start.weaken linear.weaken (by omega)⟩
  · rintro ⟨s, t⟩ ⟨s', t'⟩ ⟨rest, share⟩
    apply (rest.coeff positive).bind
    intro u u' here
    apply (own.coeff positive).bind
    intro x x' factor
    apply (linear.mul here factor).bind
    intro v v' product
    exact share.addAt linear _ positive product (by omega)

/-- The partials of each order are divided by the value of the argument before they are passed on. -/
private theorem ln_both (linear : Linear C P) (positive : 0 < n) (args : Related n C (· = 0) a a')
    (own : Related n C (· = 0) z z') (given : Related n P (fun _ => False) pz pz')
    (start : Related n P (fun _ => False) pa pa') :
    Both (Related n P fun _ => True) (UnaryOp.ln.pullback a z pz pa)
      (UnaryOp.ln.pullback a' z' pz' pa') := by
  simp only [UnaryOp.pullback, args.size, args.size']
  apply Both.bind (R := Each (Related n P fun _ => False) (Related n P (1 ≤ ·)))
  · apply Both.down (I := fun i => Each (Related n P fun _ => False) (Related n P (i ≤ ·)))
    · rintro k ⟨s, t⟩ ⟨s', t'⟩ low high ⟨rest, share⟩
      apply (args.coeff positive).bind
      intro x x' divisor
      apply (rest.divAt linear (· = k) (by omega) divisor (by omega)).bind
      intro s s' rest
      apply (rest.coeff (show k < n by omega)).bind
      intro u u' here
      apply share.subMul_bind linear (k + 1 ≤ ·) own here (by omega) positive (by omega)
      intro t t' share
      apply (rest.coeff (show k < n by omega)).bind
      intro u u' here
      apply (share.addAt linear (k ≤ ·) (by omega) here (by omega)).bind
      intro t t' share
      apply Both.up (I := fun _ => Each (Related n P fun _ => False) (Related n P (k ≤ ·)))
      · rintro j ⟨s, t⟩ ⟨s', t'⟩ start stop ⟨rest, share⟩
        apply (rest.coeff (show k < n by omega)).bind
        intro u u' here
        have weighted := linear.scale (Scalar.ratio j k) here
        apply rest.subMul_bind linear (fun _ => False) args weighted (by omega) (by omega)
          fun _ _ => False.elim
        intro s s' rest
        apply share.subMul_bind linear (k ≤ ·) own weighted (by omega) (by omega) fun _ _ => .inl
        intro t t' share
        exact .ok ⟨rest, share⟩
      · exact ⟨rest.weaken linear.weaken fun _ _ => False.elim, share⟩
    · exact ⟨given, start.weaken linear.weaken (by omega)⟩
  · rintro ⟨s, t⟩ ⟨s', t'⟩ ⟨rest, share⟩
    apply (rest.coeff positive).bind
    intro u u' here
    apply (args.coeff positive).bind
    intro x x' divisor
    apply (linear.div here divisor).bind
    intro v v' quotient
    exact share.addAt linear _ positive quotient (by omega)

/-- The partials of each order are divided by the value of the result before they are passed on. -/
private theorem sqrt_both (linear : Linear C P) (positive : 0 < n) (args : Related n C (· = 0) a a')
    (own : Related n C (· = 0) z z') (given : Related n P (fun _ => False) pz pz')
    (start : Related n P (fun _ => False) pa pa') :
    Both (Related n P fun _ => True) (UnaryOp.sqrt.pullback a z pz pa)
      (UnaryOp.sqrt.pullback a' z' pz' pa') := by
  simp only [UnaryOp.pullback, args.size, args.size']
  apply Both.bind (R := Each (Related n P fun _ => False) (Related n P (1 ≤ ·)))
  · apply Both.down (I := fun i => Each (Related n P fun _ => False) (Related n P (i ≤ ·)))
    · rintro k ⟨s, t⟩ ⟨s', t'⟩ low high ⟨rest, share⟩
      apply (own.coeff positive).bind
      intro x x' divisor
      apply (rest.divAt linear (· = k) (by omega) divisor (by omega)).bind
      intro s s' rest
      apply (rest.coeff (show k < n by omega)).bind
      intro u u' here
      apply rest.subMul_bind linear (· = k) own here (by omega) positive fun _ _ => .inl
      intro s s' rest
      apply (rest.coeff (show k < n by omega)).bind
      intro u u' here
      have half := linear.scale (Scalar.ratio 1 2) here
      apply (share.addAt linear (k ≤ ·) (by omega) half (by omega)).bind
      intro t t' share
      apply Both.bind (R := Related n P fun _ => False)
      · apply Both.up (I := fun _ => Related n P fun _ => False)
        · intro j s s' start stop rest
          apply (rest.coeff (show k < n by omega)).bind
          intro u u' here
          apply (own.coeff (show k - j < n by omega)).bind
          intro x x' factor
          apply (linear.mul here factor).bind
          intro v v' product
          exact rest.subAt linear _ (by omega) product fun _ _ => False.elim
        · exact rest.weaken linear.weaken fun _ _ => False.elim
      · intro s s' rest
        exact .ok ⟨rest, share⟩
    · exact ⟨given, start.weaken linear.weaken (by omega)⟩
  · rintro ⟨s, t⟩ ⟨s', t'⟩ ⟨rest, share⟩
    apply (rest.coeff positive).bind
    intro u u' here
    apply (own.coeff positive).bind
    intro x x' divisor
    apply (linear.div here divisor).bind
    intro v v' quotient
    exact share.addAt linear _ positive (linear.scale _ quotient) (by omega)

/-- The partials of the sine and of the cosine each take in products with the other's series. -/
private theorem sinCosPullback_both (respected : Respected C) (linear : Linear C P)
    (positive : 0 < n) {ps pc : Series B} {ps' pc' : Series B'} (args : Related n C (· = 0) a a')
    (sine : Related n P (fun _ => False) ps ps') (cosine : Related n P (fun _ => False) pc pc')
    (start : Related n P (fun _ => False) pa pa') :
    Both (Related n P fun _ => True) (a.sinCosPullback ps pc pa) (a'.sinCosPullback ps' pc' pa') := by
  simp only [sinCosPullback, args.size, args.size']
  have both := sinCos_both respected args (show n - 1 < n by omega)
  rw [Nat.sub_add_cancel positive] at both
  apply both.bind
  rintro ⟨sines, cosines⟩ ⟨sines', cosines'⟩ ⟨known, known'⟩
  apply Both.bind (R := Each (Related n P fun _ => False)
    (Each (Related n P fun _ => False) (Related n P (1 ≤ ·))))
  · apply Both.down (I := fun i => Each (Related n P fun _ => False)
      (Each (Related n P fun _ => False) (Related n P (i ≤ ·))))
    · rintro k ⟨s, c, t⟩ ⟨s', c', t'⟩ low high ⟨sine, cosine, share⟩
      apply Both.mono (R := Each (Related n P fun _ => False) (Each (Related n P fun _ => False)
        (Related n P fun l => k < l ∨ l = k ∧ k < 1 + k)))
      · apply Both.up (I := fun j => Each (Related n P fun _ => False)
          (Each (Related n P fun _ => False) (Related n P fun l => k < l ∨ l = k ∧ k < j)))
        · rintro j ⟨s, c, t⟩ ⟨s', c', t'⟩ start stop ⟨sine, cosine, share⟩
          apply (sine.coeff (show k < n by omega)).bind
          intro u u' here
          have weighted := linear.scale (Scalar.ratio j k) here
          apply (cosine.coeff (show k < n by omega)).bind
          intro v v' there
          have weighted' := linear.scale (Scalar.ratio j k) there
          apply share.addMul_bind linear (fun l => k < l ∨ l = k ∧ k < j + 1) known' weighted
            (by omega) (by omega) (by omega)
          intro t t' share
          apply share.subMul_bind linear (fun l => k < l ∨ l = k ∧ k < j + 1) known weighted'
            (by omega) (by omega) fun _ _ => .inl
          intro t t' share
          apply cosine.addMul_bind linear (fun _ => False) args weighted (by omega) (by omega)
            fun _ _ => False.elim
          intro c c' cosine
          apply sine.subMul_bind linear (fun _ => False) args weighted' (by omega) (by omega)
            fun _ _ => False.elim
          intro s s' sine
          exact .ok ⟨sine, cosine, share⟩
        · exact ⟨sine, cosine, share.weaken linear.weaken (by omega)⟩
      · intro w w' both
        exact ⟨both.1, both.2.1, both.2.2.weaken linear.weaken (by omega)⟩
    · exact ⟨sine, cosine, start.weaken linear.weaken (by omega)⟩
  · rintro ⟨s, c, t⟩ ⟨s', c', t'⟩ ⟨sine, cosine, share⟩
    apply (sine.coeff positive).bind
    intro u u' here
    apply share.addMul_bind linear (fun _ => True) known' here positive positive (by omega)
    intro t t' share
    apply (cosine.coeff positive).bind
    intro v v' there
    apply (known.coeff positive).bind
    intro x x' factor
    apply (linear.mul there factor).bind
    intro w w' product
    exact share.subAt linear _ positive product fun _ _ => .inl

/-- What an operation of one argument passes back.  But for the negation every order of it takes in
a coefficient of order zero. -/
theorem UnaryOp.pullback_both (respected : Respected C) (linear : Linear C P) (op : UnaryOp)
    (positive : 0 < n) (args : Related n C (· = 0) a a') (own : Related n C (· = 0) z z')
    (given : Related n P (fun _ => False) pz pz') :
    Both (Related n P fun _ => op ≠ .neg) (op.pullback a z pz (zeros n))
      (op.pullback a' z' pz' (zeros n)) := by
  have start := related_zeros linear n
  have full : op ≠ .neg → Both (Related n P fun _ => True) (op.pullback a z pz (zeros n))
      (op.pullback a' z' pz' (zeros n)) := by
    intro other
    cases op with
    | neg => exact absurd rfl other
    | abs => exact abs_both respected linear positive args given start
    | exp => exact exp_both linear positive args own given start
    | ln => exact ln_both linear positive args own given start
    | sqrt => exact sqrt_both linear positive args own given start
    | sin =>
      simp only [UnaryOp.pullback, args.size, args.size', Nat.sub_add_cancel positive]
      exact sinCosPullback_both respected linear positive args given start start
    | cos =>
      simp only [UnaryOp.pullback, args.size, args.size', Nat.sub_add_cancel positive]
      exact sinCosPullback_both respected linear positive args start given start
  by_cases same : op = .neg
  · subst same
    apply (neg_both linear positive args given start).mono
    intro w w' related
    exact related.weaken linear.weaken fun _ _ other => other rfl
  · apply (full same).mono
    intro w w' related
    exact related.weaken linear.weaken fun _ _ _ => trivial

end Unary

section Binary

variable {n : Nat} {f g : Prop} {a b z pz : Series B} {a' b' z' pz' : Series B'}

/-- Whether what an operation passes back to its first argument takes in coefficients of order zero
of which it is known that they are full, given whether that is known of the arguments. -/
def BinaryOp.FillsLeft (op : BinaryOp) (right : Prop) : Prop :=
  match op with
  | .add | .sub => False
  | .mul | .div => right

/-- The same for the second argument. -/
def BinaryOp.FillsRight (op : BinaryOp) (left : Prop) : Prop :=
  match op with
  | .add | .sub => False
  | .mul => left
  | .div => True

private theorem add_both (linear : Linear C P) (positive : 0 < n)
    (left : Related n C (· = 0 ∧ f) a a') (given : Related n P (fun _ => False) pz pz') :
    Both (Each (Related n P fun _ => False) (Related n P fun _ => False))
      (BinaryOp.add.pullback a b z pz (zeros n) (zeros n))
      (BinaryOp.add.pullback a' b' z' pz' (zeros n) (zeros n)) := by
  have start := related_zeros linear n
  simp only [BinaryOp.pullback, left.size, left.size', Nat.sub_add_cancel positive,
    List.range_eq_range']
  apply Both.up (I := fun _ => Each (Related n P fun _ => False) (Related n P fun _ => False))
  · rintro k ⟨s, t⟩ ⟨s', t'⟩ low high ⟨share, share'⟩
    apply (given.coeff (show k < n by omega)).bind
    intro u u' own
    apply (share.addAt linear (fun _ => False) (by omega) own fun _ _ => False.elim).bind
    intro s s' share
    apply (given.coeff (show k < n by omega)).bind
    intro v v' own'
    apply (share'.addAt linear (fun _ => False) (by omega) own' fun _ _ => False.elim).bind
    intro t t' share'
    exact .ok ⟨share, share'⟩
  · exact ⟨start, start⟩

private theorem sub_both (linear : Linear C P) (positive : 0 < n)
    (left : Related n C (· = 0 ∧ f) a a') (given : Related n P (fun _ => False) pz pz') :
    Both (Each (Related n P fun _ => False) (Related n P fun _ => False))
      (BinaryOp.sub.pullback a b z pz (zeros n) (zeros n))
      (BinaryOp.sub.pullback a' b' z' pz' (zeros n) (zeros n)) := by
  have start := related_zeros linear n
  simp only [BinaryOp.pullback, left.size, left.size', Nat.sub_add_cancel positive,
    List.range_eq_range']
  apply Both.up (I := fun _ => Each (Related n P fun _ => False) (Related n P fun _ => False))
  · rintro k ⟨s, t⟩ ⟨s', t'⟩ low high ⟨share, share'⟩
    apply (given.coeff (show k < n by omega)).bind
    intro u u' own
    apply (share.addAt linear (fun _ => False) (by omega) own fun _ _ => False.elim).bind
    intro s s' share
    apply (given.coeff (show k < n by omega)).bind
    intro v v' own'
    apply (share'.subAt linear (fun _ => False) (by omega) own' fun _ _ => False.elim).bind
    intro t t' share'
    exact .ok ⟨share, share'⟩
  · exact ⟨start, start⟩

private theorem mul_both (linear : Linear C P) (positive : 0 < n)
    (left : Related n C (· = 0 ∧ f) a a')
    (right : Related n C (· = 0 ∧ g) b b') (given : Related n P (fun _ => False) pz pz') :
    Both (Each (Related n P fun _ => g) (Related n P fun _ => f))
      (BinaryOp.mul.pullback a b z pz (zeros n) (zeros n))
      (BinaryOp.mul.pullback a' b' z' pz' (zeros n) (zeros n)) := by
  have start := related_zeros linear n
  simp only [BinaryOp.pullback, left.size, left.size', Nat.sub_add_cancel positive,
    List.range_eq_range']
  apply Both.mono (R := Each (Related n P (· < 0 + n ∧ g)) (Related n P (· < 0 + n ∧ f)))
  · apply Both.up (I := fun i => Each (Related n P (· < i ∧ g)) (Related n P (· < i ∧ f)))
    · rintro k ⟨s, t⟩ ⟨s', t'⟩ low high ⟨share, share'⟩
      apply Both.mono (R := Each
        (Related n P fun l => (l < k ∨ l = k ∧ k < 0 + (k + 1)) ∧ g)
        (Related n P fun l => (l < k ∨ l = k ∧ 0 < 0 + (k + 1)) ∧ f))
      · apply Both.up (I := fun j => Each (Related n P fun l => (l < k ∨ l = k ∧ k < j) ∧ g)
          (Related n P fun l => (l < k ∨ l = k ∧ 0 < j) ∧ f))
        · rintro j ⟨s, t⟩ ⟨s', t'⟩ start stop ⟨share, share'⟩
          apply (given.coeff (show k < n by omega)).bind
          intro u u' own
          apply share.addMul_bind linear (fun l => (l < k ∨ l = k ∧ k < j + 1) ∧ g) right own
            (by omega) (by omega) (by grind)
          intro s s' share
          apply (given.coeff (show k < n by omega)).bind
          intro v v' own'
          apply share'.addMul_bind linear (fun l => (l < k ∨ l = k ∧ 0 < j + 1) ∧ f) left own'
            (by omega) (by omega) (by grind)
          intro t t' share'
          exact .ok ⟨share, share'⟩
        · exact ⟨share.weaken linear.weaken (by grind), share'.weaken linear.weaken (by grind)⟩
      · intro w w' both
        exact ⟨both.1.weaken linear.weaken (by grind), both.2.weaken linear.weaken (by grind)⟩
    · exact ⟨start.weaken linear.weaken (by grind), start.weaken linear.weaken (by grind)⟩
  · intro w w' both
    exact ⟨both.1.weaken linear.weaken (by grind), both.2.weaken linear.weaken (by grind)⟩

/-- The partials of each order are divided by the divisor's coefficient of order zero, and what the
divisor receives takes in a product with that of the quotient. -/
private theorem div_both (linear : Linear C P) (positive : 0 < n)
    (left : Related n C (· = 0 ∧ f) a a')
    (right : Related n C (· = 0 ∧ g) b b') (own : Related n C (· = 0) z z')
    (given : Related n P (fun _ => False) pz pz') :
    Both (Each (Related n P fun _ => g) (Related n P fun _ => True))
      (BinaryOp.div.pullback a b z pz (zeros n) (zeros n))
      (BinaryOp.div.pullback a' b' z' pz' (zeros n) (zeros n)) := by
  have start := related_zeros linear n
  simp only [BinaryOp.pullback, left.size, left.size', Nat.sub_add_cancel positive,
    List.range_eq_range']
  apply Both.bind (R := Each (Related n P fun _ => False)
    (Each (Related n P (0 ≤ · ∧ g)) (Related n P (0 ≤ ·))))
  · apply Both.down (I := fun i => Each (Related n P fun _ => False)
      (Each (Related n P (i ≤ · ∧ g)) (Related n P (i ≤ ·))))
    · rintro k ⟨s, t, r⟩ ⟨s', t', r'⟩ low high ⟨rest, share, share'⟩
      apply (right.coeff positive).bind
      intro y y' divisor
      apply (rest.divAt linear (· = k ∧ g) (by omega) divisor (by grind)).bind
      intro s s' rest
      apply (rest.coeff (show k < n by omega)).bind
      intro u u' here
      apply (share.addAt linear (k ≤ · ∧ g) (by omega) here (by grind)).bind
      intro t t' share
      apply Both.bind (R := Each (Related n P fun _ => False)
        (Related n P fun l => k < l ∨ l = k ∧ 0 < k ∧ k < 1 + k))
      · apply Both.up (I := fun j => Each (Related n P fun _ => False)
          (Related n P fun l => k < l ∨ l = k ∧ 0 < k ∧ k < j))
        · rintro j ⟨s, r⟩ ⟨s', r'⟩ start stop ⟨rest, share'⟩
          apply (rest.coeff (show k < n by omega)).bind
          intro u u' here
          apply rest.subMul_bind linear (fun _ => False) right here (by omega) (by omega)
            fun _ _ => False.elim
          intro s s' rest
          apply (rest.coeff (show k < n by omega)).bind
          intro u u' here
          apply share'.subMul_bind linear (fun l => k < l ∨ l = k ∧ 0 < k ∧ k < j + 1) own here
            (by omega) (by omega) (by omega)
          intro r r' share'
          exact .ok ⟨rest, share'⟩
        · exact ⟨rest.weaken linear.weaken fun _ _ => False.elim,
            share'.weaken linear.weaken (by omega)⟩
      · rintro ⟨s, r⟩ ⟨s', r'⟩ ⟨rest, share'⟩
        apply (rest.coeff (show k < n by omega)).bind
        intro u u' here
        apply share'.subMul_bind linear (k ≤ ·) own here (by omega) positive (by omega)
        intro r r' share'
        exact .ok ⟨rest, share, share'⟩
    · exact ⟨given, start.weaken linear.weaken (by grind), start.weaken linear.weaken (by omega)⟩
  · rintro ⟨s, t, r⟩ ⟨s', t', r'⟩ ⟨rest, share, share'⟩
    exact .ok ⟨share.weaken linear.weaken (by grind), share'.weaken linear.weaken (by grind)⟩

/-- What an operation of two arguments passes back. -/
theorem BinaryOp.pullback_both (linear : Linear C P) (op : BinaryOp) (positive : 0 < n)
    (left : Related n C (· = 0 ∧ f) a a') (right : Related n C (· = 0 ∧ g) b b')
    (own : Related n C (· = 0) z z') (given : Related n P (fun _ => False) pz pz') :
    Both (Each (Related n P fun _ => op.FillsLeft g) (Related n P fun _ => op.FillsRight f))
      (op.pullback a b z pz (zeros n) (zeros n))
      (op.pullback a' b' z' pz' (zeros n) (zeros n)) := by
  cases op with
  | add => exact add_both linear positive left given
  | sub => exact sub_both linear positive left given
  | mul => exact mul_both linear positive left right given
  | div => exact div_both linear positive left right own given

end Binary

end TaylorTape
