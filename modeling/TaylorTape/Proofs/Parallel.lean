import TaylorTape.Proofs.Table
import TaylorTape.Series.Reverse

/-!
Two runs of one computation, side by side.

The rules of the series look at nothing but elements, so that a relation between values which the
operations on elements keep is kept by every rule.  This is shown here for the rules that extend a
series, between any two bases with the same elements.  The relations are graded: besides what is
related, they can say what else is known of both values.
-/

set_option autoImplicit false
set_option relaxedAutoImplicit false

namespace TaylorTape

section Outcomes

variable {ε α α' β β' σ σ' : Type} {R : α → α' → Prop} {S : β → β' → Prop}

/-- Two computations that both succeed, with outcomes that are related. -/
def Both (R : α → α' → Prop) (x : Except ε α) (x' : Except ε α') : Prop :=
  ∃ a a', x = .ok a ∧ x' = .ok a' ∧ R a a'

namespace Both

theorem ok {a : α} {a' : α'} (related : R a a') : Both (ε := ε) R (.ok a) (.ok a') :=
  ⟨a, a', rfl, rfl, related⟩

theorem bind {x : Except ε α} {x' : Except ε α'} {f : α → Except ε β} {f' : α' → Except ε β'}
    (first : Both R x x') (next : ∀ a a', R a a' → Both S (f a) (f' a')) :
    Both S (x >>= f) (x' >>= f') := by
  obtain ⟨a, a', rfl, rfl, related⟩ := first
  exact next a a' related

theorem mono {R' : α → α' → Prop} {x : Except ε α} {x' : Except ε α'} (both : Both R x x')
    (weaker : ∀ a a', R a a' → R' a a') : Both R' x x' := by
  obtain ⟨a, a', done, done', related⟩ := both
  exact ⟨a, a', done, done', weaker a a' related⟩

theorem mapError {ε' : Type} {x : Except ε α} {x' : Except ε α'} (both : Both R x x')
    (f f' : ε → ε') : Both R (x.mapError f) (x'.mapError f') := by
  obtain ⟨a, a', rfl, rfl, related⟩ := both
  exact ok related

end Both

/-- Pairs whose parts are related. -/
def Each (R : α → α' → Prop) (S : β → β' → Prop) (w : α × β) (w' : α' × β') : Prop :=
  R w.1 w'.1 ∧ S w.2 w'.2

namespace Both

variable {f : σ → Nat → Except ε σ} {f' : σ' → Nat → Except ε σ'} {I : Nat → σ → σ' → Prop}

/-- Folds upwards, of which every step leads from where the invariant holds to where it holds. -/
theorem up {a n : Nat} {s : σ} {s' : σ'}
    (step : ∀ i s s', a ≤ i → i < a + n → I i s s' → Both (I (i + 1)) (f s i) (f' s' i))
    (start : I a s s') :
    Both (I (a + n)) ((List.range' a n).foldlM f s) ((List.range' a n).foldlM f' s') := by
  induction n generalizing a s s' with
  | zero => exact ok start
  | succ n ih =>
    rw [List.range'_succ, List.foldlM_cons, List.foldlM_cons]
    apply (step a s s' (Nat.le_refl a) (by omega) start).bind
    intro t t' held
    have rest := ih (fun i s s' low high => step i s s' (by omega) (by omega)) held
    rwa [Nat.add_right_comm, Nat.add_assoc] at rest

/-- Folds downwards, of which every step leads from where the invariant holds to where it holds. -/
theorem down {a n : Nat} {s : σ} {s' : σ'}
    (step : ∀ i s s', a ≤ i → i < a + n → I (i + 1) s s' → Both (I i) (f s i) (f' s' i))
    (start : I (a + n) s s') :
    Both (I a) ((List.range' a n).reverse.foldlM f s) ((List.range' a n).reverse.foldlM f' s') := by
  induction n generalizing s s' with
  | zero => exact ok start
  | succ n ih =>
    rw [List.range'_concat, List.reverse_append, List.reverse_singleton, List.singleton_append,
      List.foldlM_cons, List.foldlM_cons, Nat.one_mul]
    apply (step (a + n) s s' (by omega) (by omega) start).bind
    intro t t' held
    exact ih (fun i s s' low high => step i s s' low (by omega)) held

end Both

end Outcomes

/-- Three lists of one length, related place by place. -/
inductive AllThree {α β γ : Type} (R : α → β → γ → Prop) : List α → List β → List γ → Prop where
  | nil : AllThree R [] [] []
  | cons {a : α} {b : β} {c : γ} {as : List α} {bs : List β} {cs : List γ} (head : R a b c)
      (tail : AllThree R as bs cs) : AllThree R (a :: as) (b :: bs) (c :: cs)

section Lists

variable {ι α β γ α' β' γ' : Type} {R : α → β → γ → Prop} {S : α' → β' → γ' → Prop}

theorem AllThree.single {a : α} {b : β} {c : γ} (head : R a b c) : AllThree R [a] [b] [c] :=
  .cons head .nil

theorem AllThree.length_eq {as : List α} {bs : List β} {cs : List γ} (all : AllThree R as bs cs) :
    as.length = bs.length ∧ as.length = cs.length := by
  induction all with
  | nil => exact ⟨rfl, rfl⟩
  | cons _ _ ih => exact ⟨congrArg Nat.succ ih.1, congrArg Nat.succ ih.2⟩

theorem AllThree.exists_of_mem {as : List α} {bs : List β} {cs : List γ} (all : AllThree R as bs cs)
    {c : γ} (member : c ∈ cs) : ∃ a ∈ as, ∃ b ∈ bs, R a b c := by
  induction all with
  | nil => cases member
  | cons head _ ih =>
    rcases List.mem_cons.1 member with rfl | later
    · exact ⟨_, List.mem_cons_self, _, List.mem_cons_self, head⟩
    · obtain ⟨a, here, b, there, related⟩ := ih later
      exact ⟨a, List.mem_cons_of_mem _ here, b, List.mem_cons_of_mem _ there, related⟩

theorem allThree_map {xs : List ι} {f : ι → α} {g : ι → β} {h : ι → γ}
    (each : ∀ x ∈ xs, R (f x) (g x) (h x)) : AllThree R (xs.map f) (xs.map g) (xs.map h) := by
  induction xs with
  | nil => exact .nil
  | cons x xs ih =>
    exact .cons (each x List.mem_cons_self)
      (ih fun y member => each y (List.mem_cons_of_mem x member))

theorem AllThree.map {as : List α} {bs : List β} {cs : List γ} (all : AllThree R as bs cs)
    {f : α → α'} {g : β → β'} {h : γ → γ'}
    (each : ∀ a ∈ as, ∀ b ∈ bs, ∀ c, R a b c → S (f a) (g b) (h c)) :
    AllThree S (as.map f) (bs.map g) (cs.map h) := by
  induction all with
  | nil => exact .nil
  | cons head _ ih =>
    exact .cons (each _ List.mem_cons_self _ List.mem_cons_self _ head)
      (ih fun a member b member' =>
        each a (List.mem_cons_of_mem _ member) b (List.mem_cons_of_mem _ member'))

theorem AllThree.of_map {xs : List ι} {f : ι → α} {bs : List β} {cs : List γ}
    (all : AllThree R (xs.map f) bs cs) : AllThree (fun x => R (f x)) xs bs cs := by
  induction xs generalizing bs cs with
  | nil =>
    cases all
    exact .nil
  | cons x xs ih =>
    cases all with
    | cons head tail => exact .cons head (ih tail)

theorem AllThree.mono {R' : α → β → γ → Prop} {as : List α} {bs : List β} {cs : List γ}
    (all : AllThree R as bs cs) (weaker : ∀ a b c, R a b c → R' a b c) : AllThree R' as bs cs := by
  induction all with
  | nil => exact .nil
  | cons head _ ih => exact .cons (weaker _ _ _ head) ih

/-- Lists are related if what they have at each place is. -/
theorem allThree_of_get {as : List α} {bs : List β} {cs : List γ} (count : bs.length = as.length)
    (count' : cs.length = as.length)
    (each : ∀ (j : Nat) a b c, as[j]? = some a → bs[j]? = some b → cs[j]? = some c → R a b c) :
    AllThree R as bs cs := by
  induction as generalizing bs cs with
  | nil =>
    obtain rfl := List.length_eq_zero_iff.1 count
    obtain rfl := List.length_eq_zero_iff.1 count'
    exact .nil
  | cons a as ih =>
    obtain ⟨b, bs, rfl⟩ := List.exists_cons_of_length_eq_add_one count
    obtain ⟨c, cs, rfl⟩ := List.exists_cons_of_length_eq_add_one count'
    exact .cons (each 0 a b c rfl rfl rfl)
      (ih (Nat.succ.inj count) (Nat.succ.inj count') fun j => each (j + 1))

theorem AllThree.get {as : List α} {bs : List β} {cs : List γ} (all : AllThree R as bs cs) {j : Nat}
    {a : α} (found : as[j]? = some a) : ∃ b c, bs[j]? = some b ∧ cs[j]? = some c ∧ R a b c := by
  induction all generalizing j with
  | nil => cases found
  | cons head _ ih =>
    cases j with
    | zero =>
      obtain rfl := Option.some.inj found
      exact ⟨_, _, rfl, rfl, head⟩
    | succ j => exact ih found

theorem AllThree.of_mem {as : List α} {f : α → β} {g : α → γ} (all : AllThree R as (as.map f) (as.map g))
    {a : α} (member : a ∈ as) : R a (f a) (g a) := by
  induction as with
  | nil => cases member
  | cons first as ih =>
    cases all with
    | cons head tail =>
      rcases List.mem_cons.1 member with rfl | later
      · exact head
      · exact ih tail later

end Lists

section Bases

variable {B B' F : Type} [Scalar F] [Base B F] [Base B' F]

/-- A graded relation between coefficients that operations on elements keep: what is known of one
operand is known of the outcome. -/
structure Respected (C : Prop → B → B' → Prop) : Prop where
  weaken : ∀ {p q : Prop} {u : B} {u' : B'}, C p u u' → (q → p) → C q u u'
  zero : C False Base.zero Base.zero
  map : ∀ {p : Prop} {u : B} {u' : B'} (h : F → F), C p u u' → C p (Base.map h u) (Base.map h u')
  zipWith : ∀ {p q : Prop} {u v : B} {u' v' : B'} (context : String) (h : F → F → F), C p u u' →
    C q v v' → Both (C (p ∨ q)) (Base.zipWith context h u v) (Base.zipWith context h u' v')

/-- A graded relation between partials that is kept by what is done with them when they are passed
on, where they are multiplied with coefficients and divided by such. -/
structure Linear (C P : Prop → B → B' → Prop) : Prop where
  weaken : ∀ {p q : Prop} {u : B} {u' : B'}, P p u u' → (q → p) → P q u u'
  zero : P False Base.zero Base.zero
  negate : ∀ {p : Prop} {u : B} {u' : B'}, P p u u' → P p (Base.negate u) (Base.negate u')
  scale : ∀ {p : Prop} {u : B} {u' : B'} (x : F), P p u u' → P p (Base.scale u x) (Base.scale u' x)
  add : ∀ {p q : Prop} {u v : B} {u' v' : B'}, P p u u' → P q v v' →
    Both (P (p ∨ q)) (Base.add u v) (Base.add u' v')
  sub : ∀ {p q : Prop} {u v : B} {u' v' : B'}, P p u u' → P q v v' →
    Both (P (p ∨ q)) (Base.sub u v) (Base.sub u' v')
  mul : ∀ {p q : Prop} {u v : B} {u' v' : B'}, P p u u' → C q v v' →
    Both (P (p ∨ q)) (Base.mul u v) (Base.mul u' v')
  /-- The factors the other way round. -/
  mul' : ∀ {p q : Prop} {u v : B} {u' v' : B'}, C q u u' → P p v v' →
    Both (P (q ∨ p)) (Base.mul u v) (Base.mul u' v')
  div : ∀ {p q : Prop} {u v : B} {u' v' : B'}, P p u u' → C q v v' →
    Both (P (p ∨ q)) (Base.div u v) (Base.div u' v')

theorem Respected.linear {C : Prop → B → B' → Prop} (respected : Respected C) : Linear C C where
  weaken := respected.weaken
  zero := respected.zero
  negate := respected.map _
  scale _ := respected.map _
  add := respected.zipWith _ _
  sub := respected.zipWith _ _
  mul := respected.zipWith _ _
  mul' := respected.zipWith _ _
  div := respected.zipWith _ _

private theorem Linear.lower {C P : Prop → B → B' → Prop} (linear : Linear C P) {p q : Prop}
    {x : Except Error B} {x' : Except Error B'} (both : Both (P p) x x') (less : q → p) :
    Both (P q) x x' :=
  both.mono fun _ _ related => linear.weaken related less

/-- Series of one length whose coefficients are related, each with the grade of its order. -/
structure Series.Related (n : Nat) (P : Prop → B → B' → Prop) (grade : Nat → Prop) (s : Series B)
    (s' : Series B') : Prop where
  size : s.size = n
  size' : s'.size = n
  each : ∀ k c c', s[k]? = some c → s'[k]? = some c' → P (grade k) c c'

namespace Series

variable {C P : Prop → B → B' → Prop} {n : Nat} {grade grade' : Nat → Prop} {s : Series B}
  {s' : Series B'}

theorem Related.weaken (related : Related n P grade s s')
    (weaken : ∀ {p q : Prop} {u : B} {u' : B'}, P p u u' → (q → p) → P q u u')
    (less : ∀ k < n, grade' k → grade k) : Related n P grade' s s' := by
  refine ⟨related.size, related.size', fun k c c' here here' => ?_⟩
  have below : k < n := related.size ▸ (Array.getElem?_eq_some_iff.1 here).1
  exact weaken (related.each k c c' here here') (less k below)

theorem Related.coeff (related : Related n P grade s s') {k : Nat} (below : k < n) :
    Both (P (grade k)) (s.coeff k) (s'.coeff k) := by
  have inside : k < s.size := related.size ▸ below
  have inside' : k < s'.size := related.size' ▸ below
  have here : s[k]? = some s[k] := Array.getElem?_eq_getElem inside
  have here' : s'[k]? = some s'[k] := Array.getElem?_eq_getElem inside'
  exact ⟨_, _, fetch_eq_ok_iff.2 here, fetch_eq_ok_iff.2 here', related.each k _ _ here here'⟩

theorem related_of {a : Nat → B} {a' : Nat → B'} (each : ∀ k < n, P (grade k) (a k) (a' k)) :
    Related n P grade (.of a n) (.of a' n) := by
  refine ⟨size_of a n, size_of a' n, fun k c c' here here' => ?_⟩
  rw [getElem?_of] at here here'
  by_cases below : k < n
  · rw [if_pos below] at here here'
    obtain rfl := Option.some.inj here
    obtain rfl := Option.some.inj here'
    exact each k below
  · rw [if_neg below] at here
    cases here

/-- Related series are made of related coefficients. -/
theorem Related.exists_of (related : Related n P grade s s') (c : B) (c' : B') :
    ∃ a a', s = .of a n ∧ s' = .of a' n ∧ ∀ k < n, P (grade k) (a k) (a' k) := by
  refine ⟨_, _, eq_of_size related.size c, eq_of_size related.size' c',
    fun k below => ?_⟩
  have here : k < s.size := related.size ▸ below
  have here' : k < s'.size := related.size' ▸ below
  have there : s[k]? = some s[k] := Array.getElem?_eq_getElem here
  have there' : s'[k]? = some s'[k] := Array.getElem?_eq_getElem here'
  rw [there, there']
  exact related.each k _ _ there there'

private theorem related_empty : Related 0 P grade #[] #[] :=
  ⟨rfl, rfl, fun k c c' here _ => by simp at here⟩

private theorem Related.push (related : Related n P grade s s') {c : B} {c' : B'}
    (last : P (grade n) c c') : Related (n + 1) P grade (s.push c) (s'.push c') := by
  refine ⟨by simp [related.size], by simp [related.size'], fun k d d' here here' => ?_⟩
  rw [Array.getElem?_push] at here here'
  rw [related.size] at here
  rw [related.size'] at here'
  by_cases same : k = n
  · subst same
    rw [if_pos rfl] at here here'
    obtain rfl := Option.some.inj here
    obtain rfl := Option.some.inj here'
    exact last
  · rw [if_neg same] at here here'
    exact related.each k d d' here here'

/-- Both series of the sine and the cosine. -/
theorem sinCos_both (respected : Respected C) {m : Nat} (args : Related n C grade s s')
    (room : m < n) :
    Both (Each (Related (m + 1) C fun k => k = 0 ∧ grade 0)
      (Related (m + 1) C fun k => k = 0 ∧ grade 0)) (s.sinCos m) (s'.sinCos m) := by
  have linear := respected.linear
  unfold sinCos
  apply (args.coeff (Nat.zero_lt_of_lt room)).bind
  intro x x' first
  rw [Nat.add_comm m 1]
  apply Both.up (I := fun i => Each (Related i C fun k => k = 0 ∧ grade 0)
    (Related i C fun k => k = 0 ∧ grade 0))
  · rintro k ⟨sine, cosine⟩ ⟨sine', cosine'⟩ low high ⟨sines, cosines⟩
    apply Both.bind (R := Each (C False) (C False))
    · apply Both.up (I := fun _ => Each (C False) (C False))
      · rintro j ⟨x, y⟩ ⟨x', y'⟩ start stop ⟨sum, sum'⟩
        apply (args.coeff (show j < n by omega)).bind
        intro u u' arg
        have weighted := linear.scale (Scalar.ratio j k) arg
        apply (cosines.coeff (show k - j < k by omega)).bind
        intro c c' known
        apply (linear.mul weighted known).bind
        intro v v' product
        apply (linear.add sum product).bind
        intro t t' next
        apply (sines.coeff (show k - j < k by omega)).bind
        intro d d' known'
        apply (linear.mul weighted known').bind
        intro w w' product'
        apply (linear.sub sum' product').bind
        intro r r' next'
        exact .ok ⟨linear.weaken next False.elim, linear.weaken next' False.elim⟩
      · exact ⟨linear.zero, linear.zero⟩
    · intro next next' both
      have later : k = 0 ∧ grade 0 → False := fun positive => absurd positive.1 (by omega)
      exact .ok ⟨sines.push (linear.weaken both.1 later), cosines.push (linear.weaken both.2 later)⟩
  · have zeroth : C (0 = 0 ∧ grade 0) x x' := linear.weaken first And.right
    exact ⟨related_empty.push (respected.map _ zeroth), related_empty.push (respected.map _ zeroth)⟩

end Series

open Series

variable {C : Prop → B → B' → Prop}

/-- The coefficient that follows the known ones of an operation of one argument. -/
theorem UnaryOp.next_both (respected : Respected C) (op : UnaryOp) {a z : Series B}
    {a' z' : Series B'} {k : Nat} (args : Related (k + 1) C (fun _ => False) a a')
    (own : Related k C (fun _ => False) z z') : Both (C False) (op.next a z) (op.next a' z') := by
  have linear := respected.linear
  have first := args.coeff (Nat.succ_pos k)
  have last := args.coeff (Nat.lt_succ_self k)
  unfold UnaryOp.next
  rw [own.size, own.size']
  by_cases zero : k = 0
  · rw [if_pos zero, if_pos zero]
    apply first.bind
    intro x x' related
    exact .ok (respected.map _ related)
  · rw [if_neg zero, if_neg zero]
    unfold UnaryOp.recurrence
    cases op with
    | neg =>
      apply last.bind
      intro x x' related
      exact .ok (linear.negate related)
    | abs =>
      apply first.bind
      intro x x' related
      apply last.bind
      intro y y' related'
      exact linear.lower (linear.mul (respected.map Scalar.sign related) related') False.elim
    | exp =>
      apply Both.up (I := fun _ => C False)
      · intro j s s' start stop sum
        apply (args.coeff (show j < k + 1 by omega)).bind
        intro x x' arg
        apply (own.coeff (show k - j < k by omega)).bind
        intro y y' known
        apply (linear.mul arg known).bind
        intro v v' product
        have term := linear.scale (Scalar.ratio j k) product
        exact linear.lower (linear.add sum term) False.elim
      · exact linear.zero
    | ln =>
      apply last.bind
      intro x x' start
      apply Both.bind (R := C False)
      · apply Both.up (I := fun _ => C False)
        · intro j s s' low high sum
          apply (own.coeff (show j < k by omega)).bind
          intro y y' known
          apply (args.coeff (show k - j < k + 1 by omega)).bind
          intro u u' arg
          apply (linear.mul known arg).bind
          intro v v' product
          have term := linear.scale (Scalar.ratio j k) product
          exact linear.lower (linear.sub sum term) False.elim
        · exact start
      · intro s s' sum
        apply first.bind
        intro y y' divisor
        exact linear.lower (linear.div sum divisor) False.elim
    | sqrt =>
      apply last.bind
      intro x x' start
      apply Both.bind (R := C False)
      · apply Both.up (I := fun _ => C False)
        · intro j s s' low high sum
          apply (own.coeff (show j < k by omega)).bind
          intro y y' known
          apply (own.coeff (show k - j < k by omega)).bind
          intro u u' known'
          apply (linear.mul known known').bind
          intro v v' product
          exact linear.lower (linear.sub sum product) False.elim
        · exact start
      · intro s s' sum
        apply (own.coeff (Nat.pos_of_ne_zero zero)).bind
        intro y y' root
        exact linear.lower (linear.div sum (linear.scale (Scalar.ratio 2 1) root)) False.elim
    | sin =>
      apply (sinCos_both respected args (Nat.lt_succ_self k)).bind
      intro w w' both
      exact linear.lower (both.1.coeff (Nat.lt_succ_self k)) False.elim
    | cos =>
      apply (sinCos_both respected args (Nat.lt_succ_self k)).bind
      intro w w' both
      exact linear.lower (both.2.coeff (Nat.lt_succ_self k)) False.elim

private theorem BinaryOp.eval_both (respected : Respected C) (op : BinaryOp) {p q : Prop} {u v : B}
    {u' v' : B'} (left : C p u u') (right : C q v v') :
    Both (C (p ∨ q)) (op.eval u v) (op.eval u' v') := by
  cases op with
  | add | sub | mul | div => exact respected.zipWith _ _ left right

/-- The coefficient that follows the known ones of an operation of two arguments. -/
theorem BinaryOp.next_both (respected : Respected C) (op : BinaryOp) {a b z : Series B}
    {a' b' z' : Series B'} {k : Nat} (left : Related (k + 1) C (fun _ => False) a a')
    (right : Related (k + 1) C (fun _ => False) b b')
    (own : Related k C (fun _ => False) z z') : Both (C False) (op.next a b z) (op.next a' b' z') := by
  have linear := respected.linear
  have first := left.coeff (Nat.succ_pos k)
  have first' := right.coeff (Nat.succ_pos k)
  have last := left.coeff (Nat.lt_succ_self k)
  have last' := right.coeff (Nat.lt_succ_self k)
  unfold BinaryOp.next
  rw [own.size, own.size']
  by_cases zero : k = 0
  · rw [if_pos zero, if_pos zero]
    apply first.bind
    intro x x' related
    apply first'.bind
    intro y y' related'
    exact linear.lower (op.eval_both respected related related') False.elim
  · rw [if_neg zero, if_neg zero]
    unfold BinaryOp.recurrence
    cases op with
    | add =>
      apply last.bind
      intro x x' related
      apply last'.bind
      intro y y' related'
      exact linear.lower (linear.add related related') False.elim
    | sub =>
      apply last.bind
      intro x x' related
      apply last'.bind
      intro y y' related'
      exact linear.lower (linear.sub related related') False.elim
    | mul =>
      rw [List.range_eq_range']
      apply Both.up (I := fun _ => C False)
      · intro j s s' low high sum
        apply (left.coeff (show j < k + 1 by omega)).bind
        intro x x' factor
        apply (right.coeff (show k - j < k + 1 by omega)).bind
        intro y y' factor'
        apply (linear.mul factor factor').bind
        intro v v' product
        exact linear.lower (linear.add sum product) False.elim
      · exact linear.zero
    | div =>
      apply last.bind
      intro x x' start
      apply Both.bind (R := C False)
      · apply Both.up (I := fun _ => C False)
        · intro j s s' low high sum
          apply (right.coeff (show j < k + 1 by omega)).bind
          intro y y' factor
          apply (own.coeff (show k - j < k by omega)).bind
          intro u u' known
          apply (linear.mul factor known).bind
          intro v v' product
          exact linear.lower (linear.sub sum product) False.elim
        · exact start
      · intro s s' sum
        apply first'.bind
        intro y y' divisor
        exact linear.lower (linear.div sum divisor) False.elim

end Bases

end TaylorTape
