import TaylorTape.Proofs.Arrays
import TaylorTape.Proofs.Shares

/-!
Partials that stand for the same on a shape.

On a shape two values stand for the same if they have the same elements there, whether they write
them out or give one scalar for all.  The difference shows only when a value is collapsed onto a
scalar: an array gives the sum of its elements, and a scalar gives itself.  A value that has the
shape, or is zero, is counted: it collapses to the sum of what it stands for.  Whatever the rules of
the series do keeps what values stand for, and where the partials are counted, these stay counted.
-/

set_option autoImplicit false
set_option relaxedAutoImplicit false

namespace TaylorTape

namespace Value

variable {F : Type} [ExactScalar F] {s t u u' v v' w : Value F}

/-- A value that collapses to the sum of what it stands for on a shape. -/
def Counted (s u : Value F) : Prop :=
  u.SameShape s ∨ u = .scalar 0

/-- Two values that stand for the same on a shape.  It may be known of both that they are counted,
that they stand for zeros, and that they have the shape. -/
structure Carried (s : Value F) (counted still full : Prop) (u u' : Value F) : Prop where
  left : u.Fits s
  right : u'.Fits s
  same : ∀ e < s.length, u.component e = u'.component e
  counted : counted → s.Counted u ∧ s.Counted u'
  still : still → ∀ e < s.length, u.component e = 0
  full : full → u.SameShape s ∧ u'.SameShape s

section Elements

variable {p q : Prop} {h : F → F → F} {context : String}

private theorem Counted.of_zipWith (left : u.Fits s) (right : v.Fits s) (counted : p → s.Counted u)
    (counted' : q → s.Counted v) (zero : ∀ x y, (p → x = 0) → (q → y = 0) → h x y = 0)
    (done : Value.zipWith context h u v = .ok w) : s.Counted w := by
  obtain ⟨w', done', fits, shape, _⟩ := zipWith_fits context h left right
  obtain rfl := Except.ok.inj (done.symm.trans done')
  cases s with
  | scalar z =>
    obtain ⟨x, rfl⟩ := fits.exists_scalar
    exact .inl (.scalar x z)
  | array zs =>
    cases left with
    | array same => exact .inl (shape (.inl (.array same)))
    | scalar x =>
      cases right with
      | array same => exact .inl (shape (.inr (.array same)))
      | scalar y =>
        obtain rfl := Except.ok.inj done
        have nothing : ∀ {r : Prop} {x : F}, (r → (array zs).Counted (.scalar x)) → r → x = 0 := by
          intro r x counts known
          rcases counts known with shape | zero
          · cases shape
          · exact scalar.inj zero
        exact .inr (congrArg scalar (zero x y (nothing counted) (nothing counted')))

variable {counted counted' still still' full full' : Prop}

private theorem Carried.zipWith (left : s.Carried counted still full u u')
    (right : s.Carried counted' still' full' v v') (context : String)
    (zero : p → ∀ x y, (counted → x = 0) → (counted' → y = 0) → h x y = 0)
    (zero' : q → ∀ x y, (still → x = 0) → (still' → y = 0) → h x y = 0) :
    Both (s.Carried p q (full ∨ full')) (Value.zipWith context h u v)
      (Value.zipWith context h u' v') := by
  obtain ⟨w, done, fits, shape, parts⟩ := zipWith_fits context h left.left right.left
  obtain ⟨w', done', fits', shape', parts'⟩ := zipWith_fits context h left.right right.right
  refine ⟨w, w', done, done', fits, fits', ?_, ?_, ?_, ?_⟩
  · intro e inside
    rw [parts e inside, parts' e inside, left.same e inside, right.same e inside]
  · intro counts
    exact ⟨.of_zipWith left.left right.left (fun known => (left.counted known).1)
        (fun known => (right.counted known).1) (zero counts) done,
      .of_zipWith left.right right.right (fun known => (left.counted known).2)
        (fun known => (right.counted known).2) (zero counts) done'⟩
  · intro zeros e inside
    rw [parts e inside]
    exact zero' zeros _ _ (fun known => left.still known e inside)
      fun known => right.still known e inside
  · rintro (known | known)
    · exact ⟨shape (.inl (left.full known).1), shape' (.inl (left.full known).2)⟩
    · exact ⟨shape (.inr (right.full known).1), shape' (.inr (right.full known).2)⟩

theorem Carried.map (carried : s.Carried counted still full u u') (h : F → F)
    (zero : p → counted ∧ h 0 = 0) (zero' : q → still ∧ h 0 = 0) :
    s.Carried p q full (u.map h) (u'.map h) := by
  have counts : ∀ {u : Value F}, h 0 = 0 → s.Counted u → s.Counted (u.map h) := by
    rintro u fixed (shape | rfl)
    · exact .inl ((SameShape.map h u).trans shape)
    · exact .inr (congrArg scalar fixed)
  refine ⟨carried.left.map h, carried.right.map h, ?_, ?_, ?_, ?_⟩
  · intro e inside
    rw [component_map h carried.left inside, component_map h carried.right inside,
      carried.same e inside]
  · intro known
    obtain ⟨given, fixed⟩ := zero known
    exact ⟨counts fixed (carried.counted given).1, counts fixed (carried.counted given).2⟩
  · intro known e inside
    obtain ⟨given, fixed⟩ := zero' known
    rw [component_map h carried.left inside, carried.still given e inside, fixed]
  · intro known
    exact ⟨(SameShape.map h u).trans (carried.full known).1,
      (SameShape.map h u').trans (carried.full known).2⟩

theorem Carried.imp (carried : s.Carried counted still full u u') (counts : counted' → counted)
    (zeros : still' → still) (fills : full' → full) : s.Carried counted' still' full' u u' :=
  { carried with
    counted := fun known => carried.counted (counts known)
    still := fun known => carried.still (zeros known)
    full := fun known => carried.full (fills known) }

theorem respected (s : Value F) : Respected (s.Carried False False) where
  weaken carried less := carried.imp id id less
  zero := ⟨.scalar 0 s, .scalar 0 s, fun _ _ => rfl, False.elim, False.elim, False.elim⟩
  map h carried := carried.map h False.elim False.elim
  zipWith context _ left right := left.zipWith right context False.elim False.elim

/-- What is done with partials keeps what they stand for, that they are counted and that they stand
for zeros. -/
theorem linear (s : Value F) (counted still : Prop) :
    Linear (s.Carried False False) (s.Carried counted still) where
  weaken carried less := carried.imp id id less
  zero := ⟨.scalar 0 s, .scalar 0 s, fun _ _ => rfl, fun _ => ⟨.inr rfl, .inr rfl⟩, fun _ _ _ => rfl,
    False.elim⟩
  negate carried := carried.map _ (fun known => ⟨known, neg_zero⟩) fun known => ⟨known, neg_zero⟩
  scale x carried :=
    carried.map (· * x) (fun known => ⟨known, zero_mul x⟩) fun known => ⟨known, zero_mul x⟩
  add left right := left.zipWith right "add"
    (fun known x y first second => by rw [first known, second known, add_zero])
    fun known x y first second => by rw [first known, second known, add_zero]
  sub left right := left.zipWith right "sub"
    (fun known x y first second => by rw [first known, second known, sub_zero])
    fun known x y first second => by rw [first known, second known, sub_zero]
  mul left right := left.zipWith right "mul"
    (fun known x y first _ => by rw [first known, zero_mul])
    fun known x y first _ => by rw [first known, zero_mul]
  mul' left right := left.zipWith right "mul"
    (fun known x y _ second => by rw [second known, mul_zero])
    fun known x y _ second => by rw [second known, mul_zero]
  div left right := left.zipWith right "div"
    (fun known x y first _ => by rw [first known, zero_div])
    fun known x y first _ => by rw [first known, zero_div]

end Elements

section Shapes

variable {p counted still full : Prop}

theorem carried_of_fits (fits : u.Fits s) : s.Carried False False False u u :=
  ⟨fits, fits, fun _ _ => rfl, False.elim, False.elim, False.elim⟩

theorem carried_of_sameShape (shape : u.SameShape s)
    (zeros : still → ∀ e < s.length, u.component e = 0) : s.Carried counted still full u u :=
  ⟨shape.fits, shape.fits, fun _ _ => rfl, fun _ => ⟨.inl shape, .inl shape⟩, zeros,
    fun _ => ⟨shape, shape⟩⟩

theorem Carried.symm (carried : s.Carried counted still full u u') :
    s.Carried counted still full u' u :=
  ⟨carried.right, carried.left, fun e inside => (carried.same e inside).symm,
    fun known => (carried.counted known).symm,
    fun known e inside => (carried.same e inside).symm.trans (carried.still known e inside),
    fun known => (carried.full known).symm⟩

theorem Carried.second (carried : s.Carried counted still full u u') :
    s.Carried counted still full u' u' :=
  ⟨carried.right, carried.right, fun _ _ => rfl,
    fun known => ⟨(carried.counted known).2, (carried.counted known).2⟩,
    fun known e inside => (carried.same e inside).symm.trans (carried.still known e inside),
    fun known => ⟨(carried.full known).2, (carried.full known).2⟩⟩

private theorem Counted.reduceLike (counted : s.Counted u) (y : F) :
    u.reduceLike (.scalar y) = .scalar (∑ e ∈ Finset.range s.length, u.component e) := by
  rcases counted with shape | rfl
  · rw [← sum_eq shape]
    cases u with
    | scalar x => rfl
    | array xs => rfl
  · exact congrArg scalar (Finset.sum_eq_zero fun _ _ => rfl).symm

theorem carried_scalar {x : F} (y : F) (zero : still → x = 0) :
    (scalar y).Carried p still full (.scalar x) (.scalar x) :=
  carried_of_sameShape (.scalar x y) fun known _ _ => zero known

/-- Collapsed onto the shape of an operand, values stand for the same, provided that they are counted
where a scalar has been spread. -/
theorem Carried.reduceLike (carried : s.Carried counted still full u u') (fits : t.Fits s)
    (spread : ¬ t.SameShape s → counted ∨ full) (ready : p → counted ∨ full) :
    t.Carried p still False (u.reduceLike t) (u'.reduceLike t) := by
  have counts : counted ∨ full → s.Counted u ∧ s.Counted u' := by
    rintro (known | known)
    · exact carried.counted known
    · exact ⟨.inl (carried.full known).1, .inl (carried.full known).2⟩
  by_cases shape : t.SameShape s
  · have left := carried.left.trans shape.symm.fits
    have right := carried.right.trans shape.symm.fits
    have across : ∀ {u : Value F}, s.Counted u → t.Counted u := by
      rintro u (same | zero)
      · exact .inl (same.trans shape.symm)
      · exact .inr zero
    rw [reduceLike_fits left, reduceLike_fits right]
    refine ⟨left, right, fun e inside => carried.same e (shape.length_eq ▸ inside), fun known => ?_,
      fun known e inside => carried.still known e (shape.length_eq ▸ inside), False.elim⟩
    exact ⟨across (counts (ready known)).1, across (counts (ready known)).2⟩
  · obtain ⟨left, right⟩ := counts (spread shape)
    cases fits with
    | array same => exact absurd (.array same) shape
    | scalar y =>
      have equal : ∑ e ∈ Finset.range s.length, u.component e =
          ∑ e ∈ Finset.range s.length, u'.component e :=
        Finset.sum_congr rfl fun e member => carried.same e (Finset.mem_range.1 member)
      rw [left.reduceLike, right.reduceLike, ← equal]
      exact carried_scalar y fun known =>
        Finset.sum_eq_zero fun e member => carried.still known e (Finset.mem_range.1 member)

theorem Carried.add_still (carried : s.Carried counted False False u u')
    (zeros : s.Carried counted True False v v) :
    ∃ w, Base.add u' v = .ok w ∧ s.Carried counted False False u w := by
  obtain ⟨_, w, _, done, sum⟩ := (linear s counted False).add carried.second
    (zeros.imp id False.elim id)
  obtain ⟨w', done', fits, _, parts⟩ := zipWith_fits "add" (· + ·) carried.right zeros.left
  obtain rfl : w = w' := Except.ok.inj (done.symm.trans done')
  refine ⟨w, done, carried.left, fits, fun e inside => ?_, fun known => ?_, False.elim, False.elim⟩
  · rw [parts e inside, zeros.still trivial e inside, add_zero, carried.same e inside]
  · exact ⟨(carried.counted known).1, (sum.counted known).2⟩

/-- Given the shape that they stand on, values that stand for the same are equal. -/
theorem Carried.exists_broadcast (carried : s.Carried counted still full u u') :
    ∃ w, Base.broadcastLike u s = .ok w ∧ Base.broadcastLike u' s = .ok w := by
  obtain ⟨w, done, shape, parts⟩ := broadcastLike_fits carried.left
  obtain ⟨w', done', shape', parts'⟩ := broadcastLike_fits carried.right
  have same : w = w' := eq_of_component shape shape' fun e inside => by
    rw [parts e inside, parts' e inside, carried.same e inside]
  exact ⟨w, done, same ▸ done'⟩

/-- Values that stand for the same on a shape also do where that shape is spread. -/
theorem Carried.spread (carried : s.Carried False False False u u') (fits : s.Fits t) :
    t.Carried False False False u u' := by
  refine ⟨carried.left.trans fits, carried.right.trans fits, fun e inside => ?_, False.elim,
    False.elim, False.elim⟩
  cases fits with
  | array same => exact carried.same e (inside.trans_eq same.symm)
  | scalar y =>
    obtain ⟨x, rfl⟩ := carried.left.exists_scalar
    obtain ⟨x', rfl⟩ := carried.right.exists_scalar
    exact carried.same 0 Nat.one_pos

theorem fits_of_carried {ss us us' : List (Value F)}
    (all : AllThree (·.Carried counted still full) ss us us') : List.Forall₂ Fits us ss := by
  induction all with
  | nil => exact .nil
  | cons head _ ih => exact .cons head.left ih

theorem all_carried_of_fits {ss us : List (Value F)} (fits : List.Forall₂ Fits us ss) :
    AllThree (·.Carried False False False) ss us us := by
  induction fits with
  | nil => exact .nil
  | cons head _ ih => exact .cons (carried_of_fits head) ih

end Shapes

end Value

end TaylorTape
