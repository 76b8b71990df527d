import TaylorTape.Proofs.Carried

/-!
What the built-in atomics pass back in two runs, side by side.

A built-in treats the orders one by one, so that one order is enough to look at.  All but the
reversal bring the partials of a result to its shape first, or multiply a scalar by the number of
elements, so that what they pass back depends on nothing but what the partials stand for.  The
reversal leaves a scalar as it is.
-/

set_option autoImplicit false
set_option relaxedAutoImplicit false

namespace TaylorTape

namespace Value

variable {F : Type} [ExactScalar F] {s u u' : Value F} {counted still full : Prop}

private theorem Carried.elements_eq (carried : s.Carried counted still full u u') :
    u.elements s.length = u'.elements s.length := by
  have left := length_elements carried.left
  have right := length_elements carried.right
  apply List.ext_getElem (left.trans right.symm)
  intro e low high
  have inside := low.trans_eq left
  have same := carried.same e inside
  rwa [← component_elements carried.left inside, ← component_elements carried.right inside,
    component_array low, component_array high] at same

private theorem Carried.expand_eq (carried : s.Carried counted still full u u') (context : String) :
    Base.expand context u (Base.length s) = Base.expand context u' (Base.length s) :=
  (Value.expand_eq context carried.left).trans
    (carried.elements_eq ▸ (Value.expand_eq context carried.right).symm)

private theorem Carried.elements_still (carried : s.Carried counted still full u u')
    (known : still) :
    ∀ z ∈ u.elements s.length, z = 0 := by
  intro z member
  obtain ⟨e, low, rfl⟩ := List.getElem_of_mem member
  have inside := low.trans_eq (length_elements carried.left)
  rw [← component_array low, component_elements carried.left inside]
  exact carried.still known e inside

private theorem carried_shapedLike {elems : List F} (count : elems.length = s.length)
    (zeros : still → ∀ z ∈ elems, z = 0) :
    ∃ w, Base.shapedLike elems s = .ok w ∧ s.Carried True still False w w := by
  cases s with
  | scalar y =>
    obtain ⟨x, rfl⟩ := List.length_eq_one_iff.1 count
    refine ⟨_, rfl, carried_scalar y fun known => ?_⟩
    rw [total_eq, List.sum_singleton]
    exact zeros known x (List.mem_singleton_self x)
  | array ys =>
    have shape : (array elems).SameShape (array ys) := .array count
    refine ⟨_, rfl, carried_of_sameShape shape fun known e inside => ?_⟩
    have room : e < elems.length := inside.trans_eq count.symm
    rw [component_array room]
    exact zeros known _ (List.getElem_mem room)

private theorem Carried.scalar_eq {y : F} (carried : (scalar y).Carried counted still full u u') :
    ∃ x, u = .scalar x ∧ u' = .scalar x ∧ (still → x = 0) := by
  obtain ⟨x, rfl⟩ := carried.left.exists_scalar
  obtain ⟨x', rfl⟩ := carried.right.exists_scalar
  have same : x = x' := carried.same 0 Nat.one_pos
  exact ⟨x, rfl, congrArg scalar same.symm, fun known => carried.still known 0 Nat.one_pos⟩

private theorem exists_scalars_of_carried {xs : List F} {us us' : List (Value F)}
    (all : AllThree (·.Carried counted still full) (xs.map scalar) us us') :
    ∃ zs : List F, zs.length = xs.length ∧ (still → ∀ z ∈ zs, z = 0) ∧ us = zs.map scalar ∧
      us' = zs.map scalar := by
  induction xs generalizing us us' with
  | nil =>
    cases all
    exact ⟨[], rfl, nofun, rfl, rfl⟩
  | cons x xs ih =>
    cases all with
    | cons head tail =>
      obtain ⟨zs, count, zeros, rfl, rfl⟩ := ih tail
      obtain ⟨z, rfl, rfl, zero⟩ := head.scalar_eq
      exact ⟨z :: zs, congrArg Nat.succ count,
        fun known => List.forall_mem_cons.2 ⟨zero known, zeros known⟩, rfl, rfl⟩

private theorem carried_scalars {xs zs : List F} (count : zs.length = xs.length)
    (zeros : still → ∀ z ∈ zs, z = 0) :
    AllThree (·.Carried counted still full) (xs.map scalar) (zs.map scalar) (zs.map scalar) := by
  induction xs generalizing zs with
  | nil =>
    obtain rfl := List.length_eq_zero_iff.1 count
    exact .nil
  | cons x xs ih =>
    obtain ⟨z, zs, rfl⟩ := List.exists_cons_of_length_eq_add_one count
    exact .cons (carried_scalar x fun known => zeros known z List.mem_cons_self)
      (ih (Nat.succ.inj count) fun known z member => zeros known z (List.mem_cons_of_mem _ member))

end Value

namespace BuiltIn

open Value

variable {F : Type} [ExactScalar F] {counted still : Prop} {x x' y w w' : Value F}

private theorem flipped_component {s u : Value F} (fits : u.Fits s) :
    ∃ w, Atomic.flipped u = .ok w ∧ w.Fits s ∧ (s.Counted u → s.Counted w) ∧
      ∀ e < s.length, w.component e = u.component (s.length - 1 - e) := by
  cases fits with
  | scalar x s => exact ⟨.scalar x, rfl, .scalar x s, id, fun _ _ => rfl⟩
  | array same =>
    rename_i xs zs
    have count : xs.reverse.length = zs.length := List.length_reverse.trans same
    refine ⟨.array xs.reverse, rfl, .array count, fun _ => .inl (.array count), fun e inside => ?_⟩
    have inside : e < zs.length := inside
    show _ = (array xs).component (zs.length - 1 - e)
    rw [component_array (inside.trans_eq count.symm), component_array (by omega),
      List.getElem_reverse]
    simp only [same]

private theorem flipped_carried {s t u u' : Value F} (shape : s.SameShape t)
    (carried : s.Carried counted still False u u') :
    Both (t.Carried counted still False) (Atomic.flipped u) (Atomic.flipped u') := by
  obtain ⟨w, turned, fits, counts, parts⟩ := flipped_component carried.left
  obtain ⟨w', turned', fits', counts', parts'⟩ := flipped_component carried.right
  have across : ∀ {u : Value F}, s.Counted u → t.Counted u := fun counted =>
    counted.imp_left fun same => same.trans shape
  have length := shape.length_eq
  refine ⟨w, w', turned, turned', fits.trans shape.fits, fits'.trans shape.fits, ?_, ?_, ?_,
    False.elim⟩
  · intro e inside
    rw [← length] at inside
    rw [parts e inside, parts' e inside, carried.same _ (by omega)]
  · intro known
    exact ⟨across (counts (carried.counted known).1), across (counts' (carried.counted known).2)⟩
  · intro known e inside
    rw [← length] at inside
    rw [parts e inside, carried.still known _ (by omega)]

private theorem sameShape_of_flip (done : flip.step [x] [x] = .ok [y]) : y.SameShape x := by
  obtain ⟨_, _, v, ⟨⟩, ⟨⟩, flipped, ⟨⟩⟩ := step_flip_eq_ok.1 done
  obtain ⟨_, flipped', shape, _⟩ := flipped_spec x
  obtain rfl := Except.ok.inj (flipped.symm.trans flipped')
  exact shape

section Forward

variable {x0 y0 us us' : List (Value F)} {full : Prop}

private theorem step_congr {b : BuiltIn} (other : b ≠ .flip) (done : b.step x0 x0 = .ok y0)
    (given : AllThree (·.Carried counted still full) x0 us us') :
    b.step x0 us = b.step x0 us' := by
  cases b with
  | flip => exact absurd rfl other
  | sum =>
    rcases given with _ | ⟨head, _ | ⟨_, _⟩⟩
    · rfl
    · obtain ⟨v, spread, spread'⟩ := head.exists_broadcast
      simp only [step, spread, spread']
    · rfl
  | concat =>
    rcases given with _ | ⟨head, _ | ⟨head', _ | ⟨_, _⟩⟩⟩
    · rfl
    · rfl
    · simp only [step, head.expand_eq, head'.expand_eq]
    · rfl
  | pack =>
    obtain ⟨xs, read, _⟩ := bind_eq_ok.1 done
    obtain rfl : x0 = xs.map scalar := mapM_scalarElem_eq_ok.1 read
    obtain ⟨zs, _, _, rfl, rfl⟩ := exists_scalars_of_carried given
    rfl
  | make n =>
    rcases given with _ | ⟨head, _ | ⟨_, _⟩⟩
    · rfl
    · obtain ⟨z, read, _⟩ := bind_eq_ok.1 done
      obtain rfl := scalarElem_eq_ok.1 read
      obtain ⟨x, rfl, rfl, _⟩ := head.scalar_eq
      rfl
    · rfl
  | unpack n =>
    rcases given with _ | @⟨x, _, _, _, _, _, head, _ | ⟨_, _⟩⟩
    · rfl
    · by_cases count : Base.length x = n
      · subst count
        simp only [step, head.expand_eq]
      · simp only [step, if_neg count]
    · rfl

/-- From arguments that stand for the same a built-in gives results that do. -/
theorem step_carried (b : BuiltIn) (done : b.step x0 x0 = .ok y0)
    (given : AllThree (·.Carried False False False) x0 us us') :
    Both (AllThree (·.Carried False False False) y0) (b.step x0 us) (b.step x0 us') := by
  by_cases turns : b = .flip
  · subst turns
    match x0, done, given with
    | [x], done, .cons head .nil =>
      obtain ⟨y, turned, last⟩ := bind_eq_ok.1 done
      obtain rfl : [y] = y0 := pure_eq_ok.1 last
      obtain ⟨w, w', done, done', carried⟩ := flipped_carried (sameShape_of_flip done).symm head
      exact ⟨[w], [w'], step_flip_eq_ok.2 ⟨x, _, w, rfl, rfl, done, rfl⟩,
        step_flip_eq_ok.2 ⟨x, _, w', rfl, rfl, done', rfl⟩, .single carried⟩
  · obtain ⟨ws, stepped, fits, _⟩ := b.transposes done us (fits_of_carried given)
    exact ⟨ws, ws, stepped, (step_congr turns done given).symm.trans stepped,
      all_carried_of_fits fits⟩

end Forward

/-- The partials of the results of a call, and of its arguments, at one order of two runs. -/
def Returns (b : BuiltIn) (counted still : Prop) (x0 ws ws' : List (Value F)) : Prop :=
  Both (AllThree (·.Carried counted still False) x0) (b.back x0 ws) (b.back x0 ws')

private theorem returns_sum (done : sum.step [x] [x] = .ok [y])
    (given : y.Carried counted still False w w') : sum.Returns True still [x] [w] [w'] := by
  obtain ⟨v, _, last⟩ := bind_eq_ok.1 done
  obtain rfl : .scalar v.sum = y := List.singleton_inj.1 (pure_eq_ok.1 last)
  obtain ⟨z, rfl, rfl, zero⟩ := given.scalar_eq
  obtain ⟨p, spread, shape, parts⟩ := broadcastLike_fits (Fits.scalar z x)
  have back : sum.back [x] [.scalar z] = .ok [p] :=
    bind_eq_ok.2 ⟨z, rfl, bind_eq_ok.2 ⟨p, spread, rfl⟩⟩
  refine ⟨[p], [p], back, back, .single (carried_of_sameShape shape fun known e inside => ?_)⟩
  rw [parts e inside]
  exact zero known

private theorem returns_concat (done : concat.step [x, x'] [x, x'] = .ok [y])
    (given : y.Carried counted still False w w') : concat.Returns True still [x, x'] [w] [w'] := by
  obtain ⟨head, start, done⟩ := bind_eq_ok.1 done
  obtain ⟨tail, stop, done⟩ := bind_eq_ok.1 done
  obtain ⟨joined, join, done⟩ := bind_eq_ok.1 done
  obtain rfl : joined = y := List.singleton_inj.1 (pure_eq_ok.1 done)
  obtain rfl : .array (head ++ tail) = joined := Except.ok.inj join
  have first : head.length = x.length := length_expand start
  have second : tail.length = x'.length := length_expand stop
  have total : (array (head ++ tail)).length = x.length + x'.length := by
    show (head ++ tail).length = _
    rw [List.length_append, first, second]
  have count := length_elements given.left
  have left := expand_eq "concat adjoint" given.left
  have right := expand_eq "concat adjoint" given.right
  have zeros := given.elements_still
  rw [← given.elements_eq] at right
  rw [total] at count left right zeros
  set es := w.elements (x.length + x'.length)
  have first : (es.take x.length).length = x.length := by
    rw [List.length_take, count]
    omega
  have second : (es.drop x.length).length = x'.length := by
    rw [List.length_drop, count]
    omega
  obtain ⟨p, shaped, carried⟩ := carried_shapedLike first
    fun known z member => zeros known z (List.mem_of_mem_take member)
  obtain ⟨p', shaped', carried'⟩ := carried_shapedLike second
    fun known z member => zeros known z (List.mem_of_mem_drop member)
  have back : ∀ u : Value F, Base.expand "concat adjoint" u (x.length + x'.length) = .ok es →
      concat.back [x, x'] [u] = .ok [p, p'] := fun u expanded =>
    bind_eq_ok.2 ⟨es, expanded, bind_eq_ok.2 ⟨p, shaped, bind_eq_ok.2 ⟨p', shaped', rfl⟩⟩⟩
  exact ⟨[p, p'], [p, p'], back w left, back w' right, .cons carried (.single carried')⟩

private theorem returns_flip (done : flip.step [x] [x] = .ok [y])
    (given : y.Carried counted still False w w') : flip.Returns counted still [x] [w] [w'] := by
  obtain ⟨p, p', turned, turned', carried⟩ := flipped_carried (sameShape_of_flip done) given
  exact ⟨[p], [p'], bind_eq_ok.2 ⟨p, (turned_eq w).trans turned, rfl⟩,
    bind_eq_ok.2 ⟨p', (turned_eq w').trans turned', rfl⟩, .single carried⟩

private theorem make_share {ys : List F} {x u : Value F} (fits : u.Fits (.array ys)) :
    (make ys.length).back [x] [u] =
      .ok [.scalar (∑ e ∈ Finset.range ys.length, u.component e)] := by
  cases fits with
  | scalar z s =>
    have times : ∑ e ∈ Finset.range ys.length, (scalar z).component e =
        z * Scalar.ratio ys.length 1 := by
      rw [ratio_eq, Nat.cast_one, div_one, mul_comm]
      show ∑ e ∈ Finset.range ys.length, z = _
      rw [Finset.sum_const, Finset.card_range, nsmul_eq_mul]
    rw [times]
    rfl
  | array same =>
    rename_i xs
    refine (if_pos same).trans (congrArg (fun x => Except.ok [scalar x]) ?_)
    show Scalar.total xs = _
    rw [total_eq, sum_eq_components, same]

private theorem returns_make {n : Nat} (done : (make n).step [x] [x] = .ok [y])
    (given : y.Carried counted still False w w') : (make n).Returns True still [x] [w] [w'] := by
  obtain ⟨z, read, done⟩ := bind_eq_ok.1 done
  obtain ⟨whole, joined, done⟩ := bind_eq_ok.1 done
  obtain rfl : whole = y := List.singleton_inj.1 (pure_eq_ok.1 done)
  obtain rfl : .array (List.replicate n z) = whole := Except.ok.inj joined
  obtain rfl : x = .scalar z := scalarElem_eq_ok.1 read
  have same : ∑ e ∈ Finset.range (List.replicate n z).length, w.component e =
      ∑ e ∈ Finset.range (List.replicate n z).length, w'.component e :=
    Finset.sum_congr rfl fun e member => given.same e (Finset.mem_range.1 member)
  have left := make_share (x := .scalar z) given.left
  have right := make_share (x := .scalar z) given.right
  rw [← same, List.length_replicate] at right
  rw [List.length_replicate] at left
  refine ⟨_, _, left, right, .single (carried_scalar z fun known => ?_)⟩
  exact Finset.sum_eq_zero fun e member => given.still known e
    ((Finset.mem_range.1 member).trans_eq List.length_replicate.symm)

private theorem returns_pack {x0 : List (Value F)} (done : pack.step x0 x0 = .ok [y])
    (given : y.Carried counted still False w w') : pack.Returns True still x0 [w] [w'] := by
  obtain ⟨xs, read, done⟩ := bind_eq_ok.1 done
  obtain ⟨whole, joined, done⟩ := bind_eq_ok.1 done
  obtain rfl : whole = y := List.singleton_inj.1 (pure_eq_ok.1 done)
  obtain rfl : .array xs = whole := Except.ok.inj joined
  obtain rfl : x0 = xs.map scalar := mapM_scalarElem_eq_ok.1 read
  have left := expand_eq "pack adjoint" given.left
  have right := expand_eq "pack adjoint" given.right
  rw [← given.elements_eq] at right
  have back : ∀ u : Value F,
      Base.expand "pack adjoint" u xs.length = .ok (w.elements xs.length) →
      pack.back (xs.map scalar) [u] = .ok ((w.elements xs.length).map scalar) :=
    fun u expanded => bind_eq_ok.2 ⟨_, (List.length_map scalar).symm ▸ expanded, rfl⟩
  exact ⟨_, _, back w left, back w' right,
    carried_scalars (length_elements given.left) given.elements_still⟩

private theorem returns_unpack {n : Nat} {y0 ws ws' : List (Value F)}
    (done : (unpack n).step [x] [x] = .ok y0)
    (given : AllThree (·.Carried counted still False) y0 ws ws') :
    (unpack n).Returns True still [x] ws ws' := by
  by_cases count : Base.length x = n
  · obtain ⟨xs, expanded, last⟩ := bind_eq_ok.1 ((if_pos count).symm.trans done)
    obtain rfl : xs.map scalar = y0 := pure_eq_ok.1 last
    obtain ⟨zs, many, zeros, rfl, rfl⟩ := exists_scalars_of_carried given
    obtain ⟨p, shaped, carried⟩ :=
      carried_shapedLike (s := x) ((many.trans (length_expand expanded)).trans count.symm) zeros
    have back : (unpack n).back [x] (zs.map scalar) = .ok [p] :=
      bind_eq_ok.2 ⟨zs, mapM_scalarElem_eq_ok.2 rfl, bind_eq_ok.2 ⟨p, shaped, rfl⟩⟩
    exact ⟨_, _, back, back, .single carried⟩
  · exact absurd ((if_neg count).symm.trans done) nofun

private theorem Returns.weaken {b : BuiltIn} {p : Prop} {x0 ws ws' : List (Value F)}
    (returns : b.Returns counted still x0 ws ws') (less : p → counted) :
    b.Returns p still x0 ws ws' :=
  Both.mono returns fun _ _ all => all.mono fun _ _ _ carried => carried.imp less id id

/-- From partials of the results that stand for the same a built-in passes back such to its
arguments.  Only the reversal asks that the partials be counted for what it passes back to be so. -/
theorem returns (b : BuiltIn) {x0 y0 ws ws' : List (Value F)} (done : b.step x0 x0 = .ok y0)
    (given : AllThree (·.Carried counted still False) y0 ws ws') :
    b.Returns (b = .flip → counted) still x0 ws ws' := by
  have one : b.count = 1 → ∃ y w w', y0 = [y] ∧ ws = [w] ∧ ws' = [w'] ∧
      y.Carried counted still False w w' := by
    intro one
    obtain ⟨y, rfl⟩ := List.length_eq_one_iff.1 ((length_step done).trans one)
    cases given with
    | cons head tail =>
      cases tail
      exact ⟨y, _, _, rfl, rfl, rfl, head⟩
  cases b with
  | sum =>
    obtain ⟨y, w, w', rfl, rfl, rfl, head⟩ := one rfl
    match x0, done with
    | [x], done => exact (returns_sum done head).weaken fun _ => trivial
    | [], done => cases done
    | _ :: _ :: _, done => cases done
  | concat =>
    obtain ⟨y, w, w', rfl, rfl, rfl, head⟩ := one rfl
    match x0, done with
    | [x, x'], done => exact (returns_concat done head).weaken fun _ => trivial
    | [], done => cases done
    | [_], done => cases done
    | _ :: _ :: _ :: _, done => cases done
  | flip =>
    obtain ⟨y, w, w', rfl, rfl, rfl, head⟩ := one rfl
    match x0, done with
    | [x], done => exact (returns_flip done head).weaken fun known => known rfl
    | [], done => cases done
    | _ :: _ :: _, done => cases done
  | pack =>
    obtain ⟨y, w, w', rfl, rfl, rfl, head⟩ := one rfl
    exact (returns_pack done head).weaken fun _ => trivial
  | make n =>
    obtain ⟨y, w, w', rfl, rfl, rfl, head⟩ := one rfl
    match x0, done with
    | [x], done => exact (returns_make done head).weaken fun _ => trivial
    | [], done => cases done
    | _ :: _ :: _, done => cases done
  | unpack n =>
    match x0, done with
    | [x], done => exact (returns_unpack done given).weaken fun _ => trivial
    | [], done => cases done
    | _ :: _ :: _, done => cases done

end BuiltIn

end TaylorTape
