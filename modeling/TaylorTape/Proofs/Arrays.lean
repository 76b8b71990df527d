import TaylorTape.Proofs.Broadcast
import Mathlib.Data.List.Defs

/-!
What the built-in atomics pass back.

The built-ins spread, sum and rearrange elements, so that they are linear in the coefficients of each
order.  Passing partials back is the transposed map: the partials that the arguments receive, paired
with coefficients of the arguments, are the partials of the results paired with the coefficients that
the results get from these.
-/

set_option autoImplicit false
set_option relaxedAutoImplicit false

namespace TaylorTape

namespace Value

variable {F : Type} {s u v : Value F}

/-- The elements that a value stands for at a number of positions. -/
def elements (u : Value F) (n : Nat) : List F :=
  match u with
  | .scalar x => List.replicate n x
  | .array xs => xs

theorem length_elements (fits : u.Fits s) : (u.elements s.length).length = s.length := by
  cases fits with
  | scalar x s => exact List.length_replicate
  | array same => exact same

variable [RingScalar F]

theorem expand_eq (context : String) (fits : u.Fits s) :
    Base.expand context u s.length = .ok (u.elements s.length) := by
  cases fits with
  | scalar x s => rfl
  | array same => exact if_pos same

theorem component_elements (fits : u.Fits s) {e : Nat} (inside : e < s.length) :
    (array (u.elements s.length)).component e = u.component e := by
  cases fits with
  | scalar x s => exact component_replicate inside x
  | array same => rfl

private theorem dot_eq_sum (left : u.Fits s) (right : v.Fits s) :
    dot s u v = (List.zipWith (· * ·) (u.elements s.length) (v.elements s.length)).sum := by
  have length : (List.zipWith (· * ·) (u.elements s.length) (v.elements s.length)).length =
      s.length := by
    rw [List.length_zipWith, length_elements left, length_elements right, Nat.min_self]
  rw [sum_eq_components, length]
  refine Finset.sum_congr rfl fun e member => ?_
  have inside := Finset.mem_range.1 member
  rw [← component_elements left inside, ← component_elements right inside,
    component_array (inside.trans_eq length.symm),
    component_array (inside.trans_eq (length_elements left).symm),
    component_array (inside.trans_eq (length_elements right).symm), List.getElem_zipWith]

private theorem shapedLike_spec {elems : List F} (count : elems.length = s.length) :
    ∃ w, Base.shapedLike elems s = .ok w ∧ w.SameShape s ∧
      ∀ v : Value F, v.Fits s →
        dot s w v = (List.zipWith (· * ·) elems (v.elements s.length)).sum := by
  cases s with
  | scalar y =>
    obtain ⟨x, rfl⟩ := List.length_eq_one_iff.1 count
    refine ⟨.scalar (Scalar.total [x]), rfl, .scalar _ _, fun v fits => ?_⟩
    rw [dot_eq_sum (.scalar _ _) fits, total_eq, List.sum_singleton]
    rfl
  | array ys =>
    refine ⟨.array elems, rfl, .array count, fun v fits => ?_⟩
    exact dot_eq_sum (.array count) fits

/-- The sum of the products of the values at each place. -/
def paired (ss us vs : List (Value F)) : F :=
  (List.zipWith3 dot ss us vs).sum

private theorem paired_single (s u v : Value F) : paired [s] [u] [v] = dot s u v :=
  add_zero _

section Scalars

theorem scalarElem_eq_ok {context : String} {x : F} :
    Base.scalarElem context u = .ok x ↔ u = .scalar x := by
  cases u with
  | scalar y =>
    show Except.ok y = .ok x ↔ _
    rw [Except.ok.injEq, scalar.injEq]
  | array ys => exact iff_of_false nofun nofun

theorem mapM_scalarElem_eq_ok {context : String} {us : List (Value F)} {xs : List F} :
    us.mapM (Base.scalarElem context) = .ok xs ↔ us = xs.map scalar := by
  rw [mapM_eq_ok, ← List.forall₂_eq_eq_eq, List.forall₂_map_right_iff]
  simp only [scalarElem_eq_ok]

omit [RingScalar F] in
/-- What fits scalars consists of scalars. -/
theorem exists_scalars {us : List (Value F)} {xs : List F}
    (fits : List.Forall₂ Fits us (xs.map scalar)) :
    ∃ ws : List F, us = ws.map scalar ∧ ws.length = xs.length := by
  induction xs generalizing us with
  | nil =>
    cases fits
    exact ⟨[], rfl, rfl⟩
  | cons x xs ih =>
    cases fits with
    | cons first rest =>
      obtain ⟨w, rfl⟩ := first.exists_scalar
      obtain ⟨ws, rfl, count⟩ := ih rest
      exact ⟨w :: ws, rfl, congrArg Nat.succ count⟩

omit [RingScalar F] in
theorem sameShape_scalars {xs ws : List F} (count : ws.length = xs.length) :
    List.Forall₂ SameShape (ws.map scalar) (xs.map scalar) := by
  rw [List.forall₂_map_left_iff, List.forall₂_map_right_iff, List.forall₂_iff_get]
  exact ⟨count, fun i _ _ => .scalar _ _⟩

private theorem paired_scalars {xs ws ds : List F} (given : ws.length = xs.length)
    (along : ds.length = xs.length) :
    paired (xs.map scalar) (ws.map scalar) (ds.map scalar) = (List.zipWith (· * ·) ws ds).sum := by
  induction xs generalizing ws ds with
  | nil =>
    obtain rfl := List.length_eq_zero_iff.1 given
    rfl
  | cons x xs ih =>
    obtain ⟨w, ws, rfl⟩ := List.exists_cons_of_length_eq_add_one given
    obtain ⟨d, ds, rfl⟩ := List.exists_cons_of_length_eq_add_one along
    have rest := ih (Nat.succ.inj given) (Nat.succ.inj along)
    rw [List.zipWith_cons_cons, List.sum_cons, ← rest, ← dot_scalar x]
    rfl

end Scalars

end Value

namespace BuiltIn

open Value

variable {F : Type} [ExactScalar F] {x0 y0 : List (Value F)}

/-- A built-in is linear in the coefficients of an order, and passing partials back is the transposed
map: what the arguments receive is paired with their coefficients as the partials of the results are
with theirs.  Partials of the shapes of the results go back in the shapes of the arguments. -/
def Pairs (b : BuiltIn) (x0 y0 : List (Value F)) : Prop :=
  ∀ dx, List.Forall₂ Fits dx x0 → ∃ dy, b.step x0 dx = .ok dy ∧ List.Forall₂ Fits dy y0 ∧
    ∀ us, List.Forall₂ Fits us y0 → ∃ shares, b.back x0 us = .ok shares ∧
      List.Forall₂ Fits shares x0 ∧
      (List.Forall₂ SameShape us y0 → List.Forall₂ SameShape shares x0) ∧
      paired x0 shares dx = paired y0 us dy

private theorem pairs_single {b : BuiltIn} {x y : Value F}
    (each : ∀ dx : Value F, dx.Fits x → ∃ dy : Value F, b.step [x] [dx] = .ok [dy] ∧ dy.Fits y ∧
      ∀ u : Value F, u.Fits y → ∃ s : Value F, b.back [x] [u] = .ok [s] ∧ s.Fits x ∧
        (u.SameShape y → s.SameShape x) ∧ dot x s dx = dot y u dy) :
    b.Pairs [x] [y] := by
  intro dx fits
  obtain ⟨dx, rfl⟩ := List.length_eq_one_iff.1 fits.length_eq
  obtain ⟨dy, done, fits', back⟩ := each dx (List.forall₂_cons.1 fits).1
  refine ⟨[dy], done, .cons fits' .nil, fun us given => ?_⟩
  obtain ⟨u, rfl⟩ := List.length_eq_one_iff.1 given.length_eq
  obtain ⟨s, passed, fits, shape, same⟩ := back u (List.forall₂_cons.1 given).1
  refine ⟨[s], passed, .cons fits .nil, fun shapes => ?_, ?_⟩
  · exact .cons (shape (List.forall₂_cons.1 shapes).1) .nil
  · rw [paired_single, paired_single, same]

private theorem pairs_sum (done : sum.step x0 x0 = .ok y0) : sum.Pairs x0 y0 := by
  obtain ⟨x, _, v, rfl, _, _, rfl⟩ := step_sum_eq_ok.1 done
  refine pairs_single fun dx fits => ?_
  obtain ⟨w, spread, same, parts⟩ := broadcastLike_fits fits
  refine ⟨.scalar w.sum, bind_eq_ok.2 ⟨w, spread, rfl⟩, .scalar _ _, fun u given => ?_⟩
  obtain ⟨y, rfl⟩ := given.exists_scalar
  obtain ⟨s, spread', same', parts'⟩ := broadcastLike_fits (Fits.scalar y x)
  refine ⟨s, bind_eq_ok.2 ⟨y, rfl, bind_eq_ok.2 ⟨s, spread', rfl⟩⟩, same'.fits, fun _ => same', ?_⟩
  calc dot x s dx = ∑ e ∈ Finset.range x.length, y * w.component e :=
        Finset.sum_congr rfl fun e member => by
          rw [parts' e (Finset.mem_range.1 member), parts e (Finset.mem_range.1 member)]
          rfl
    _ = y * w.sum := by rw [← Finset.mul_sum, ← sum_eq same]
    _ = dot (.scalar v.sum) (.scalar y) (.scalar w.sum) := (dot_scalar _ _ _).symm

omit [ExactScalar F] in
theorem flipped_spec [RingScalar F] (u : Value F) :
    ∃ w, Atomic.flipped u = .ok w ∧ w.SameShape u ∧
      ∀ n, w.elements n = (u.elements n).reverse := by
  cases u with
  | scalar x => exact ⟨_, rfl, .scalar _ _, fun n => List.reverse_replicate.symm⟩
  | array xs => exact ⟨_, rfl, .array List.length_reverse, fun n => rfl⟩

private theorem pairs_flip (done : flip.step x0 x0 = .ok y0) : flip.Pairs x0 y0 := by
  obtain ⟨x, _, y, rfl, ⟨⟩, turned, rfl⟩ := step_flip_eq_ok.1 done
  obtain ⟨_, turned', same, _⟩ := flipped_spec x
  obtain rfl := Except.ok.inj (turned.symm.trans turned')
  refine pairs_single fun dx fits => ?_
  obtain ⟨dy, across, shape, order⟩ := flipped_spec dx
  have fits' : dy.Fits y := (shape.fits.trans fits).trans same.symm.fits
  refine ⟨dy, step_flip_eq_ok.2 ⟨x, dx, dy, rfl, rfl, across, rfl⟩, fits', fun u given => ?_⟩
  obtain ⟨s, back, shape', order'⟩ := flipped_spec u
  have own := (shape'.fits.trans given).trans same.fits
  refine ⟨s, bind_eq_ok.2 ⟨s, (turned_eq u).trans back, rfl⟩, own,
    fun shapes => shape'.trans (shapes.trans same), ?_⟩
  have count : (u.elements x.length).length = ((dx.elements x.length).reverse).length := by
    rw [List.length_reverse, length_elements fits, length_elements (given.trans same.fits)]
  have turn := List.reverse_zipWith (f := (· * ·)) count
  rw [List.reverse_reverse] at turn
  rw [dot_eq_sum own fits, dot_eq_sum given fits', same.length_eq, order, order', ← turn,
    List.sum_reverse]

private theorem pairs_concat (done : concat.step x0 x0 = .ok y0) : concat.Pairs x0 y0 := by
  obtain ⟨x, x', _, _, head, tail, y, rfl, ⟨⟩, start, stop, joined, rfl⟩ :=
    step_concat_eq_ok.1 done
  obtain rfl : .array (head ++ tail) = y := Except.ok.inj joined
  have total : (array (head ++ tail)).length = x.length + x'.length := by
    show (head ++ tail).length = _
    rw [List.length_append, length_expand start, length_expand stop]
    rfl
  intro dx along
  obtain ⟨dx, _, fits, others, rfl⟩ := List.forall₂_cons_right_iff.1 along
  obtain ⟨dx', rfl, fits'⟩ := exists_of_forall₂_single others
  have same : (dx.elements x.length ++ dx'.elements x'.length).length = (head ++ tail).length := by
    rw [List.length_append, length_elements fits, length_elements fits']
    exact total.symm
  refine ⟨[.array (dx.elements x.length ++ dx'.elements x'.length)], ?_,
    .cons (.array same) .nil, fun us weights => ?_⟩
  · exact bind_eq_ok.2 ⟨_, expand_eq "concat argument" fits,
      bind_eq_ok.2 ⟨_, expand_eq "concat argument" fits', rfl⟩⟩
  obtain ⟨u, rfl, given⟩ := exists_of_forall₂_single weights
  have whole := expand_eq "concat adjoint" given
  have count := length_elements given
  have product := dot_eq_sum given (Fits.array same)
  rw [total] at whole count product
  have first : ((u.elements (x.length + x'.length)).take x.length).length = x.length := by
    rw [List.length_take, count, Nat.min_eq_left (Nat.le_add_right _ _)]
  have second : ((u.elements (x.length + x'.length)).drop x.length).length = x'.length := by
    rw [List.length_drop, count, Nat.add_sub_cancel_left]
  obtain ⟨w, shaped, shape, sum⟩ := shapedLike_spec first
  obtain ⟨w', shaped', shape', sum'⟩ := shapedLike_spec second
  refine ⟨[w, w'], ?_, .cons shape.fits (.cons shape'.fits .nil),
    fun _ => .cons shape (.cons shape' .nil), ?_⟩
  · exact bind_eq_ok.2 ⟨_, whole, bind_eq_ok.2 ⟨w, shaped, bind_eq_ok.2 ⟨w', shaped', rfl⟩⟩⟩
  · show dot x w dx + (dot x' w' dx' + 0) = dot _ _ _ + 0
    rw [sum dx fits, sum' dx' fits', product, add_zero, add_zero, ← List.sum_append,
      ← List.zipWith_append (first.trans (length_elements fits).symm), List.take_append_drop]
    rfl

private theorem pairs_make {n : Nat} (done : (make n).step x0 x0 = .ok y0) :
    (make n).Pairs x0 y0 := by
  obtain ⟨x, _, e, y, rfl, ⟨⟩, read, made, rfl⟩ := step_make_eq_ok.1 done
  obtain rfl := scalarElem_eq_ok.1 read
  obtain rfl : .array (List.replicate n e) = y := Except.ok.inj made
  have long : (array (List.replicate n e)).length = n := List.length_replicate
  refine pairs_single fun dx fits => ?_
  obtain ⟨d, rfl⟩ := fits.exists_scalar
  have same : (List.replicate n d).length = (List.replicate n e).length := by
    rw [List.length_replicate, List.length_replicate]
  refine ⟨.array (List.replicate n d), rfl, .array same, fun u given => ?_⟩
  have product : dot (.array (List.replicate n e)) u (.array (List.replicate n d)) =
      (∑ i ∈ Finset.range n, u.component i) * d := by
    rw [Finset.sum_mul, dot, long]
    refine Finset.sum_congr rfl fun i member => ?_
    rw [component_replicate (Finset.mem_range.1 member)]
  cases given with
  | scalar w s =>
    refine ⟨.scalar (w * Scalar.ratio n 1), rfl, .scalar _ _, fun _ => .scalar _ _, ?_⟩
    rw [dot_scalar, product, ratio_eq, Nat.cast_one, div_one]
    show w * n * d = (∑ i ∈ Finset.range n, w) * d
    rw [Finset.sum_const, Finset.card_range, nsmul_eq_mul, mul_comm w]
  | array count =>
    rename_i es
    rw [List.length_replicate] at count
    refine ⟨.scalar (Scalar.total es), if_pos count, .scalar _ _, fun _ => .scalar _ _, ?_⟩
    rw [dot_scalar, product, total_eq, sum_eq_components, count]

private theorem pairs_pack (done : pack.step x0 x0 = .ok y0) : pack.Pairs x0 y0 := by
  obtain ⟨xs, y, read, joined, rfl⟩ := step_pack_eq_ok.1 done
  obtain rfl : array xs = y := Except.ok.inj joined
  obtain rfl := mapM_scalarElem_eq_ok.1 read
  intro dx fits
  obtain ⟨ds, rfl, along⟩ := exists_scalars fits
  refine ⟨[array ds], ?_, .cons (.array along) .nil, fun us weights => ?_⟩
  · exact bind_eq_ok.2 ⟨ds, mapM_scalarElem_eq_ok.2 rfl, rfl⟩
  obtain ⟨u, rfl, given⟩ := exists_of_forall₂_single weights
  have count : (u.elements xs.length).length = xs.length := length_elements given
  have shapes := sameShape_scalars count
  refine ⟨(u.elements xs.length).map scalar, ?_, shapes.imp fun _ _ => SameShape.fits,
    fun _ => shapes, ?_⟩
  · rw [back, List.length_map]
    exact bind_eq_ok.2 ⟨_, expand_eq "pack adjoint" given, rfl⟩
  · rw [paired_scalars count along, paired_single, dot_eq_sum given (.array along)]
    rfl

private theorem pairs_unpack {n : Nat} (done : (unpack n).step x0 x0 = .ok y0) :
    (unpack n).Pairs x0 y0 := by
  obtain ⟨x, _, row, rfl, ⟨⟩, rfl, expanded, rfl⟩ := step_unpack_eq_ok.1 done
  have here := (SameShape.refl x).fits
  obtain rfl := Except.ok.inj ((expand_eq "unpack argument" here).symm.trans expanded)
  intro dx given
  obtain ⟨dx, rfl, fits⟩ := exists_of_forall₂_single given
  have along : (dx.elements x.length).length = (x.elements x.length).length := by
    rw [length_elements fits, length_elements here]
  refine ⟨(dx.elements x.length).map scalar, ?_, ?_, fun us given => ?_⟩
  · exact (if_pos rfl).trans (bind_eq_ok.2 ⟨_, expand_eq "unpack argument" fits, rfl⟩)
  · exact (sameShape_scalars along).imp fun _ _ => SameShape.fits
  obtain ⟨ws, rfl, count⟩ := exists_scalars given
  obtain ⟨s, shaped, shape, sum⟩ := shapedLike_spec (count.trans (length_elements here))
  refine ⟨[s], ?_, .cons shape.fits .nil, fun _ => .cons shape .nil, ?_⟩
  · exact bind_eq_ok.2 ⟨ws, mapM_scalarElem_eq_ok.2 rfl, bind_eq_ok.2 ⟨s, shaped, rfl⟩⟩
  · rw [paired_single, sum dx fits]
    exact (paired_scalars count along).symm

theorem pairs (b : BuiltIn) (done : b.step x0 x0 = .ok y0) : b.Pairs x0 y0 := by
  cases b with
  | sum => exact pairs_sum done
  | concat => exact pairs_concat done
  | flip => exact pairs_flip done
  | pack => exact pairs_pack done
  | make n => exact pairs_make done
  | unpack n => exact pairs_unpack done

/-- At order one the built-in answers, and what it passes back is paired as what it has been
given. -/
def Transposes (b : BuiltIn) (x0 y0 : List (Value F)) : Prop :=
  ∀ dx, List.Forall₂ Fits dx x0 → ∃ dy, b.step x0 dx = .ok dy ∧ List.Forall₂ Fits dy y0 ∧
    ∀ us ys, List.Forall₂ SameShape us y0 → ∃ shares,
      b.atomic.reverse 0 (x0.map (#[·])) ys (us.map (#[·])) = .ok (some (shares.map (#[·]))) ∧
      List.Forall₂ SameShape shares x0 ∧ paired x0 shares dx = paired y0 us dy

omit [ExactScalar F] in
private theorem reverse_zero [Scalar F] {b : BuiltIn} {us shares : List (Value F)}
    (count : us.length = b.count) (arity : shares.length = x0.length)
    (back : b.back x0 us = .ok shares) (ys : List (Series (Value F))) :
    b.atomic.reverse 0 (x0.map (#[·])) ys (us.map (#[·])) = .ok (some (shares.map (#[·]))) := by
  have each : ∀ k < 0 + 1, b.back ((x0.map fun x (_ : Nat) => x).map (· 0))
      ((us.map fun u (_ : Nat) => u).map (· k)) = .ok shares := fun k _ => by
    simpa [List.map_map, Function.comp_def] using back
  have done := reverse_eq _ ((List.length_map _).trans count) each ys
  simp only [List.map_map, List.length_map, Function.comp_def] at done
  refine done.trans (congrArg (Except.ok ∘ some) (eq_map_range ?_ fun j below => ?_).symm)
  · rw [List.length_map, arity]
  · have inside : j < shares.length := arity.symm ▸ below
    rw [List.getElem?_map, List.getElem?_eq_getElem inside]
    rfl

theorem transposes (b : BuiltIn) (done : b.step x0 x0 = .ok y0) : b.Transposes x0 y0 := by
  intro dx fits
  obtain ⟨dy, stepped, fits', back⟩ := b.pairs done dx fits
  refine ⟨dy, stepped, fits', fun us ys shapes => ?_⟩
  obtain ⟨shares, passed, given, shape, same⟩ := back us (shapes.imp fun _ _ => SameShape.fits)
  have count : us.length = b.count := shapes.length_eq.trans (length_step done)
  exact ⟨shares, reverse_zero count given.length_eq passed ys, shape shapes, same⟩

end BuiltIn

end TaylorTape
