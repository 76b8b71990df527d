import TaylorTape.Proofs.Agreement
import TaylorTape.Proofs.Reals
import TaylorTape.Proofs.Tangents
import TaylorTape.Evaluator.Derivatives

/-!
Forward and reverse sweeps of order one are transposes, over scalars and arrays.

The partials of a variable are a scalar zero until something is passed on to it, and have its shape
from then on.  What is passed on has the shape of the result that passes it on, and is collapsed onto
the shape of the variable.  The product of the partials with the variable's coefficient of order one
is the pairing that every step of a reverse sweep keeps.
-/

set_option autoImplicit false
set_option relaxedAutoImplicit false

namespace TaylorTape

open Value

namespace Value

variable {F : Type} [ExactScalar F] {s t u v w d : Value F} {p : Series (Value F)}

/-- The partials that a variable of a shape can have at order one. -/
def Held (s : Value F) (p : Series (Value F)) : Prop :=
  ∃ u, p = #[u] ∧ (u.SameShape s ∨ u = .scalar 0)

/-- What can be passed on at order one to a variable of a shape. -/
def Passed (s : Value F) (p : Series (Value F)) : Prop :=
  ∃ u t, p = #[u] ∧ u.SameShape t ∧ s.Fits t

/-- The product of partials, collapsed onto a shape, with a coefficient there. -/
def weigh (s d : Value F) (p : Series (Value F)) : F :=
  dot s (((p[0]?).getD (Value.scalar 0)).reduceLike s) d

private theorem weigh_of_fits (fits : u.Fits s) : weigh s d #[u] = dot s u d := by
  show dot s (u.reduceLike s) d = dot s u d
  rw [reduceLike_fits fits]

private theorem weigh_of_passed (shape : u.SameShape t) (fits : s.Fits t) (along : d.Fits s) :
    weigh s d #[u] = dot t u d :=
  (dot_reduceLike shape fits along).2

theorem dot_shape (same : s.SameShape t) : dot s u v = dot t u v := by
  unfold dot
  rw [same.length_eq]

private theorem Held.fits (held : s.Held #[u]) : u.Fits s := by
  obtain ⟨_, same, shape | rfl⟩ := held
  · obtain rfl := List.singleton_inj.1 (Array.mk.inj same)
    exact shape.fits
  · obtain rfl := List.singleton_inj.1 (Array.mk.inj same)
    exact .scalar 0 s

theorem dot_congr (same : ∀ e < s.length, u.component e * v.component e =
    w.component e * d.component e) : dot s u v = dot s w d :=
  Finset.sum_congr rfl fun e member => same e (Finset.mem_range.1 member)

theorem dot_of_isAllZero (fits : u.Fits s) (idle : Base.isAllZero u = true) : dot s u d = 0 := by
  refine Finset.sum_eq_zero fun e member => ?_
  rw [component_of_isAllZero fits idle (Finset.mem_range.1 member), zero_mul]

private theorem Held.shape (held : s.Held p) (busy : p.all Base.isAllZero = false) :
    ∃ u, p = #[u] ∧ u.SameShape s := by
  obtain ⟨u, rfl, shape | rfl⟩ := held
  · exact ⟨u, rfl, shape⟩
  · have zero : Scalar.beq (0 : F) 0 = true := (ExactScalar.beq_iff 0 0).2 rfl
    have idle : (#[.scalar 0] : Series (Value F)).all Base.isAllZero = true := by
      simp [Base.isAllZero, Base.toList, Value.toList, zero]
    rw [idle] at busy
    cases busy

private theorem gather_one (held : s.Held #[u]) (shape : v.SameShape s) :
    ∃ w, Base.add u v = .ok w ∧ w.SameShape s ∧ dot s w d = dot s u d + dot s v d := by
  obtain ⟨w, sum, _, same, parts⟩ := zipWith_fits "add" (· + ·) held.fits shape.fits
  refine ⟨w, sum, same (.inr shape), ?_⟩
  unfold dot
  rw [← Finset.sum_add_distrib]
  refine Finset.sum_congr rfl fun e member => ?_
  rw [parts e (Finset.mem_range.1 member), add_mul]

private theorem sum_weigh {vs : List Nat} {us : List (Value F)} {c d : Nat → Value F}
    (fits : List.Forall₂ (fun v (u : Value F) => u.Fits (c v)) vs us) :
    (List.zipWith (fun v p => weigh (c v) (d v) p) vs (us.map (#[·]))).sum =
      paired (vs.map c) us (vs.map d) := by
  induction fits with
  | nil => rfl
  | cons first _ ih =>
    rw [List.map_cons, List.zipWith_cons_cons, List.sum_cons, weigh_of_fits first, ih]
    rfl

private theorem exists_shaped {y0 : List (Value F)} {adjoints : List (Series (Value F))}
    (held : List.Forall₂ Held y0 adjoints)
    (shapes : (∃ y, y0 = [y]) ∨ ∃ ys : List F, y0 = ys.map scalar)
    (busy : adjoints.all (·.all Base.isAllZero) = false) :
    ∃ us : List (Value F), adjoints = us.map (#[·]) ∧ List.Forall₂ SameShape us y0 := by
  rcases shapes with ⟨y, rfl⟩ | ⟨ys, rfl⟩
  · obtain ⟨p, rest, first, none, rfl⟩ := List.forall₂_cons_left_iff.1 held
    obtain rfl := List.forall₂_nil_left_iff.1 none
    rw [List.all_cons, List.all_nil, Bool.and_true] at busy
    obtain ⟨u, rfl, shape⟩ := first.shape busy
    exact ⟨[u], rfl, .cons shape .nil⟩
  · clear busy
    induction ys generalizing adjoints with
    | nil =>
      obtain rfl := List.forall₂_nil_left_iff.1 held
      exact ⟨[], rfl, .nil⟩
    | cons y ys ih =>
      obtain ⟨p, rest, ⟨u, rfl, shape⟩, later, rfl⟩ := List.forall₂_cons_left_iff.1 held
      obtain ⟨us, rfl, shapes⟩ := ih later
      have own : u.SameShape (scalar y) := by
        rcases shape with same | rfl
        · exact same
        · exact .scalar 0 y
      exact ⟨u :: us, rfl, .cons own shapes⟩

theorem paired_map {ι : Type} (vs : List ι) (f g h : ι → Value F) :
    paired (vs.map f) (vs.map g) (vs.map h) = (vs.map fun v => dot (f v) (g v) (h v)).sum := by
  induction vs with
  | nil => rfl
  | cons v vs ih =>
    rw [List.map_cons, List.map_cons, List.map_cons, List.map_cons, List.sum_cons, ← ih]
    rfl

private theorem dot_comm (s u v : Value F) : dot s u v = dot s v u :=
  Finset.sum_congr rfl fun _ _ => mul_comm _ _

private theorem paired_comm (ss us vs : List (Value F)) : paired ss us vs = paired ss vs us := by
  unfold paired
  congr 1
  induction ss generalizing us vs with
  | nil => rfl
  | cons s ss ih =>
    cases us with
    | nil => cases vs <;> rfl
    | cons u us =>
      cases vs with
      | nil => rfl
      | cons v vs =>
        rw [List.zipWith3, List.zipWith3, dot_comm, ih]

omit [ExactScalar F] in
private theorem exists_scalars_of {us : List (Value F)} (scalars : ∀ u ∈ us, u.isScalar = true) :
    ∃ xs : List F, us = xs.map scalar := by
  induction us with
  | nil => exact ⟨[], rfl⟩
  | cons u us ih =>
    obtain ⟨xs, rfl⟩ := ih fun v member => scalars v (List.mem_cons_of_mem u member)
    cases u with
    | scalar x => exact ⟨x :: xs, rfl⟩
    | array ys => cases scalars _ List.mem_cons_self

private theorem unit_sameShape {xs : List F} {n : Nat} (count : xs.length = n) (j : Nat) :
    List.Forall₂ SameShape (Evaluator.unit n j) (xs.map scalar) := by
  have scalars : (Evaluator.unit n j : List (Value F)) =
      ((List.range n).map fun k => if k = j then 1 else 0).map scalar := by
    rw [List.map_map]
    apply List.map_congr_left
    intro k _
    by_cases same : k = j
    · simp [same, Base.one, Base.ofElem]
    · simp [same, Base.zero, Base.ofElem]
  rw [scalars]
  exact sameShape_scalars (by simp [count])

private theorem paired_unit {xs : List F} {us : List (Value F)} {j : Nat}
    (fits : List.Forall₂ Fits us (xs.map scalar)) (inside : j < xs.length) :
    us[j]? = some (scalar (paired (xs.map scalar) us (Evaluator.unit xs.length j))) := by
  obtain ⟨ws, rfl, count⟩ := exists_scalars fits
  have room : j < ws.length := count ▸ inside
  have given : ws.map scalar = (List.range xs.length).map fun k => scalar ((ws[k]?).getD 0) := by
    apply eq_map_range (by simp [count])
    intro k below
    have low : k < ws.length := count ▸ below
    simp [low]
  have shape : xs.map scalar = (List.range xs.length).map fun k => scalar ((xs[k]?).getD 0) := by
    apply eq_map_range (by simp)
    intro k below
    simp [below]
  have only : paired (xs.map scalar) (ws.map scalar) (Evaluator.unit xs.length j) = ws[j] := by
    rw [given, shape, Evaluator.unit, paired_map]
    show ∑ k ∈ Finset.range xs.length, _ = _
    rw [Finset.sum_eq_single j]
    · rw [if_pos rfl]
      show dot _ _ (scalar 1) = _
      rw [dot_scalar, mul_one, List.getElem?_eq_getElem room, Option.getD_some]
    · intro k _ other
      rw [if_neg other]
      exact dot_zero_right _ _
    · intro outside
      exact absurd (Finset.mem_range.2 inside) outside
  rw [only, List.getElem?_map, List.getElem?_eq_getElem room]
  rfl

/-- The sum, over several places, of the products of values that are first brought to a shape. -/
def inners (ss us vs : List (Value F)) : Except Error F := do
  return (← (List.zipWith3 inner ss us vs).mapM id).sum

theorem inners_eq {ss us vs : List (Value F)} (left : List.Forall₂ Fits us ss)
    (right : List.Forall₂ Fits vs ss) : inners ss us vs = .ok (paired ss us vs) := by
  have each : (List.zipWith3 inner ss us vs).mapM id = .ok (List.zipWith3 dot ss us vs) := by
    induction left generalizing vs with
    | nil =>
      obtain rfl := List.forall₂_nil_right_iff.1 right
      rfl
    | cons first _ ih =>
      obtain ⟨v, rest, first', later, rfl⟩ := List.forall₂_cons_right_iff.1 right
      rw [List.zipWith3, List.mapM_cons, ih later, id, inner_eq first first']
      rfl
  rw [inners, each]
  rfl

end Value

namespace BuiltIn

variable {F : Type} [RingScalar F] {b : BuiltIn} {x0 y0 : List (Value F)}

private theorem step_shapes (done : b.step x0 x0 = .ok y0) :
    (∃ y, y0 = [y]) ∨ ∃ ys : List F, y0 = ys.map scalar := by
  cases b with
  | sum | concat | flip | pack | make n =>
    left
    exact List.length_eq_one_iff.1 (length_step done)
  | unpack n =>
    right
    match x0, done with
    | [x], done =>
      obtain ⟨_, done⟩ : x.length = n ∧ _ := by
        by_cases count : Base.length x = n
        · exact ⟨count, (if_pos count).symm.trans done⟩
        · exact absurd ((if_neg count).symm.trans done) nofun
      obtain ⟨xs, _, last⟩ := bind_eq_ok.1 done
      exact ⟨xs, (pure_eq_ok.1 last).symm⟩
    | [], done => cases done
    | _ :: _ :: _, done => cases done

end BuiltIn

namespace Evaluator

variable {F : Type} [ExactScalar F] {e : Evaluator (Value F)} {x dx : List (Value F)}
  {c d : Nat → Value F}

namespace AtPoint

private theorem coeff (here : e.AtPoint x c) {v : Nat} (inside : v < e.tape.size) :
    e.table.coeff v 0 0 = .ok (c v) := by
  rw [here.wellFormed.coeff inside, here.values v inside]

private theorem series (here : e.AtPoint x c) {v : Nat} (inside : v < e.tape.size) :
    e.table.series v 1 0 = .ok #[c v] := by
  have one : List.range 1 = [0] := rfl
  rw [Coefficients.series, one, List.mapM_cons, here.coeff inside]
  rfl

private theorem pullback_unary (here : e.AtPoint x c) (tangent : e.tape.Tangent c dx d) {i a : Nat}
    {op : UnaryOp} (found : e.tape.entry i = .ok (.unary op a)) {u : Value F}
    (own : u.SameShape (c i)) :
    ∃ w, op.pullback #[c a] #[c i] #[u] (Series.zeros 1) = .ok #[w] ∧ w.SameShape (c a) ∧
      dot (c a) w (d a) = dot (c i) u (d i) := by
  have inside := Tape.lt_size_of_entry found
  have below : a < e.tape.size := here.wellFormed.tape.operand_lt found (by simp [Entry.operands])
  have start := here.solves.unary found
  have shape : (c i).SameShape (c a) := start ▸ SameShape.map _ _
  obtain ⟨_, pulled, w, rfl, share⟩ := op.pullback_one start (own.trans shape)
  obtain ⟨dz, next, along⟩ := op.next_one (a := Tape.line c d a) (z := Tape.line c d i) start
    (tangent.fits a below)
  obtain rfl : dz = d i :=
    Except.ok.inj (next.symm.trans ((tangent.holds i inside).next_unary found))
  refine ⟨w, pulled, share.shape, ?_⟩
  rw [dot_shape shape]
  apply dot_congr
  intro k low
  rw [share.parts k low, along.parts k low]
  exact mul_assoc _ _ _

private theorem pullback_binary (here : e.AtPoint x c) (tangent : e.tape.Tangent c dx d)
    {i a b : Nat} {op : BinaryOp} (found : e.tape.entry i = .ok (.binary op a b)) {u : Value F}
    (own : u.SameShape (c i)) :
    ∃ w w', op.pullback #[c a] #[c b] #[c i] #[u] (Series.zeros 1) (Series.zeros 1) =
        .ok (#[w], #[w']) ∧ w.SameShape (c i) ∧ w'.SameShape (c i) ∧
      dot (c i) w (d a) + dot (c i) w' (d b) = dot (c i) u (d i) := by
  have inside := Tape.lt_size_of_entry found
  have below : a < e.tape.size := here.wellFormed.tape.operand_lt found (by simp [Entry.operands])
  have below' : b < e.tape.size := here.wellFormed.tape.operand_lt found (by simp [Entry.operands])
  obtain ⟨left, right⟩ := BinaryOp.fits_of_eval (here.solves.binary found)
  obtain ⟨_, pulled, w, w', rfl, share, share'⟩ := op.pullback_one left right own
  obtain ⟨dz, next, along⟩ := op.next_one (a := Tape.line c d a) (b := Tape.line c d b)
    (z := Tape.line c d i) left right (tangent.fits a below) (tangent.fits b below')
  obtain rfl : dz = d i :=
    Except.ok.inj (next.symm.trans ((tangent.holds i inside).next_binary found))
  refine ⟨w, w', pulled, share.shape, share'.shape, ?_⟩
  unfold dot
  rw [← Finset.sum_add_distrib]
  apply Finset.sum_congr rfl
  intro k member
  have low := Finset.mem_range.1 member
  rw [share.parts k low, share'.parts k low, along.parts k low]
  simp only [Tape.line]
  ring

private theorem reverse_call (here : e.AtPoint x c) (tangent : e.tape.Tangent c dx d)
    {i place n : Nat}
    {args : List Nat} (found : e.tape.entry i = .ok (.call place args n)) {us : List (Value F)}
    (shapes : List.Forall₂ SameShape us ((List.range' i n).map c)) :
    ∃ r shares, e.tape.atomics[place]? = some r ∧
      r.op.reverse 0 ((args.map c).map (#[·])) ((List.range' i n).map fun j => #[c j])
        (us.map (#[·])) = .ok (some (shares.map (#[·]))) ∧
      List.Forall₂ SameShape shares (args.map c) ∧
      paired (args.map c) shares (args.map d) =
        paired ((List.range' i n).map c) us ((List.range' i n).map d) := by
  obtain ⟨r, there, builtIn⟩ := here.builtIns i place args n found
  obtain ⟨b, op, stepped⟩ := here.solves.call found there builtIn
  obtain ⟨b', op', along⟩ :=
    (tangent.holds i (Tape.lt_size_of_entry found)).step found there builtIn
  -- both steps are of the built-in that the call names
  have along : b.step (args.map c) (args.map d) = .ok ((List.range' i n).map d) :=
    BuiltIn.step_of_atomic_eq (op'.symm.trans op) (by simp) along
  have fits : List.Forall₂ Value.Fits (args.map d) (args.map c) := by
    rw [List.forall₂_map_left_iff, List.forall₂_map_right_iff, List.forall₂_same]
    exact fun a reads => tangent.fits a (here.wellFormed.tape.operand_lt found reads)
  obtain ⟨dy, done, _, back⟩ := b.transposes stepped _ fits
  obtain rfl := Except.ok.inj (along.symm.trans done)
  obtain ⟨shares, pulled, shaped, same⟩ := back us ((List.range' i n).map fun j => #[c j]) shapes
  exact ⟨r, shares, there, op ▸ pulled, shaped, same⟩

/-- At order one the products with the coefficients along a direction are kept. -/
private theorem adjoint (here : e.AtPoint x c) (tangent : e.tape.Tangent c dx d) :
    e.Adjoint Base.isAllZero 1 (fun v p => (c v).Held p) (fun v p => (c v).Passed p)
      (fun v p => weigh (c v) (d v) p) where
  zeros v inside := by
    rw [Series.zeros_one]
    refine ⟨⟨.scalar 0, rfl, .inr rfl⟩, ?_⟩
    rw [weigh_of_fits (.scalar 0 _), dot_zero_left]
  gather v inside p s held passed := by
    obtain ⟨u, rfl, _⟩ := id held
    obtain ⟨r, t, rfl, shape, fits⟩ := passed
    obtain ⟨collapsed, same⟩ := dot_reduceLike shape fits (tangent.fits v inside)
    obtain ⟨w, sum, shape', adds⟩ := gather_one (d := d v) held collapsed
    refine ⟨#[w], ?_, ⟨w, rfl, .inl shape'⟩, ?_⟩
    · have one : List.range (Array.size #[r]) = [0] := rfl
      rw [gathered, here.coeff inside, ok_bind, one, List.foldlM_cons, Series.coeff_one, ok_bind,
        Series.addAt_one]
      rw [show Base.add u (Base.reduceLike r (c v)) = _ from sum]
      rfl
    · rw [weigh_of_fits shape'.fits, weigh_of_fits held.fits, adds,
        weigh_of_passed shape fits (tangent.fits v inside), same]
  const v p found := by
    obtain ⟨value, node⟩ := Tape.entry_eq_ok.1 found
    have still : d v = .scalar 0 := (tangent.holds v (Tape.lt_size_of_entry found)).const node
    rw [still]
    exact dot_zero_right _ _
  skip v inside p held idle := by
    obtain ⟨u, rfl, _⟩ := id held
    rw [weigh_of_fits held.fits]
    exact dot_of_isAllZero held.fits (by simpa using idle)
  unary i op a pz found held busy := by
    have inside := Tape.lt_size_of_entry found
    have below : a < e.tape.size := here.wellFormed.tape.operand_lt found (by simp [Entry.operands])
    obtain ⟨u, rfl, own⟩ := held.shape busy
    obtain ⟨w, pulled, shape, same⟩ := here.pullback_unary tangent found own
    refine ⟨#[c a], #[c i], #[w], here.series below, here.series inside, pulled,
      ⟨w, c a, rfl, shape, (SameShape.refl _).fits⟩, ?_⟩
    rw [weigh_of_fits shape.fits, weigh_of_fits own.fits, same]
  binary i op a b pz found held busy := by
    have inside := Tape.lt_size_of_entry found
    have below : a < e.tape.size := here.wellFormed.tape.operand_lt found (by simp [Entry.operands])
    have below' : b < e.tape.size := here.wellFormed.tape.operand_lt found (by simp [Entry.operands])
    obtain ⟨left, right⟩ := BinaryOp.fits_of_eval (here.solves.binary found)
    obtain ⟨u, rfl, own⟩ := held.shape busy
    obtain ⟨w, w', pulled, shape, shape', same⟩ := here.pullback_binary tangent found own
    refine ⟨#[c a], #[c b], #[c i], #[w], #[w'], here.series below, here.series below',
      here.series inside, pulled, ⟨w, c i, rfl, shape, left⟩, ⟨w', c i, rfl, shape', right⟩, ?_⟩
    rw [weigh_of_passed shape left (tangent.fits a below),
      weigh_of_passed shape' right (tangent.fits b below'), weigh_of_fits own.fits, same]
  call i place args n adjoints found held busy := by
    have room : i + n ≤ e.tape.size := here.wellFormed.tape.span_le found
    obtain ⟨r, there, builtIn⟩ := here.builtIns i place args n found
    obtain ⟨_, _, stepped⟩ := here.solves.call found there builtIn
    obtain ⟨us, rfl, shapes⟩ := exists_shaped (List.forall₂_map_left_iff.2 held)
      (BuiltIn.step_shapes stepped) busy
    obtain ⟨r, shares, there, pulled, shaped, same⟩ := here.reverse_call tangent found shapes
    have reads : args.mapM (fun a => e.table.series a 1 0) = .ok ((args.map c).map (#[·])) := by
      rw [List.map_map]
      exact mapM_eq_map fun a member =>
        here.series (here.wellFormed.tape.operand_lt found member)
    have results : (List.range' i n).mapM (fun j => e.table.series j 1 0) =
        .ok ((List.range' i n).map fun j => #[c j]) :=
      mapM_eq_map fun j member => here.series (by
        have := List.mem_range'_1.1 member
        omega)
    rw [List.forall₂_map_right_iff] at shapes shaped
    refine ⟨r, _, _, shares.map (#[·]), fetch_eq_ok_iff.2 there, reads, results, pulled, ?_, ?_⟩
    · rw [List.forall₂_map_right_iff]
      exact shaped.flip.imp fun a u shape => ⟨u, c a, rfl, shape, (SameShape.refl _).fits⟩
    · rw [sum_weigh (shaped.flip.imp fun _ _ => SameShape.fits),
        sum_weigh (shapes.flip.imp fun _ _ => SameShape.fits), same]

private theorem direction_eq (here : e.AtPoint x c) (tangent : e.tape.Tangent c dx d)
    (fits : List.Forall₂ Value.Fits dx x) : dx = (List.range e.numInputs).map d := by
  apply eq_map_range (fits.length_eq.trans here.arity)
  intro j input
  have inside : j < e.tape.size := lt_of_lt_of_le input here.wellFormed.tape.inputs_le
  obtain ⟨entry, found⟩ := Tape.exists_entry inside
  obtain rfl := (here.wellFormed.tape.inputs j entry found).2 input
  exact (tangent.holds j inside).input found

private theorem acceptsReverse (here : e.AtPoint x c) {ws : List (Value F)}
    (count : ws.length = e.outputs.length) : e.AcceptsReverse 1 (ws.map ([·])) where
  positive := Nat.one_ne_zero
  orders := here.orders
  directions higher := absurd higher (lt_irrefl 1)
  count := (List.length_map _).trans count
  lengths w member := by
    obtain ⟨u, _, rfl⟩ := List.mem_map.1 member
    rfl

/-- What the inputs receive pairs with any direction as the weights do with its outcome. -/
private theorem reverse_along (here : e.AtPoint x c) (tangent : e.tape.Tangent c dx d)
    (fits : List.Forall₂ Value.Fits dx x) {ws : List (Value F)}
    (weighted : List.Forall₂ SameShape ws (e.outputs.map c)) :
    ∃ px : List (Value F), e.reverse 1 (ws.map ([·])) = .ok (px.map ([·])) ∧
      List.Forall₂ SameShape px x ∧
      paired x px dx = paired (e.outputs.map c) ws (e.outputs.map d) := by
  have wf := here.wellFormed
  have count : ws.length = e.outputs.length := by
    rw [weighted.length_eq, List.length_map]
  rw [List.forall₂_map_right_iff] at weighted
  have shares : List.Forall₂ (fun y (w : List (Value F)) => (c y).Passed w.toArray) e.outputs
      (ws.map ([·])) := by
    rw [List.forall₂_map_right_iff]
    exact weighted.flip.imp fun y w shape => ⟨w, c y, rfl, shape, (SameShape.refl _).fits⟩
  obtain ⟨partials, swept, carries, sum⟩ := reverseWith_spec wf (here.adjoint tangent)
    (here.acceptsReverse count) shares
  have inside : ∀ j < e.numInputs, j < e.tape.size := fun j input =>
    lt_of_lt_of_le input wf.tape.inputs_le
  -- what an input has gathered is brought to its shape
  have each : ∀ j, ∃ w : Value F, j < e.numInputs → w.SameShape (c j) ∧
      (do
        let x0 ← e.table.coeff j 0 0
        (← fetch partials j).toList.mapM fun p => Base.broadcastLike (Base.reduceLike p x0) x0) =
        .ok [w] ∧ weigh (c j) (d j) ((partials[j]?).getD #[]) = dot (c j) w (d j) := by
    intro j
    by_cases input : j < e.numInputs
    · obtain ⟨p, there, held⟩ := carries.exists_partials (inside j input)
      obtain ⟨u, rfl, _⟩ := id held
      obtain ⟨w, spread, shape, parts⟩ := broadcastLike_fits held.fits
      refine ⟨w, fun _ => ⟨shape, ?_, ?_⟩⟩
      · rw [here.coeff (inside j input), ok_bind, fetch_eq_ok_iff.2 there, ok_bind]
        show [u].mapM _ = _
        have brought : Base.broadcastLike (Base.reduceLike u (c j)) (c j) = .ok w := by
          show (u.reduceLike (c j)).broadcastLike (c j) = .ok w
          rw [reduceLike_fits held.fits, spread]
        rw [List.mapM_cons, brought]
        rfl
      · rw [there, Option.getD_some, weigh_of_fits held.fits]
        exact dot_congr fun k low => by rw [parts k low]
    · exact ⟨.scalar 0, fun input' => absurd input' input⟩
  choose w shaped using each
  have below : ∀ {j}, j ∈ List.range e.numInputs → j < e.numInputs := List.mem_range.1
  refine ⟨(List.range e.numInputs).map w, ?_, ?_, ?_⟩
  · rw [reverse, swept, received, List.map_map]
    exact mapM_eq_map fun j member => (shaped j (below member)).2.1
  · rw [here.inputs_eq, List.forall₂_map_left_iff, List.forall₂_map_right_iff, List.forall₂_same]
    exact fun j member => (shaped j (below member)).1
  · have weights := sum_weigh (d := d) (weighted.flip.imp fun _ _ => SameShape.fits)
    rw [List.zipWith_map_right] at weights sum
    calc paired x ((List.range e.numInputs).map w) dx
        = ∑ j ∈ Finset.range e.numInputs, dot (c j) (w j) (d j) := by
          rw [here.inputs_eq, here.direction_eq tangent fits, paired_map]
          rfl
      _ = carried (fun v p => weigh (c v) (d v) p) partials (Finset.range e.numInputs) :=
          Finset.sum_congr rfl fun j member => ((shaped j (Finset.mem_range.1 member)).2.2).symm
      _ = paired (e.outputs.map c) ws (e.outputs.map d) := sum.trans weights

private theorem reverse (here : e.AtPoint x c) {ws : List (Value F)}
    (weighted : List.Forall₂ SameShape ws (e.outputs.map c)) :
    ∃ px : List (Value F), e.reverse 1 (ws.map ([·])) = .ok (px.map ([·])) ∧
      List.Forall₂ SameShape px x ∧
      ∀ dx d, List.Forall₂ Value.Fits dx x → e.tape.Tangent c dx d →
        paired x px dx = paired (e.outputs.map c) ws (e.outputs.map d) := by
  have still : List.Forall₂ Value.Fits (x.map fun _ => .scalar 0) x := by
    rw [List.forall₂_map_left_iff, List.forall₂_same]
    exact fun u _ => .scalar 0 u
  obtain ⟨_, _, _, _, _, _, tangent⟩ := here.forwardOne still
  obtain ⟨px, done, shapes, _⟩ := here.reverse_along tangent still weighted
  refine ⟨px, done, shapes, fun dx d fits tangent' => ?_⟩
  obtain ⟨px', done', _, same⟩ := here.reverse_along tangent' fits weighted
  have unique : px.map ([·]) = px'.map ([·]) := Except.ok.inj (done.symm.trans done')
  rwa [List.map_injective_iff.2 (fun _ _ => List.head_eq_of_cons_eq) unique]

private theorem agreeBelow (here : e.AtPoint x c) {e' : Evaluator (Value F)}
    (here' : e'.AtPoint x c)
    (tape : e'.tape = e.tape) (outputs : e'.outputs = e.outputs) : AgreeBelow 1 e e' where
  tape := tape
  outputs := outputs
  orders := here.orders
  orders' := here'.orders
  directions higher := absurd higher (lt_irrefl 1)
  values v var k low d _ := by
    obtain rfl := Nat.lt_one_iff.1 low
    exact (here'.values v (tape ▸ var)).trans (here.values v var).symm

private theorem columns (here : e.AtPoint x c) (js : List Nat) (g : Nat → List (Value F))
    (fits : ∀ j ∈ js, List.Forall₂ Value.Fits (g j) x) :
    ∃ cols e', (js.mapM fun j => Evaluator.forwardOne (g j)) e = (.ok cols, e') ∧
      List.Forall₂ (fun j col => ∃ d, e.tape.Tangent c (g j) d ∧ col = e.outputs.map d) js cols := by
  induction js generalizing e with
  | nil => exact ⟨[], e, rfl, .nil⟩
  | cons j js ih =>
    obtain ⟨e₁, d, swept, there, tape, outputs, tangent⟩ :=
      here.forwardOne (fits j List.mem_cons_self)
    obtain ⟨cols, e₂, later, each⟩ := ih there fun k member => fits k (List.mem_cons_of_mem j member)
    rw [tape, outputs] at each
    refine ⟨e.outputs.map d :: cols, e₂, ?_, .cons ⟨d, tangent, rfl⟩ each⟩
    rw [List.mapM_cons, run_bind_ok swept, run_bind_ok later]
    rfl

/-- Where inputs and outputs are scalars, the rows that reverse sweeps give are those of the columns
that forward sweeps give. -/
private theorem rows (here : e.AtPoint x c) {xs ys : List F} (inputs : x = xs.map scalar)
    (outputs : e.outputs.map c = ys.map scalar) {cols : List (List (Value F))}
    (swept : List.Forall₂ (fun j col => ∃ d, e.tape.Tangent c (unit e.numInputs j) d ∧
      col = e.outputs.map d) (List.range e.numInputs) cols) :
    ∃ rows, e.reverseRows = .ok rows ∧ rowsOfColumns e.numOutputs cols = .ok rows := by
  have arity : xs.length = e.numInputs := by
    rw [← here.arity, inputs, List.length_map]
  have count : ys.length = e.numOutputs := by
    rw [← List.length_map (f := scalar), ← outputs, List.length_map]
    rfl
  -- the row of an output
  have each : ∀ i, ∃ row : List (Value F), i < e.numOutputs →
      (do lowest (← e.reverse 1 ((unit e.numOutputs i).map fun w => [w]))) = .ok row ∧
        cols.mapM (fun col => pick col i) = .ok row := by
    intro i
    by_cases below : i < e.numOutputs
    · obtain ⟨px, done, shapes, same⟩ := here.reverse (outputs ▸ unit_sameShape count i)
      refine ⟨px, fun _ => ⟨?_, ?_⟩⟩
      · rw [done, ok_bind, lowest, List.mapM_map]
        exact (mapM_eq_map fun _ _ => rfl).trans (congrArg _ (List.map_id px))
      · have length : px.length = e.numInputs := shapes.length_eq.trans here.arity
        rw [mapM_eq_ok, List.forall₂_iff_get]
        refine ⟨by rw [← swept.length_eq, List.length_range, length], fun k low high => ?_⟩
        have input : k < e.numInputs := length ▸ high
        have column := (List.forall₂_iff_get.1 swept).2 k (by simpa using input) low
        simp only [List.get_eq_getElem, List.getElem_range] at column ⊢
        obtain ⟨d, tangent, col⟩ := column
        have unit := (unit_sameShape arity k).imp fun _ _ => SameShape.fits
        have entry : (e.outputs.map d)[i]? = some (scalar
            (paired (ys.map scalar) (e.outputs.map d) (Evaluator.unit ys.length i))) := by
          refine paired_unit ?_ (count ▸ below)
          rw [← outputs, List.forall₂_map_left_iff, List.forall₂_map_right_iff, List.forall₂_same]
          exact fun y member => tangent.fits y (here.wellFormed.outputs y member)
        have entry' := paired_unit (inputs ▸ shapes.imp fun _ _ => SameShape.fits) (arity ▸ input)
        have paired := same _ d (inputs ▸ unit) tangent
        rw [pick_eq_ok_iff, col, entry, paired_comm, count, ← outputs, ← paired, inputs, ← arity,
          ← entry', List.getElem?_eq_getElem high]
    · exact ⟨[], fun below' => absurd below' below⟩
  choose row found using each
  refine ⟨(List.range e.numOutputs).map row, ?_, ?_⟩
  · exact mapM_eq_map fun i member => (found i (List.mem_range.1 member)).1
  · exact mapM_eq_map fun i member => (found i (List.mem_range.1 member)).2

end AtPoint

/-- From a point at which an order-zero sweep succeeds the sweep of order one along a direction and
the reverse sweep from some weights are transposes of each other; where inputs and outputs are
scalars, both ways to a Jacobian therefore give the same. -/
theorem first_order_transposed {e e' : Evaluator (Value F)} {x ys : List (Value F)}
    (recorded : e.RecordedOfBuiltIns) (point : forwardZero x e = (.ok ys, e')) :
    (∀ dx ws, List.Forall₂ Value.Fits dx x → List.Forall₂ Value.SameShape ws ys →
      ∃ dy e'' px t, forwardOne dx e' = (.ok dy, e'') ∧
        e'.reverse 1 (ws.map ([·])) = .ok (px.map ([·])) ∧
        e''.reverse 1 (ws.map ([·])) = .ok (px.map ([·])) ∧
        inners ys ws dy = .ok t ∧ inners x px dx = .ok t) ∧
    ((∀ u ∈ x ++ ys, u.isScalar = true) → ∃ rows, (jacobianForward x e).1 = .ok rows ∧
      (jacobianReverse x e).1 = .ok rows ∧ (jacobian x e).1 = .ok rows) := by
  have wf := recorded.recorded.wellFormed
  obtain ⟨c, here, tape, outputs, rfl⟩ := atPoint_of_forwardZero wf recorded.onlyBuiltIns point
  refine ⟨fun dx ws along weighted => ?_, fun scalars => ?_⟩
  · rw [← outputs] at weighted ⊢
    obtain ⟨e'', d, swept, there, tape', outputs', tangent⟩ := here.forwardOne along
    obtain ⟨px, done, shapes, same⟩ := here.reverse weighted
    have agree := here.agreeBelow there tape' outputs'
    have fits : List.Forall₂ Value.Fits (e'.outputs.map d) (e'.outputs.map c) := by
      rw [List.forall₂_map_left_iff, List.forall₂_map_right_iff, List.forall₂_same]
      exact fun y member => tangent.fits y (here.wellFormed.outputs y member)
    refine ⟨_, e'', px, _, swept, done, ?_, inners_eq (weighted.imp fun _ _ => SameShape.fits) fits,
      ?_⟩
    · rw [← done]
      have count : ws.length = e'.outputs.length := by
        rw [weighted.length_eq, List.length_map]
      exact (agree.reverseWith here.wellFormed there.wellFormed (here.acceptsReverse count)
        (there.acceptsReverse (outputs' ▸ count)) Base.isAllZero).symm
    · rw [inners_eq (shapes.imp fun _ _ => SameShape.fits) along, same dx d along tangent]
  · obtain ⟨xs, inputs⟩ := exists_scalars_of fun u member => scalars u (List.mem_append_left _ member)
    obtain ⟨zs, outs⟩ := exists_scalars_of fun u member => scalars u (List.mem_append_right _ member)
    rw [← outputs] at outs
    have arity : xs.length = e'.numInputs := by
      rw [← here.arity, inputs, List.length_map]
    obtain ⟨cols, e'', swept, each⟩ := here.columns (List.range e'.numInputs)
      (unit e'.numInputs) fun j _ =>
        inputs ▸ (unit_sameShape arity j).imp fun _ _ => SameShape.fits
    obtain ⟨rows, reversed, collected⟩ := here.rows inputs outs each
    have counts : e'.numInputs = e.numInputs ∧ e'.numOutputs = e.numOutputs :=
      ⟨congrArg Tape.numInputs tape, congrArg List.length outputs⟩
    have forward : (jacobianForward x e).1 = .ok rows := by
      rw [counts.1] at swept
      rw [counts.2] at collected
      unfold jacobianForward
      rw [run_bind_ok (run_get e), run_bind_ok point, run_bind_ok swept, run_lift, collected]
    have reverse : (jacobianReverse x e).1 = .ok rows := by
      unfold jacobianReverse
      rw [run_bind_ok point, run_bind_ok (run_get e'), run_lift, reversed]
    refine ⟨rows, forward, reverse, ?_⟩
    unfold jacobian
    rw [run_bind_ok (run_get e)]
    by_cases few : e.numInputs ≤ e.numOutputs
    · rw [if_pos few, forward]
    · rw [if_neg few, reverse]

/-- A product of an array with a scalar, at a point with an array of another length and at a point
of scalars. -/
theorem first_order_transposed_mul :
    ∃ (f : Program.Frozen (Value ℝ)) (ys : List (Value ℝ)) (e' : Evaluator (Value ℝ)),
      Program.freeze Registry.builtins 7 [.array [1, 2], .scalar 3] [.binary .mul 0 1] [2] = .ok f ∧
      forwardZero [.array [4, 5, 6], .scalar 2] f.evaluator = (.ok ys, e') ∧
      (∃ dy e'' px t, forwardOne [.array [1, 0, 0], .scalar 1] e' = (.ok dy, e'') ∧
        e'.reverse 1 [[.array [1, 1, 1]]] = .ok (px.map ([·])) ∧
        e''.reverse 1 [[.array [1, 1, 1]]] = .ok (px.map ([·])) ∧
        inners ys [.array [1, 1, 1]] dy = .ok t ∧
        inners [.array [4, 5, 6], .scalar 2] px [.array [1, 0, 0], .scalar 1] = .ok t) ∧
      ∃ rows, (jacobianForward [.scalar 4, .scalar 5] f.evaluator).1 = .ok rows ∧
        (jacobianReverse [.scalar 4, .scalar 5] f.evaluator).1 = .ok rows ∧
        (jacobian [.scalar 4, .scalar 5] f.evaluator).1 = .ok rows := by
  let tape : Tape (Value ℝ) := {
    id := 7
    nodes := #[⟨.input, .array [1, 2]⟩, ⟨.input, .scalar 3⟩, ⟨.binary .mul 0 1, .array [1 * 3, 2 * 3]⟩]
    numInputs := 2
    atomics := #[] }
  have frozen : Program.freeze Registry.builtins 7 [.array [1, 2], .scalar 3] [.binary .mul 0 1]
      [2] = .ok ⟨[.array [1 * 3, 2 * 3]], [.binary .mul 0 1], .ofTape tape [2]⟩ := rfl
  have recorded : (Evaluator.ofTape tape [2]).RecordedOfBuiltIns :=
    ⟨_, 7, _, _, [2], _, Registry.builtins_faithful, by simp [Step.Foreign],
      by simp [Step.CallsBuiltIns], frozen, .refl⟩
  obtain ⟨e', point⟩ : ∃ e', forwardZero [.array [4, 5, 6], .scalar 2] (.ofTape tape [2]) =
      (.ok [.array [4 * 2, 5 * 2, 6 * 2]], e') := ⟨_, rfl⟩
  obtain ⟨e₁, point₁⟩ : ∃ e₁, forwardZero [.scalar 4, .scalar 5] (.ofTape tape [2]) =
      (.ok [.scalar (4 * 5)], e₁) := ⟨_, rfl⟩
  refine ⟨_, _, e', frozen, point, ?_, (first_order_transposed recorded point₁).2 ?_⟩
  · exact (first_order_transposed recorded point).1
      [.array [1, 0, 0], .scalar 1] [.array [1, 1, 1]]
      (.cons (.array rfl) (.cons (.scalar _ _) .nil)) (.cons (.array rfl) .nil)
  · simp [Value.isScalar]

end Evaluator

end TaylorTape
