import TaylorTape.Proofs.Pairing
import TaylorTape.Proofs.Pullback
import TaylorTape.Proofs.ScalarSeeds
import TaylorTape.Proofs.VectorPrograms

/-!
A tape of calls does the same at every order.

A built-in computes every order of its results as it computes their order zero, from coefficients
that stand for arrays of the same shapes.  So the coefficients of an order on a tape of calls are a
solution of the tape, at the seeds of that order, written out, in the place of the point.  What comes
back in a reverse sweep is paired with such solutions at every order by itself.
-/

set_option autoImplicit false
set_option relaxedAutoImplicit false

namespace TaylorTape

open Value

namespace Value

section Shapes

variable {F : Type} {s t u v : Value F}

private theorem Fits.antisymm (fits : u.Fits v) (fits' : v.Fits u) : u.SameShape v := by
  cases fits with
  | scalar x =>
    obtain ⟨y, rfl⟩ := fits'.exists_scalar
    exact .scalar x y
  | array same => exact .array same

private theorem broadcastLike_sameShape (shape : s.SameShape t) (u : Value F) :
    u.broadcastLike s = u.broadcastLike t := by
  cases shape with
  | scalar x y => cases u <;> rfl
  | array same =>
    show (u.broadcastTo _).map _ = (u.broadcastTo _).map _
    rw [same]

end Shapes

variable {F : Type} [ExactScalar F] {s u v : Value F}

theorem dot_scale (left : u.Fits s) (right : v.Fits s) (m : F) :
    dot s (u.scale m) v = dot s u (v.scale m) := by
  refine Finset.sum_congr rfl fun e member => ?_
  have inside := Finset.mem_range.1 member
  rw [Value.scale, Value.scale, component_map _ left inside, component_map _ right inside]
  ring

/-- One at a position of a shape and zero everywhere else. -/
def spike (s : Value F) (e : Nat) : Value F :=
  match s with
  | .scalar _ => .scalar 1
  | .array xs => .array ((List.range xs.length).map fun k => if k = e then 1 else 0)

private theorem spike_sameShape (s : Value F) (e : Nat) : (s.spike e).SameShape s := by
  cases s with
  | scalar x => exact .scalar 1 x
  | array xs => exact .array (by simp)

private theorem dot_spike {e : Nat} (inside : e < s.length) :
    dot s u (s.spike e) = u.component e := by
  have parts : ∀ k < s.length, (s.spike e).component k = if k = e then 1 else 0 := by
    intro k low
    cases s with
    | scalar x =>
      rw [Nat.lt_one_iff.1 low, Nat.lt_one_iff.1 inside]
      exact (if_pos rfl).symm
    | array xs =>
      have room : k < xs.length := low
      rw [spike, component_array (by simpa using room), List.getElem_map, List.getElem_range]
  rw [dot, Finset.sum_congr rfl fun k member => by rw [parts k (Finset.mem_range.1 member)]]
  simp [inside]

private theorem carried_of_dot (left : u.Fits s) (right : v.Fits s)
    (same : ∀ d : Value F, d.SameShape s → dot s u d = dot s v d) :
    s.Carried False False False u v := by
  refine ⟨left, right, fun e inside => ?_, False.elim, False.elim, False.elim⟩
  rw [← dot_spike inside, ← dot_spike inside, same _ (spike_sameShape s e)]

private theorem dot_still (s u : Value F) : dot s u (s.scale 0) = 0 := by
  refine Finset.sum_eq_zero fun e member => ?_
  rw [Value.scale, component_map _ (SameShape.refl s).fits (Finset.mem_range.1 member), mul_zero,
    mul_zero]

private theorem paired_still (ss us : List (Value F)) : paired ss us (ss.map (·.scale 0)) = 0 := by
  induction ss generalizing us with
  | nil => rfl
  | cons s ss ih =>
    cases us with
    | nil => rfl
    | cons u us =>
      show dot s u (s.scale 0) + paired ss us (ss.map (·.scale 0)) = 0
      rw [dot_still, ih, add_zero]

theorem all_carried_of_paired {ss us vs : List (Value F)} (left : List.Forall₂ Fits us ss)
    (right : List.Forall₂ Fits vs ss)
    (same : ∀ ds, List.Forall₂ SameShape ds ss → paired ss us ds = paired ss vs ds) :
    AllThree (·.Carried False False False) ss us vs := by
  induction left generalizing vs with
  | nil =>
    cases right
    exact .nil
  | @cons u s us ss first _ ih =>
    obtain ⟨v, vs, first', rest', rfl⟩ := List.forall₂_cons_right_iff.1 right
    have split : ∀ (u d : Value F) (us ds : List (Value F)),
        paired (s :: ss) (u :: us) (d :: ds) = dot s u d + paired ss us ds := fun _ _ _ _ => rfl
    refine .cons (carried_of_dot first first' fun d shape => ?_) (ih rest' fun ds shapes => ?_)
    · have still : List.Forall₂ SameShape (ss.map (·.scale 0)) ss := by
        rw [List.forall₂_map_left_iff, List.forall₂_same]
        exact fun t _ => .map _ t
      have whole := same _ (.cons shape still)
      rwa [split, split, paired_still, paired_still, add_zero, add_zero] at whole
    · have whole := same _ (.cons (SameShape.map (· * 0) s) shapes)
      rw [split, split] at whole
      rwa [show dot s u (s.map (· * 0)) = 0 from dot_still s u,
        show dot s v (s.map (· * 0)) = 0 from dot_still s v, zero_add, zero_add] at whole

end Value

namespace BuiltIn

variable {F : Type} [ExactScalar F] {b : BuiltIn} {x0 x1 y0 y1 : List (Value F)}

private theorem step_sameShape {xk yk : List (Value F)} (done : b.step x0 xk = .ok yk)
    (shapes : List.Forall₂ SameShape x1 x0) : b.step x1 xk = .ok yk := by
  cases b with
  | pack => exact done
  | sum =>
    obtain ⟨x, y, v, rfl, rfl, spread, rfl⟩ := step_sum_eq_ok.1 done
    obtain ⟨x', rfl, shape⟩ := exists_of_forall₂_single shapes
    exact step_sum_eq_ok.2 ⟨x', y, v, rfl, rfl, (broadcastLike_sameShape shape y).trans spread, rfl⟩
  | concat =>
    obtain ⟨x, x', y, y', head, tail, v, rfl, rfl, first, second, joined, rfl⟩ :=
      step_concat_eq_ok.1 done
    obtain ⟨z, _, shape, others, rfl⟩ := List.forall₂_cons_right_iff.1 shapes
    obtain ⟨z', rfl, shape'⟩ := exists_of_forall₂_single others
    have count : Base.length z = Base.length x := shape.length_eq
    have count' : Base.length z' = Base.length x' := shape'.length_eq
    exact step_concat_eq_ok.2 ⟨z, z', y, y', head, tail, v, rfl, rfl, count ▸ first,
      count' ▸ second, joined, rfl⟩
  | flip =>
    obtain ⟨x, y, v, rfl, rfl, turned, rfl⟩ := step_flip_eq_ok.1 done
    obtain ⟨x', rfl, _⟩ := exists_of_forall₂_single shapes
    exact step_flip_eq_ok.2 ⟨x', y, v, rfl, rfl, turned, rfl⟩
  | make n =>
    obtain ⟨x, y, e, v, rfl, rfl, read, made, rfl⟩ := step_make_eq_ok.1 done
    obtain ⟨x', rfl, _⟩ := exists_of_forall₂_single shapes
    exact step_make_eq_ok.2 ⟨x', y, e, v, rfl, rfl, read, made, rfl⟩
  | unpack n =>
    obtain ⟨x, y, row, rfl, rfl, length, expanded, rfl⟩ := step_unpack_eq_ok.1 done
    obtain ⟨x', rfl, shape⟩ := exists_of_forall₂_single shapes
    exact step_unpack_eq_ok.2 ⟨x', y, row, rfl, rfl, shape.length_eq.trans length, expanded, rfl⟩

private theorem step_along (here : b.step x0 x0 = .ok y0) (there : b.step x1 x1 = .ok y1)
    (shapes : List.Forall₂ SameShape x1 x0) :
    b.step x0 x1 = .ok y1 ∧ List.Forall₂ SameShape y1 y0 := by
  have along : b.step x0 x1 = .ok y1 :=
    step_sameShape there (shapes.flip.imp fun _ _ => SameShape.symm)
  have back : b.step x1 x0 = .ok y0 := step_sameShape here shapes
  obtain ⟨y, done, fits, _⟩ := b.pairs here x1 (shapes.imp fun _ _ => SameShape.fits)
  obtain rfl := Except.ok.inj (along.symm.trans done)
  obtain ⟨y, done', fits', _⟩ := b.pairs there x0 (shapes.flip.imp fun _ _ shape => shape.symm.fits)
  obtain rfl := Except.ok.inj (back.symm.trans done')
  refine ⟨along, List.forall₂_iff_get.2 ⟨fits.length_eq, fun i low high => ?_⟩⟩
  exact ((List.forall₂_iff_get.1 fits).2 i low high).antisymm
    ((List.forall₂_iff_get.1 fits').2 i high low)

end BuiltIn

namespace Tape

variable {F : Type} [ExactScalar F] {tape : Tape (Value F)} {x y : List (Value F)}
  {c d : Nat → Value F}

private theorem Solves.call_along (builtIns : tape.OnlyBuiltIns) (solves : tape.Solves x c)
    (solves' : tape.Solves y d) {i place n : Nat} {args : List Nat}
    (found : tape.entry i = .ok (.call place args n)) (same : ∀ a ∈ args, (d a).SameShape (c a)) :
    ∃ r b, tape.atomics[place]? = some r ∧ r.op = BuiltIn.atomic b ∧
      b.step (args.map c) (args.map c) = .ok ((List.range' i n).map c) ∧
      b.step (args.map c) (args.map d) = .ok ((List.range' i n).map d) ∧
      ∀ v ∈ List.range' i n, (d v).SameShape (c v) := by
  obtain ⟨r, there, builtIn⟩ := builtIns i place args n found
  obtain ⟨b, op, here⟩ := solves.call found there builtIn
  obtain ⟨b', op', here'⟩ := solves'.call found there builtIn
  have here' := BuiltIn.step_of_atomic_eq (op'.symm.trans op) (by simp) here'
  obtain ⟨along, shapes⟩ := BuiltIn.step_along here here' (by
    rw [List.forall₂_map_left_iff, List.forall₂_map_right_iff, List.forall₂_same]
    exact same)
  rw [List.forall₂_map_left_iff, List.forall₂_map_right_iff, List.forall₂_same] at shapes
  exact ⟨r, b, there, op, here, along, shapes⟩

private theorem Solves.sameShape (only : tape.OfCalls) (wf : tape.WellFormed)
    (builtIns : tape.OnlyBuiltIns)
    (solves : tape.Solves x c) (solves' : tape.Solves y d) (shapes : List.Forall₂ SameShape y x) :
    ∀ v < tape.size, (d v).SameShape (c v) := by
  refine wf.induction fun i entry found operand v low high => ?_
  have inside := lt_size_of_entry found
  have kind := only i entry found
  cases entry with
  | const | unary | binary => cases kind
  | input =>
    have high : v < i + 1 := high
    obtain rfl : v = i := by omega
    obtain ⟨room, point⟩ := List.getElem?_eq_some_iff.1 ((solves v inside).input found)
    obtain ⟨room', point'⟩ := List.getElem?_eq_some_iff.1 ((solves' v inside).input found)
    have own := (List.forall₂_iff_get.1 shapes).2 v room' room
    rwa [List.get_eq_getElem, List.get_eq_getElem, point, point'] at own
  | call place args n =>
    obtain ⟨_, _, _, _, _, _, all⟩ := solves.call_along builtIns solves' found operand
    exact all v (List.mem_range'_1.2 ⟨low, high⟩)
  | result owner =>
    have : v < i + 0 := high
    omega

/-- On a tape of calls a family of solutions, at points of one shape, holds as coefficients of all
orders. -/
theorem OfCalls.holds (only : tape.OfCalls) (wf : tape.WellFormed) (builtIns : tape.OnlyBuiltIns)
    {seed : Nat → List (Value F)} {s : Nat → Nat → Value F}
    (solves : ∀ k, tape.Solves (seed k) (s · k))
    (shapes : ∀ k, List.Forall₂ SameShape (seed k) (seed 0)) (k : Nat) :
    ∀ i < tape.size, tape.Holds k (seed k) s i := by
  intro i inside
  have same := (solves 0).sameShape only wf builtIns (solves k) (shapes k)
  obtain ⟨⟨entry, value⟩, node⟩ := exists_node inside
  have found := entry_of_node node
  have kind := only i entry found
  refine ⟨entry, found, _, node, ?_⟩
  cases entry with
  | const | unary | binary => cases kind
  | result owner => rfl
  | input => exact ⟨s i k, (solves k i inside).input found, rfl⟩
  | call place args n =>
    obtain ⟨r, b, there, op, _, along, _⟩ := (solves 0).call_along builtIns (solves k) found
      fun a reads => same a (wf.operand_lt found reads)
    intro r' there' _
    obtain rfl := Option.some.inj (there.symm.trans there')
    exact ⟨b, op, along⟩

end Tape

namespace Value

variable {F : Type} [ExactScalar F] {s : Value F} {p t : Series (Value F)} {k q : Nat}

/-- Partials of some orders that a variable of a shape can have. -/
def Takes (s : Value F) (q : Nat) (p : Series (Value F)) : Prop :=
  ∃ f, p = .of f q ∧ ∀ k < q, (f k).Fits s

private theorem value_of_lt {f : Nat → Value F} (low : k < q) : (Series.of f q).value k = f k := by
  rw [Series.value, Series.getElem?_of, if_pos low, Option.getD_some]

omit [ExactScalar F] in
private theorem Takes.size (takes : s.Takes q p) : p.size = q := by
  obtain ⟨f, rfl, _⟩ := takes
  exact Series.size_of f q

private theorem Takes.fits (takes : s.Takes q p) (low : k < q) : (p.value k).Fits s := by
  obtain ⟨f, rfl, fits⟩ := takes
  rw [value_of_lt low]
  exact fits k low

private theorem takes_of_fits (size : p.size = q) (fits : ∀ k < q, (p.value k).Fits s) :
    s.Takes q p :=
  ⟨p.value, Series.eq_of_size size Base.zero, fits⟩

private theorem takes_zeros (s : Value F) (q : Nat) : s.Takes q (Series.zeros q) := by
  refine takes_of_fits (by simp [Series.zeros]) fun k low => ?_
  rw [Series.value, Series.zeros, Array.getElem?_replicate, if_pos low]
  exact .scalar 0 s

private theorem Takes.gathered {e : Evaluator (Value F)} {v : Nat}
    (shape : e.table.coeff v 0 0 = .ok s) (takes : s.Takes q p) (share : s.Takes q t) :
    ∃ sum, e.gathered v p t = .ok sum ∧ s.Takes q sum ∧
      ∀ k < q, ∀ d, dot s (sum.value k) d = dot s (p.value k) d + dot s (t.value k) d := by
  obtain ⟨f, rfl, fits⟩ := takes
  obtain ⟨g, rfl, fits'⟩ := share
  have : Nonempty (Value F) := ⟨.scalar 0⟩
  choose! h added fits'' _ parts using fun k low =>
    zipWith_fits "add" (· + ·) (fits k low) (fits' k low)
  refine ⟨.of h q, ?_, ⟨h, rfl, fits''⟩, fun k low d => ?_⟩
  · rw [Evaluator.gathered, shape, ok_bind, Series.size_of, List.range_eq_range']
    refine foldlM_eq (fun i => .of (fun k => if k < i then h k else f k) q) (by simp)
      (fun i _ high => ?_) (Series.of_congr fun k low => if_pos (by omega))
    have inside : i < q := by omega
    have sum : Base.add (f i) (g i) = .ok (h i) := added i inside
    rw [Series.coeff_of inside, ok_bind, show Base.reduceLike (g i) s = g i from
      reduceLike_fits (fits' i inside), Series.addAt, Series.coeff_of inside, ok_bind,
      if_neg (lt_irrefl i), sum, ok_bind, Series.store_of inside]
    refine congrArg Except.ok (Series.of_congr fun k _ => ?_)
    by_cases same : k = i
    · rw [same, Function.update_self, if_pos (Nat.lt_succ_self i)]
    · rw [Function.update_of_ne same]
      exact if_congr (by omega) rfl rfl
  · rw [value_of_lt low, value_of_lt low, value_of_lt low, dot, dot, dot, ← Finset.sum_add_distrib]
    refine Finset.sum_congr rfl fun e member => ?_
    rw [parts k low e (Finset.mem_range.1 member), add_mul]

private theorem Takes.dot_of_idle (takes : s.Takes q p) (idle : p.all Base.isAllZero = true)
    (low : k < q) (d : Value F) : dot s (p.value k) d = 0 := by
  have inside : k < p.size := takes.size.symm ▸ low
  have zero : Base.isAllZero (p.value k) = true := by
    rw [Series.value, Array.getElem?_eq_getElem inside]
    exact Array.all_eq_true.1 idle k inside
  exact dot_of_isAllZero (takes.fits low) zero

end Value

private theorem BuiltIn.reverse_takes {F : Type} [ExactScalar F] {b : BuiltIn}
    {x0 y0 dx dy : List (Value F)}
    {args adjoints : List (Series (Value F))} {m : Nat} (here : b.step x0 x0 = .ok y0)
    (fits : List.Forall₂ Fits dx x0) (along : b.step x0 dx = .ok dy)
    (long : ∀ s ∈ args, s.size = m + 1) (start : args.map (·.value 0) = x0)
    (takes : List.Forall₂ (fun v p => v.Takes (m + 1) p) y0 adjoints) (ys : List (Series (Value F))) :
    ∃ px, b.atomic.reverse m args ys adjoints = .ok (some px) ∧
      List.Forall₂ (fun v p => v.Takes (m + 1) p) x0 px ∧
      ∀ k < m + 1, paired x0 (px.map (·.value k)) dx = paired y0 (adjoints.map (·.value k)) dy := by
  obtain ⟨dy, done, _, back⟩ := b.pairs here _ fits
  obtain rfl := Except.ok.inj (along.symm.trans done)
  have weights : ∀ k ≤ m, List.Forall₂ Fits (adjoints.map (·.value k)) y0 := fun k low => by
    rw [List.forall₂_map_left_iff]
    exact takes.flip.imp fun p v own => Takes.fits own (Nat.lt_succ_of_le low)
  choose! p passed fits' _ same using fun k low => back _ (weights k low)
  have given : FillsBlock m b.count adjoints := {
    length := takes.length_eq.symm.trans (length_step here)
    orders := fun p member => by
      obtain ⟨v, _, own⟩ := exists_of_mem_forall₂ takes member
      exact Takes.size own }
  have count : args.length = x0.length := by rw [← start, List.length_map]
  obtain ⟨px, returned, filled, values⟩ := reverse_values ys long given
    (fun k low => (fits' k low).length_eq.trans count.symm) (fun k low => start.symm ▸ passed k low)
  refine ⟨px, returned, ?_, fun k low => ?_⟩
  · have lengths : px.length = x0.length := filled.length.trans count
    refine List.forall₂_iff_get.2 ⟨lengths.symm, fun j inside inside' => ?_⟩
    refine takes_of_fits (filled.orders _ (List.get_mem px _)) fun k low => ?_
    have own := fits' k (Nat.le_of_lt_succ low)
    rw [← values k (Nat.le_of_lt_succ low), List.forall₂_map_left_iff] at own
    exact (List.forall₂_iff_get.1 own).2 j inside' inside
  · rw [values k (Nat.le_of_lt_succ low)]
    exact same k (Nat.le_of_lt_succ low)

namespace Evaluator

variable {F : Type} [ExactScalar F] {e : Evaluator (Value F)} {x y : List (Value F)}
  {d : Nat → Value F} {q k : Nat}

private theorem sum_dot (vs : List Nat) (ps : List (Series (Value F))) (s d : Nat → Value F)
    (k : Nat) :
    (List.zipWith (fun v p => dot (s v) (p.value k) (d v)) vs ps).sum =
      paired (vs.map s) (ps.map (·.value k)) (vs.map d) := by
  induction vs generalizing ps with
  | nil => rfl
  | cons v vs ih =>
    cases ps with
    | nil => rfl
    | cons p ps =>
      rw [List.zipWith_cons_cons, List.sum_cons, ih]
      rfl

/-- On a tape of calls the partials of an order are paired with a solution of the tape. -/
private theorem Shaped.adjoint (shaped : e.Shaped q) (only : e.tape.OfCalls)
    (solves : e.tape.Solves x e.shape) (along : e.tape.Solves y d)
    (shapes : List.Forall₂ SameShape y x) (low : k < q) :
    e.Adjoint Base.isAllZero q (fun v p => (e.shape v).Takes q p) (fun v p => (e.shape v).Takes q p)
      (fun v p => dot (e.shape v) (p.value k) (d v)) where
  zeros v _ := by
    refine ⟨takes_zeros _ q, ?_⟩
    rw [Series.value, Series.zeros, Array.getElem?_replicate, if_pos low]
    exact dot_zero_left _ _
  gather v inside p t takes share := by
    obtain ⟨sum, done, takes', adds⟩ := takes.gathered (shaped.coeff inside) share
    exact ⟨sum, done, takes', adds k low (d v)⟩
  const v p found := (only v _ found).elim
  skip v _ p takes idle := takes.dot_of_idle idle low (d v)
  unary i op a pz found := (only i _ found).elim
  binary i op a b pz found := (only i _ found).elim
  call i place args n adjoints found takes _ := by
    have wf := shaped.wellFormed.tape
    have room : i + n ≤ e.tape.size := wf.span_le found
    have below : ∀ a ∈ args, a < e.tape.size := fun a reads => wf.operand_lt found reads
    have same := solves.sameShape only wf shaped.builtIns along shapes
    obtain ⟨r, b, there, op, here, next, _⟩ := solves.call_along shaped.builtIns along found
      fun a reads => same a (below a reads)
    obtain ⟨m, rfl⟩ : ∃ m, q = m + 1 := ⟨q - 1, by omega⟩
    have fits : List.Forall₂ Value.Fits (args.map d) (args.map e.shape) := by
      rw [List.forall₂_map_left_iff, List.forall₂_map_right_iff, List.forall₂_same]
      exact fun a reads => (same a (below a reads)).fits
    have long : ∀ s ∈ args.map fun a => Series.of (e.table.along 0 a) (m + 1), s.size = m + 1 := by
      intro s member
      obtain ⟨a, _, rfl⟩ := List.mem_map.1 member
      exact Series.size_of _ _
    have start : (args.map fun a => Series.of (e.table.along 0 a) (m + 1)).map (·.value 0) =
        args.map e.shape := by
      rw [List.map_map]
      exact List.map_congr_left fun a _ => value_of_lt (Nat.succ_pos m)
    obtain ⟨px, returned, shares, balanced⟩ := BuiltIn.reverse_takes here fits next long start
      (List.forall₂_map_left_iff.2 takes)
      ((List.range' i n).map fun j => Series.of (e.table.along 0 j) (m + 1))
    refine ⟨r, _, _, px, fetch_eq_ok_iff.2 there, ?_, ?_, op ▸ returned,
      List.forall₂_map_left_iff.1 shares, ?_⟩
    · exact mapM_eq_map fun a reads => shaped.series (below a reads)
    · exact mapM_eq_map fun j member => shaped.series (by
        have := List.mem_range'_1.1 member
        omega)
    · rw [sum_dot, sum_dot]
      exact balanced k low

private theorem Shaped.delivered (shaped : e.Shaped q) {j : Nat} {p : Series (Value F)}
    (inside : j < e.tape.size) (takes : (e.shape j).Takes q p) :
    ∃ row : Nat → Value F, e.delivered j p = .ok ((List.range q).map row) ∧
      ∀ k < q, (row k).SameShape (e.shape j) ∧
        ∀ d, dot (e.shape j) (row k) d = dot (e.shape j) (p.value k) d := by
  obtain ⟨f, rfl, fits⟩ := takes
  have : Nonempty (Value F) := ⟨.scalar 0⟩
  choose! row spread shape parts using fun k low => broadcastLike_fits (fits k low)
  refine ⟨row, ?_, fun k low => ⟨shape k low, fun d => ?_⟩⟩
  · rw [Evaluator.delivered, shaped.coeff inside, ok_bind, Series.toList_of, List.mapM_map]
    refine mapM_eq_map fun k member => ?_
    have low := List.mem_range.1 member
    show ((f k).reduceLike (e.shape j)).broadcastLike (e.shape j) = .ok (row k)
    rw [reduceLike_fits (fits k low), spread k low]
  · rw [value_of_lt low]
    exact dot_congr fun i inner => by rw [parts k low i inner]

private theorem Shaped.received_takes (shaped : e.Shaped q) {partials : Array (Series (Value F))}
    (carries : e.Carries (fun v p => (e.shape v).Takes q p) partials) :
    ∃ rows : Nat → Nat → Value F,
      e.received partials = .ok ((List.range e.numInputs).map fun j => (List.range q).map (rows j)) ∧
      ∀ j < e.numInputs, ∀ k < q, (rows j k).SameShape (e.shape j) ∧ ∀ d,
        dot (e.shape j) (rows j k) d = dot (e.shape j) (((partials[j]?).getD #[]).value k) d := by
  have each : ∀ j < e.numInputs, ∃ row : Nat → Value F,
      (do
        let x0 ← e.table.coeff j 0 0
        (← fetch partials j).toList.mapM fun p => Base.broadcastLike (Base.reduceLike p x0) x0) =
        .ok ((List.range q).map row) ∧ ∀ k < q, (row k).SameShape (e.shape j) ∧ ∀ d,
        dot (e.shape j) (row k) d = dot (e.shape j) (((partials[j]?).getD #[]).value k) d := by
    intro j input
    have inside := input.trans_le shaped.wellFormed.tape.inputs_le
    obtain ⟨p, there, takes⟩ := carries.exists_partials inside
    obtain ⟨row, done, spread⟩ := shaped.delivered inside takes
    exact ⟨row, (received_entry there).trans done, by rwa [there]⟩
  have : Nonempty (Nat → Value F) := ⟨fun _ => .scalar 0⟩
  choose! rows done spread using each
  exact ⟨rows, mapM_eq_map fun j member => done j (List.mem_range.1 member), spread⟩

/-- On a tape of calls a reverse sweep is the transpose of the tape at each order by itself. -/
theorem Shaped.reverse_balanced (shaped : e.Shaped q) (only : e.tape.OfCalls)
    (solves : e.tape.Solves x e.shape) (arity : x.length = e.numInputs)
    {weights : List (List (Value F))} (accepts : e.AcceptsReverse q weights)
    (fits : List.Forall₂ (fun v w => ∀ u ∈ w, u.Fits (e.shape v)) e.outputs weights) :
    ∃ rows : Nat → Nat → Value F,
      e.reverse q weights = .ok ((List.range e.numInputs).map fun j => (List.range q).map (rows j)) ∧
      (∀ k < q, List.Forall₂ SameShape ((List.range e.numInputs).map (rows · k)) x) ∧
      ∀ y d, e.tape.Solves y d → List.Forall₂ SameShape y x → ∀ k < q,
        paired x ((List.range e.numInputs).map (rows · k)) y =
          paired (e.outputs.map e.shape) (weights.map fun w => Series.value w.toArray k)
            (e.outputs.map d) := by
  have inputs : x = (List.range e.numInputs).map e.shape :=
    solves.inputs_eq shaped.wellFormed.tape arity
  have shares : List.Forall₂ (fun v w => (e.shape v).Takes q w.toArray) e.outputs weights := by
    have both := (List.forall₂_and_left (p := (·.length = q)) _ _).2 ⟨accepts.lengths, fits.flip⟩
    refine both.flip.imp ?_
    rintro v w ⟨count, fit⟩
    refine takes_of_fits (by simpa using count) fun k low => ?_
    rw [Series.value, List.getElem?_toArray, List.getElem?_eq_getElem (count.symm ▸ low)]
    exact fit _ (List.getElem_mem _)
  -- the sweep is looked at once for each order and solution, and returns the same every time
  have each : ∀ k < q, ∀ y d, e.tape.Solves y d → List.Forall₂ SameShape y x →
      ∃ rows : Nat → Nat → Value F,
        e.reverse q weights =
          .ok ((List.range e.numInputs).map fun j => (List.range q).map (rows j)) ∧
        (∀ j < e.numInputs, ∀ k < q, (rows j k).SameShape (e.shape j)) ∧
        paired x ((List.range e.numInputs).map (rows · k)) y =
          paired (e.outputs.map e.shape) (weights.map fun w => Series.value w.toArray k)
            (e.outputs.map d) := by
    intro k low y d along same
    obtain ⟨partials, swept, carries, sum⟩ := reverseWith_spec shaped.wellFormed
      (shaped.adjoint only solves along same low) accepts shares
    obtain ⟨rows, done, spread⟩ := shaped.received_takes carries
    refine ⟨rows, swept.trans done, fun j input k low => (spread j input k low).1, ?_⟩
    have weighted := sum_dot e.outputs (weights.map List.toArray) e.shape d k
    rw [List.zipWith_map_right, List.map_map] at weighted
    have seeds : y = (List.range e.numInputs).map d :=
      along.inputs_eq shaped.wellFormed.tape (same.length_eq.trans arity)
    calc paired x ((List.range e.numInputs).map (rows · k)) y
        = ∑ j ∈ Finset.range e.numInputs, dot (e.shape j) (rows j k) (d j) := by
          rw [inputs, seeds, paired_map]
          rfl
      _ = Evaluator.carried (fun v p => dot (e.shape v) (p.value k) (d v)) partials
          (Finset.range e.numInputs) :=
          Finset.sum_congr rfl fun j member => (spread j (Finset.mem_range.1 member) k low).2 (d j)
      _ = paired (e.outputs.map e.shape) (weights.map fun w => Series.value w.toArray k)
          (e.outputs.map d) := sum.trans weighted
  have whole : List.Forall₂ SameShape x x := List.forall₂_same.2 fun v _ => .refl v
  obtain ⟨rows, done, shapes, _⟩ := each 0 shaped.positive x e.shape solves whole
  refine ⟨rows, done, fun k low => ?_, fun y d along same k low => ?_⟩
  · rw [inputs, List.forall₂_map_left_iff, List.forall₂_map_right_iff, List.forall₂_same]
    exact fun j member => shapes j (List.mem_range.1 member) k low
  · obtain ⟨rows', done', _, paired'⟩ := each k low y d along same
    have agree := List.map_inj_left.1 (Except.ok.inj (done.symm.trans done'))
    rw [← paired', List.map_congr_left fun j member =>
      List.map_inj_left.1 (agree j member) k (List.mem_range.2 low)]

end Evaluator

end TaylorTape
