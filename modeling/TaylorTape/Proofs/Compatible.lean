import TaylorTape.Proofs.Program
import TaylorTape.Proofs.Shares

/-!
Values that are compatible with a shape.

A value is compatible with another one if it is a scalar or has its shape.  In every base compatible
values combine without failing, and what comes out is compatible again.  The built-in atomics keep
this in both directions: from arguments that are compatible with those of a call that succeeded they
give results that are compatible with its results, and partials that are compatible with the results
go back to such as are compatible with the arguments.
-/

set_option autoImplicit false
set_option relaxedAutoImplicit false

namespace TaylorTape

namespace Base

section Shapes

variable {B F : Type} [Base B F]

/-- Two values of one shape: both are scalars, or both are arrays of one length. -/
structure SameShape (u s : B) : Prop where
  isScalar : Base.isScalar u = Base.isScalar s
  length : Base.length u = Base.length s

/-- A value that is a scalar, or an array of the length of another one. -/
def Compatible (u s : B) : Prop :=
  Base.isScalar u = true ∨ SameShape u s

variable {s t u v : B}

theorem SameShape.refl (u : B) : SameShape u u :=
  ⟨rfl, rfl⟩

theorem SameShape.symm (same : SameShape u v) : SameShape v u :=
  ⟨same.isScalar.symm, same.length.symm⟩

theorem SameShape.trans (same : SameShape u v) (same' : SameShape v s) : SameShape u s :=
  ⟨same.isScalar.trans same'.isScalar, same.length.trans same'.length⟩

theorem SameShape.compatible (same : SameShape u s) : Compatible u s :=
  .inr same

theorem Compatible.refl (u : B) : Compatible u u :=
  .inr (.refl u)

theorem Compatible.trans (compatible : Compatible u s) (compatible' : Compatible s t) :
    Compatible u t := by
  rcases compatible with scalar | same
  · exact .inl scalar
  · rcases compatible' with scalar | same'
    · exact .inl (same.isScalar.trans scalar)
    · exact .inr (same.trans same')

theorem Compatible.isScalar (compatible : Compatible u s) (scalar : Base.isScalar s = true) :
    Base.isScalar u = true :=
  compatible.elim id fun same => same.isScalar.trans scalar

end Shapes

end Base

open Base

/-- A base whose operations respect shapes. -/
class ShapedBase (B : Type) {F : Type} [Scalar F] [Base B F] : Prop extends LawfulBase B where
  isScalar_ofElem : ∀ x : F, Base.isScalar (Base.ofElem x : B) = true
  map : ∀ (h : F → F) (u : B), SameShape (Base.map h u) u
  zipWith : ∀ (context : String) (h : F → F → F) {u v s : B}, Compatible u s → Compatible v s →
    ∃ w, Base.zipWith context h u v = .ok w ∧ Compatible w s
  compatible_of_zipWith : ∀ {context : String} {h : F → F → F} {u v w : B},
    Base.zipWith context h u v = .ok w → Compatible u w ∧ Compatible v w
  broadcastLike : ∀ {u s : B}, Compatible u s →
    ∃ w, Base.broadcastLike u s = .ok w ∧ SameShape w s
  reduceLike : ∀ {u s t : B}, Compatible u t → Compatible s t → Compatible (Base.reduceLike u s) s
  toList_ofList : ∀ {xs : List F} {v : B}, Base.ofList xs = .ok v → Base.toList v = xs
  ofList_like : ∀ {xs ys : List F} {v : B}, Base.ofList xs = .ok v → ys.length = xs.length →
    ∃ w : B, Base.ofList ys = .ok w ∧ SameShape w v
  ofList_array : ∀ {xs : List F} {s : B}, Base.isScalar s = false → xs.length = Base.length s →
    ∃ w : B, Base.ofList xs = .ok w ∧ SameShape w s

instance {F : Type} [Scalar F] : ShapedBase F where
  isScalar_ofElem _ := rfl
  map _ _ := ⟨rfl, rfl⟩
  zipWith _ _ _ _ _ _ _ := ⟨_, rfl, .inl rfl⟩
  compatible_of_zipWith _ := ⟨.inl rfl, .inl rfl⟩
  broadcastLike _ := ⟨_, rfl, rfl, rfl⟩
  reduceLike _ _ := .inl rfl
  toList_ofList {xs v} done := by
    match xs, done with
    | [x], done => rw [← Except.ok.inj done]; rfl
  ofList_like {xs ys v} done count := by
    match xs, ys, done, count with
    | [x], [y], _, _ => exact ⟨y, rfl, rfl, rfl⟩
  ofList_array array _ := by cases array

namespace Value

variable {F : Type} [Scalar F]

theorem compatible_iff {u s : Value F} : Compatible u s ↔
    u.isScalar = true ∨ ∃ xs ys, u = .array xs ∧ s = .array ys ∧ xs.length = ys.length := by
  cases u with
  | scalar x => exact iff_of_true (.inl rfl) (.inl rfl)
  | array xs =>
    cases s with
    | scalar y =>
      refine iff_of_false ?_ ?_
      · rintro (scalar | same)
        · cases scalar
        · cases same.isScalar
      · rintro (scalar | ⟨_, _, _, array, _⟩)
        · cases scalar
        · cases array
    | array ys =>
      constructor
      · rintro (scalar | same)
        · cases scalar
        · exact .inr ⟨xs, ys, rfl, rfl, same.length⟩
      · rintro (scalar | ⟨_, _, own, array, same⟩)
        · cases scalar
        · obtain rfl := Value.array.inj own
          obtain rfl := Value.array.inj array
          exact .inr ⟨rfl, same⟩

private theorem Compatible.cases {u : Value F} {ys : List F}
    (compatible : Compatible u (.array ys)) :
    (∃ x, u = .scalar x) ∨ ∃ xs, u = .array xs ∧ xs.length = ys.length := by
  rcases compatible_iff.1 compatible with scalar | ⟨xs, _, rfl, array, same⟩
  · cases u with
    | scalar x => exact .inl ⟨x, rfl⟩
    | array xs => cases scalar
  · obtain rfl := Value.array.inj array
    exact .inr ⟨xs, rfl, same⟩

theorem compatible_scalar (x : F) (s : Value F) : Compatible (.scalar x) s :=
  .inl rfl

theorem compatible_array {xs ys : List F} (same : xs.length = ys.length) :
    Compatible (.array xs : Value F) (.array ys) :=
  .inr ⟨rfl, same⟩

end Value

instance {F : Type} [Scalar F] : ShapedBase (Value F) where
  isScalar_ofElem _ := rfl
  map h u := by
    cases u with
    | scalar x => exact ⟨rfl, rfl⟩
    | array xs => exact ⟨rfl, List.length_map _⟩
  zipWith context h {u v s} left right := by
    cases s with
    | scalar z =>
      cases u with
      | array xs => cases left.isScalar rfl
      | scalar x =>
        cases v with
        | array ys => cases right.isScalar rfl
        | scalar y => exact ⟨_, rfl, .inl rfl⟩
    | array zs =>
      rcases Value.Compatible.cases left with ⟨x, rfl⟩ | ⟨xs, rfl, same⟩
      · rcases Value.Compatible.cases right with ⟨y, rfl⟩ | ⟨ys, rfl, same'⟩
        · exact ⟨_, rfl, .inl rfl⟩
        · exact ⟨_, rfl, Value.compatible_array ((List.length_map _).trans same')⟩
      · rcases Value.Compatible.cases right with ⟨y, rfl⟩ | ⟨ys, rfl, same'⟩
        · exact ⟨_, rfl, Value.compatible_array ((List.length_map _).trans same)⟩
        · refine ⟨_, if_pos (same.trans same'.symm), Value.compatible_array ?_⟩
          rw [List.length_zipWith, same, same', Nat.min_self]
  compatible_of_zipWith {context h u v w} done := by
    cases u with
    | scalar x => cases v with
      | scalar y => exact ⟨.inl rfl, .inl rfl⟩
      | array ys =>
        obtain rfl := Except.ok.inj done
        exact ⟨.inl rfl, Value.compatible_array (List.length_map _).symm⟩
    | array xs => cases v with
      | scalar y =>
        obtain rfl := Except.ok.inj done
        exact ⟨Value.compatible_array (List.length_map _).symm, .inl rfl⟩
      | array ys =>
        by_cases same : xs.length = ys.length
        · obtain rfl := Except.ok.inj ((if_pos same).symm.trans done)
          have count : (List.zipWith h xs ys).length = ys.length := by
            rw [List.length_zipWith, same, Nat.min_self]
          exact ⟨Value.compatible_array (same.trans count.symm), Value.compatible_array count.symm⟩
        · exact absurd ((if_neg same).symm.trans done) nofun
  broadcastLike {u s} compatible := by
    cases s with
    | scalar y => cases u with
      | scalar x => exact ⟨_, rfl, rfl, rfl⟩
      | array xs => cases compatible.isScalar rfl
    | array ys =>
      rcases Value.Compatible.cases compatible with ⟨x, rfl⟩ | ⟨xs, rfl, same⟩
      · exact ⟨_, rfl, rfl, List.length_replicate⟩
      · refine ⟨.array xs, ?_, rfl, same⟩
        show ((Value.array xs).broadcastTo ys.length).map Value.array = _
        rw [Value.broadcastTo, if_pos same]
        rfl
  reduceLike {u s t} compatible compatible' := by
    cases u with
    | scalar x => cases s <;> exact .inl rfl
    | array xs => cases s with
      | scalar y => exact .inl rfl
      | array ys =>
        cases t with
        | scalar z => cases compatible.isScalar rfl
        | array zs =>
          rcases Value.Compatible.cases compatible with ⟨_, array⟩ | ⟨_, array, same⟩
          · cases array
          · rcases Value.Compatible.cases compatible' with ⟨_, array'⟩ | ⟨_, array', same'⟩
            · cases array'
            · obtain rfl := Value.array.inj array
              obtain rfl := Value.array.inj array'
              exact Value.compatible_array (same.trans same'.symm)
  toList_ofList done := by
    rw [← Except.ok.inj done]
    rfl
  ofList_like done count := by
    rw [← Except.ok.inj done]
    exact ⟨_, rfl, rfl, count⟩
  ofList_array {xs s} array count := by
    cases s with
    | scalar y => cases array
    | array ys => exact ⟨_, rfl, rfl, count⟩

variable {B F : Type} [Scalar F] [Base B F] [ShapedBase B]

namespace Base

variable {u v s t w : B}

/-- Two values that are compatible with one shape; the grade says nothing. -/
def BothFit (s : B) (_ : Prop) (u u' : B) : Prop :=
  Compatible u s ∧ Compatible u' s

private theorem compatible_ofElem (x : F) (s : B) : Compatible (ofElem x) s :=
  .inl (ShapedBase.isScalar_ofElem x)

private theorem compatible_ofElems {xs : List F} {us : List B} (count : xs.length = us.length) :
    List.Forall₂ Compatible (xs.map Base.ofElem) us := by
  refine List.forall₂_iff_get.2 ⟨(List.length_map _).trans count, fun i _ _ => ?_⟩
  rw [List.get_eq_getElem, List.getElem_map]
  exact compatible_ofElem _ _

theorem Compatible.map (h : F → F) (compatible : Compatible u s) : Compatible (Base.map h u) s :=
  (ShapedBase.map h u).compatible.trans compatible

theorem respected_bothFit (s : B) : Respected (BothFit s) where
  weaken both _ := both
  zero := ⟨compatible_ofElem 0 s, compatible_ofElem 0 s⟩
  map h both := ⟨both.1.map h, both.2.map h⟩
  zipWith context h left right := by
    obtain ⟨w, done, compatible⟩ := ShapedBase.zipWith context h left.1 right.1
    obtain ⟨w', done', compatible'⟩ := ShapedBase.zipWith context h left.2 right.2
    exact ⟨w, w', done, done', compatible, compatible'⟩

omit [Scalar F] [ShapedBase B] in
theorem bothFit_of_compatible {p : Prop} (compatible : Compatible u s) : BothFit s p u u :=
  ⟨compatible, compatible⟩

private theorem length_of_ofList {xs : List F} (done : Base.ofList xs = .ok v) :
    Base.length v = xs.length := by
  rw [Base.length, ShapedBase.toList_ofList done]

omit [Scalar F] [ShapedBase B] in
private theorem Compatible.expand (compatible : Compatible u s) (context : String) :
    ∃ elems, Base.expand context u (Base.length s) = .ok elems := by
  unfold Base.expand
  by_cases scalar : Base.isScalar u = true
  · exact ⟨_, if_pos scalar⟩
  · have same := compatible.resolve_left scalar
    exact ⟨_, (if_neg scalar).trans (if_pos same.length)⟩

omit [Scalar F] [ShapedBase B] in
private theorem scalarElem_of_isScalar (context : String) (scalar : Base.isScalar u = true) :
    Base.scalarElem context u = .ok (Base.sum u) :=
  if_pos scalar

omit [Scalar F] [ShapedBase B] in
private theorem isScalar_of_scalarElem {context : String} {x : F}
    (done : Base.scalarElem context u = .ok x) : Base.isScalar u = true := by
  by_contra array
  exact absurd ((if_neg array).symm.trans done) nofun

private theorem exists_shapedLike {elems : List F} (count : elems.length = Base.length s) :
    ∃ w, Base.shapedLike elems s = .ok w ∧ Compatible w s := by
  cases scalar : Base.isScalar s with
  | true => exact ⟨_, if_pos scalar, compatible_ofElem _ s⟩
  | false =>
    obtain ⟨w, done, same⟩ := ShapedBase.ofList_array scalar count
    exact ⟨w, (if_neg (by simp [scalar])).trans done, same.compatible⟩

private theorem exists_flipped (u : B) : ∃ w, Atomic.flipped u = .ok w ∧ SameShape w u := by
  unfold Atomic.flipped
  by_cases scalar : Base.isScalar u = true
  · exact ⟨u, if_pos scalar, .refl u⟩
  · have count : (Base.toList u).reverse.length = Base.length u := List.length_reverse
    obtain ⟨w, done, same⟩ := ShapedBase.ofList_array (by simpa using scalar) count
    exact ⟨w, (if_neg scalar).trans done, same⟩

omit [Scalar F] [ShapedBase B] in
private theorem exists_scalarElems (context : String) {us : List B}
    (scalars : ∀ u ∈ us, Base.isScalar u = true) :
    ∃ xs, us.mapM (Base.scalarElem context) = .ok xs ∧ xs.length = us.length :=
  ⟨us.map Base.sum, mapM_eq_map fun u member => scalarElem_of_isScalar context (scalars u member),
    List.length_map _⟩

omit [Scalar F] [ShapedBase B] in
private theorem isScalar_of_scalarElems {context : String} {us : List B} {xs : List F}
    (done : us.mapM (Base.scalarElem context) = .ok xs) : ∀ u ∈ us, Base.isScalar u = true := by
  intro u member
  obtain ⟨i, below, rfl⟩ := List.getElem_of_mem member
  exact isScalar_of_scalarElem ((List.forall₂_iff_get.1 (mapM_eq_ok.1 done)).2 i below
    ((length_of_mapM done).symm ▸ below))

end Base

namespace BuiltIn

variable {x0 y0 : List B}

/-- A call keeps shapes both ways: it succeeds on what is compatible with its arguments, with results
that are compatible with its own; and partials that are compatible with its results go back to the
arguments, and what comes out is compatible with these. -/
structure KeepsShapes (b : BuiltIn) (x0 y0 : List B) : Prop where
  forth : ∀ {xk : List B}, List.Forall₂ Compatible xk x0 →
    ∃ yk, b.step x0 xk = .ok yk ∧ List.Forall₂ Compatible yk y0
  back : ∀ {ws : List B}, List.Forall₂ Compatible ws y0 →
    ∃ px, b.back x0 ws = .ok px ∧ List.Forall₂ Compatible px x0

private theorem keepsShapes_sum (start : sum.step x0 x0 = .ok y0) : sum.KeepsShapes x0 y0 := by
  obtain ⟨x, _, _, rfl, _, _, rfl⟩ := step_sum_eq_ok.1 start
  constructor
  · intro xk args
    obtain ⟨y, rfl, fits⟩ := exists_of_forall₂_single args
    obtain ⟨w, spread, _⟩ := ShapedBase.broadcastLike fits
    exact ⟨_, step_sum_eq_ok.2 ⟨x, y, w, rfl, rfl, spread, rfl⟩,
      .cons (compatible_ofElem _ _) .nil⟩
  · intro ws weights
    obtain ⟨w, rfl, fits⟩ := exists_of_forall₂_single weights
    have scalar : Base.isScalar w = true := fits.isScalar (ShapedBase.isScalar_ofElem _)
    obtain ⟨p, spread, same⟩ := ShapedBase.broadcastLike (u := w) (s := x) (.inl scalar)
    exact ⟨[p], bind_eq_ok.2 ⟨_, scalarElem_of_isScalar _ scalar,
      bind_eq_ok.2 ⟨p, spread, rfl⟩⟩, .cons same.compatible .nil⟩

private theorem keepsShapes_concat (start : concat.step x0 x0 = .ok y0) :
    concat.KeepsShapes x0 y0 := by
  obtain ⟨x, x', _, _, head, tail, v, rfl, ⟨⟩, expanded, expanded', joined, rfl⟩ :=
    step_concat_eq_ok.1 start
  constructor
  · intro xk args
    obtain ⟨y, _, fits, others, rfl⟩ := List.forall₂_cons_right_iff.1 args
    obtain ⟨y', rfl, fits'⟩ := exists_of_forall₂_single others
    obtain ⟨elems, done⟩ := fits.expand "concat argument"
    obtain ⟨elems', done'⟩ := fits'.expand "concat argument"
    have count : (elems ++ elems').length = (head ++ tail).length := by
      rw [List.length_append, List.length_append, length_expand done, length_expand done',
        length_expand expanded, length_expand expanded']
    obtain ⟨w, made, same⟩ := ShapedBase.ofList_like joined count
    exact ⟨[w], step_concat_eq_ok.2 ⟨x, x', y, y', elems, elems', w, rfl, rfl, done, done', made,
      rfl⟩, .cons same.compatible .nil⟩
  · intro ws weights
    obtain ⟨w, rfl, fits⟩ := exists_of_forall₂_single weights
    have total : Base.length v = Base.length x + Base.length x' := by
      rw [length_of_ofList joined, List.length_append, length_expand expanded,
        length_expand expanded']
    obtain ⟨elems, done⟩ := fits.expand "concat adjoint"
    rw [total] at done
    have count := length_expand done
    have first : (elems.take (Base.length x)).length = Base.length x := by
      rw [List.length_take]
      omega
    have second : (elems.drop (Base.length x)).length = Base.length x' := by
      rw [List.length_drop]
      omega
    obtain ⟨p, made, fits⟩ := exists_shapedLike first
    obtain ⟨p', made', fits'⟩ := exists_shapedLike second
    exact ⟨[p, p'], bind_eq_ok.2 ⟨elems, done, bind_eq_ok.2 ⟨p, made,
      bind_eq_ok.2 ⟨p', made', rfl⟩⟩⟩, .cons fits (.cons fits' .nil)⟩

private theorem keepsShapes_flip (start : flip.step x0 x0 = .ok y0) : flip.KeepsShapes x0 y0 := by
  obtain ⟨x, _, v, rfl, ⟨⟩, turned, rfl⟩ := step_flip_eq_ok.1 start
  obtain ⟨v', turned', same⟩ := exists_flipped x
  obtain rfl := Except.ok.inj (turned.symm.trans turned')
  constructor
  · intro xk args
    obtain ⟨y, rfl, fits⟩ := exists_of_forall₂_single args
    obtain ⟨w, done, same'⟩ := exists_flipped y
    exact ⟨[w], step_flip_eq_ok.2 ⟨x, y, w, rfl, rfl, done, rfl⟩,
      .cons ((same'.compatible.trans fits).trans same.symm.compatible) .nil⟩
  · intro ws weights
    obtain ⟨w, rfl, fits⟩ := exists_of_forall₂_single weights
    obtain ⟨p, done, same'⟩ := exists_flipped w
    exact ⟨[p], bind_eq_ok.2 ⟨p, (turned_eq w).trans done, rfl⟩,
      .cons ((same'.compatible.trans fits).trans same.compatible) .nil⟩

private theorem keepsShapes_pack (start : pack.step x0 x0 = .ok y0) : pack.KeepsShapes x0 y0 := by
  obtain ⟨xs, v, read, packed, rfl⟩ := step_pack_eq_ok.1 start
  constructor
  · intro xk args
    have scalars := isScalar_of_scalarElems read
    have scalars' : ∀ u ∈ xk, Base.isScalar u = true := by
      intro u member
      obtain ⟨x, there, fits⟩ := exists_of_mem_forall₂ args.flip member
      exact Compatible.isScalar fits (scalars x there)
    obtain ⟨ys, read', count⟩ := exists_scalarElems "pack argument" scalars'
    have even : ys.length = xs.length := by rw [count, args.length_eq, length_of_mapM read]
    obtain ⟨w, made, same⟩ := ShapedBase.ofList_like packed even
    exact ⟨[w], step_pack_eq_ok.2 ⟨ys, w, read', made, rfl⟩, .cons same.compatible .nil⟩
  · intro ws weights
    obtain ⟨w, rfl, fits⟩ := exists_of_forall₂_single weights
    have total : Base.length v = x0.length := by
      rw [length_of_ofList packed, length_of_mapM read]
    obtain ⟨elems, done⟩ := fits.expand "pack adjoint"
    rw [total] at done
    exact ⟨elems.map Base.ofElem, bind_eq_ok.2 ⟨elems, done, rfl⟩,
      compatible_ofElems (length_expand done)⟩

private theorem keepsShapes_make {n : Nat} (start : (make n).step x0 x0 = .ok y0) :
    (make n).KeepsShapes x0 y0 := by
  obtain ⟨x, _, e, v, rfl, ⟨⟩, read, made, rfl⟩ := step_make_eq_ok.1 start
  constructor
  · intro xk args
    obtain ⟨y, rfl, fits⟩ := exists_of_forall₂_single args
    have scalar := fits.isScalar (isScalar_of_scalarElem read)
    have count : (List.replicate n (Base.sum y)).length = (List.replicate n e).length := by
      rw [List.length_replicate, List.length_replicate]
    obtain ⟨w, done, same⟩ := ShapedBase.ofList_like made count
    exact ⟨[w], step_make_eq_ok.2 ⟨x, y, _, w, rfl, rfl, scalarElem_of_isScalar _ scalar, done,
      rfl⟩, .cons same.compatible .nil⟩
  · intro ws weights
    obtain ⟨w, rfl, fits⟩ := exists_of_forall₂_single weights
    have total : Base.length v = n := by
      rw [length_of_ofList made, List.length_replicate]
    by_cases scalar : Base.isScalar w = true
    · exact ⟨[_], if_pos scalar, .cons (.inl ((ShapedBase.map _ w).isScalar.trans scalar)) .nil⟩
    · have length := (fits.resolve_left scalar).length.trans total
      exact ⟨[_], (if_neg scalar).trans (if_pos length), .cons (compatible_ofElem _ _) .nil⟩

private theorem keepsShapes_unpack {n : Nat} (start : (unpack n).step x0 x0 = .ok y0) :
    (unpack n).KeepsShapes x0 y0 := by
  obtain ⟨x, _, row, rfl, ⟨⟩, length, expanded, rfl⟩ := step_unpack_eq_ok.1 start
  constructor
  · intro xk args
    obtain ⟨y, rfl, fits⟩ := exists_of_forall₂_single args
    obtain ⟨row', expanded'⟩ := fits.expand "unpack argument"
    rw [length] at expanded'
    have count : row'.length = (row.map (Base.ofElem : F → B)).length := by
      rw [List.length_map, length_expand expanded', length_expand expanded]
    exact ⟨_, step_unpack_eq_ok.2 ⟨x, y, row', rfl, rfl, length, expanded', rfl⟩,
      compatible_ofElems count⟩
  · intro ws weights
    have scalars : ∀ w ∈ ws, Base.isScalar w = true := by
      intro w member
      obtain ⟨y, there, fits⟩ := exists_of_mem_forall₂ weights.flip member
      obtain ⟨z, _, rfl⟩ := List.mem_map.1 there
      exact Compatible.isScalar fits (ShapedBase.isScalar_ofElem z)
    obtain ⟨elems, read, count⟩ := exists_scalarElems "unpack adjoint" scalars
    have even : elems.length = Base.length x := by
      rw [count, weights.length_eq, List.length_map, length_expand expanded, length]
    obtain ⟨p, made, fits⟩ := exists_shapedLike even
    exact ⟨[p], bind_eq_ok.2 ⟨elems, read, bind_eq_ok.2 ⟨p, made, rfl⟩⟩, .cons fits .nil⟩

theorem keepsShapes (b : BuiltIn) (start : b.step x0 x0 = .ok y0) : b.KeepsShapes x0 y0 := by
  cases b with
  | sum => exact keepsShapes_sum start
  | concat => exact keepsShapes_concat start
  | flip => exact keepsShapes_flip start
  | pack => exact keepsShapes_pack start
  | make n => exact keepsShapes_make start
  | unpack n => exact keepsShapes_unpack start

end BuiltIn

end TaylorTape
