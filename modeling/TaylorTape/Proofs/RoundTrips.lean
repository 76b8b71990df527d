import TaylorTape.Proofs.Multiples
import TaylorTape.Proofs.Reals

/-!
Built-ins that undo each other.

Taking apart what has been put together, putting together what has been taken apart and turning an
array around twice lead back to the inputs, and the sum of copies is a multiple of what was copied.
So it is at every point, at every order and for what comes back, whatever the lengths are and however
the coefficients are written out.
-/

set_option autoImplicit false
set_option relaxedAutoImplicit false

namespace TaylorTape

open Value

namespace Program

variable {B F : Type} [Scalar F] [Base B F]

/-- A built-in on all inputs and another one on the results. -/
def inTurn (first second : BuiltIn) (n : Nat) : List (Step B) :=
  [.builtIn first (List.range n), .builtIn second (List.range' n first.count)]

/-- The places of the results of the second built-in. -/
def lastResults (first second : BuiltIn) (n : Nat) : List Nat :=
  List.range' (n + first.count) second.count

private theorem gather_block {α : Type} (before xs after : List α) :
    Step.gather (before ++ xs ++ after) (List.range' before.length xs.length) = .ok xs := by
  refine mapM_eq_ok.2 (List.forall₂_iff_get.2 ⟨by simp, fun i _ inside => ?_⟩)
  rw [List.get_eq_getElem, List.get_eq_getElem, List.getElem_range', Nat.one_mul, pick_eq_ok_iff,
    List.append_assoc, List.getElem?_append_right (Nat.le_add_right _ _), Nat.add_sub_cancel_left,
    List.getElem?_append_left inside, List.getElem?_eq_getElem inside]

private theorem evaluate_inTurn [LawfulBase B] {first second : BuiltIn} {x us ws : List B}
    (done : first.eval x = .ok us) (done' : second.eval us = .ok ws) :
    evaluate (inTurn first second x.length) x = .ok (x ++ us ++ ws) ∧
      Step.gather (x ++ us ++ ws) (lastResults first second x.length) = .ok ws := by
  have count : us.length = first.count := BuiltIn.length_step (BuiltIn.step_self_iff.2 done)
  have count' : ws.length = second.count := BuiltIn.length_step (BuiltIn.step_self_iff.2 done')
  have given : Step.gather x (List.range x.length) = .ok x := mapM_pick x
  have between := gather_block x us []
  have last := gather_block (x ++ us) ws []
  rw [List.append_nil, count] at between
  rw [List.append_nil, List.length_append, count, count'] at last
  refine ⟨?_, last⟩
  have head : (Step.builtIn first (List.range x.length)).evaluate x = .ok us :=
    bind_eq_ok.2 ⟨x, given, done⟩
  have next : (Step.builtIn second (List.range' x.length first.count)).evaluate (x ++ us) = .ok ws :=
    bind_eq_ok.2 ⟨us, between, done'⟩
  rw [inTurn, evaluate, head, ok_bind, evaluate, next]
  rfl

private theorem inTurn_ofCalls {first second : BuiltIn} {n : Nat} (positive : 0 < first.count)
    (positive' : 0 < second.count) (some_ : 0 < n) :
    ∀ s ∈ (inTurn first second n : List (Step B)), s.OfCalls := by
  rintro s (_ | ⟨_, _ | ⟨_, none⟩⟩)
  · exact ⟨positive, by simpa using some_.ne'⟩
  · exact ⟨positive', by simpa using positive.ne'⟩
  · cases none

end Program

variable {F : Type} [ExactScalar F] {registry : Registry (Value F)} {n : Nat}

private theorem Program.inTurn_applies {first second : BuiltIn} {x : List (Value F)}
    {kind : List (Value F) → Prop} {m : F} (tape : Nat) (faithful : registry.Faithful)
    (positive : 0 < first.count) (positive' : 0 < second.count) (some_ : 0 < n)
    (closed : ∀ y z, kind y → List.Forall₂ SameShape z y → kind z)
    (arity : ∀ y, kind y → y.length = n)
    (multiple : ∀ y, kind y → ∃ us, first.eval y = .ok us ∧
      second.eval us = .ok (y.map (·.scale m))) (here : kind x) :
    ∃ f, freeze registry tape x (inTurn first second n) (lastResults first second n) = .ok f ∧
      ∀ e, f.evaluator.Later e → e.Applies (·.scale m) kind := by
  refine freeze_applies tape faithful (inTurn_ofCalls positive positive' some_) closed
    (fun y given => (arity y given).trans (arity x here).symm) (fun y given => ?_) here
  obtain ⟨us, done, done'⟩ := multiple y given
  have evaluated := evaluate_inTurn done done'
  rw [arity y given] at evaluated
  exact ⟨_, evaluated⟩

private theorem Value.scale_one : (fun v : Value F => v.scale 1) = fun v => v := by
  funext v
  cases v with
  | scalar x => exact congrArg scalar (mul_one x)
  | array xs =>
    have same : xs.map (· * (1 : F)) = xs := by simp
    exact congrArg array same

private theorem Value.scale_nat (n : Nat) :
    (fun v : Value F => v.scale (n : F)) = fun v => v.map ((n : F) * ·) := by
  funext v
  exact congrArg v.map (funext fun x => mul_comm x n)

section Kinds

variable {F : Type} {n : Nat} {x y : List (Value F)}

/-- A number of scalars. -/
def Value.Scalars (n : Nat) (x : List (Value F)) : Prop :=
  ∃ xs : List F, xs.length = n ∧ x = xs.map scalar

/-- One array of a length. -/
def Value.OneArray (n : Nat) (x : List (Value F)) : Prop :=
  ∃ xs : List F, xs.length = n ∧ x = [.array xs]

private theorem Value.Scalars.length (scalars : Scalars n x) : x.length = n := by
  obtain ⟨xs, count, rfl⟩ := scalars
  rw [List.length_map, count]

private theorem Value.Scalars.of_sameShape (scalars : Scalars n x)
    (shapes : List.Forall₂ SameShape y x) :
    Scalars n y := by
  obtain ⟨xs, count, rfl⟩ := scalars
  obtain ⟨ys, rfl, same⟩ := exists_scalars (shapes.imp fun _ _ => SameShape.fits)
  exact ⟨ys, same.trans count, rfl⟩

private theorem Value.OneArray.of_sameShape (array : OneArray n x)
    (shapes : List.Forall₂ SameShape y x) :
    OneArray n y := by
  obtain ⟨xs, count, rfl⟩ := array
  obtain ⟨v, rfl, shape⟩ := exists_of_forall₂_single shapes
  cases shape with
  | @array ys _ same => exact ⟨ys, same.trans count, rfl⟩

end Kinds

namespace BuiltIn

private theorem pack_unpack {xs : List F} (count : xs.length = n) :
    BuiltIn.pack.eval (xs.map scalar) = .ok [.array xs] ∧
      (BuiltIn.unpack n).eval [.array xs] = .ok (xs.map scalar) := by
  constructor
  · have read : (xs.map scalar).mapM (Base.scalarElem "pack argument") = .ok xs :=
      mapM_scalarElem_eq_ok.2 rfl
    exact step_self_iff.1 (step_pack_eq_ok.2 ⟨xs, .array xs, read, rfl, rfl⟩)
  · exact if_pos count

private theorem flip_flip (v : Value F) : ∃ us, BuiltIn.flip.eval [v] = .ok us ∧
    BuiltIn.flip.eval us = .ok [v] := by
  cases v with
  | scalar x => exact ⟨_, rfl, rfl⟩
  | array xs =>
    refine ⟨_, rfl, ?_⟩
    show Except.ok [Value.array (backwards (backwards xs))] = _
    rw [backwards_eq, backwards_eq, List.reverse_reverse]

private theorem make_sum (n : Nat) (z : F) : ∃ us : List (Value F),
    (BuiltIn.make n).eval [.scalar z] = .ok us ∧ BuiltIn.sum.eval us = .ok [.scalar (z * n)] := by
  refine ⟨[.array (List.replicate n z)], step_self_iff.1 ?_, ?_⟩
  · exact step_make_eq_ok.2 ⟨_, _, z, _, rfl, rfl, rfl, rfl, rfl⟩
  show Except.ok [Value.scalar (Scalar.total (List.replicate n z))] = _
  rw [total_eq, List.sum_replicate, nsmul_eq_mul, mul_comm]

end BuiltIn

namespace Evaluator

open Program

/-- What packs and unpacks, unpacks and packs, or turns around twice returns its seeds at every order
and the weights to its inputs, and the sum of copies returns a multiple of either. -/
theorem round_trips (faithful : registry.Faithful) (tape n : Nat) :
    (1 ≤ n → ∀ x, Scalars n x → ∃ f, freeze registry tape x (inTurn .pack (.unpack n) n)
        (lastResults .pack (.unpack n) n) = .ok f ∧
      ∀ e, f.evaluator.Later e → e.Applies (fun v => v) (Scalars n)) ∧
    (1 ≤ n → ∀ x, OneArray n x → ∃ f, freeze registry tape x (inTurn (.unpack n) .pack 1)
        (lastResults (.unpack n) .pack 1) = .ok f ∧
      ∀ e, f.evaluator.Later e → e.Applies (fun v => v) (OneArray n)) ∧
    (∀ x : List (Value F), x.length = 1 → ∃ f, freeze registry tape x (inTurn .flip .flip 1)
        (lastResults .flip .flip 1) = .ok f ∧
      ∀ e, f.evaluator.Later e → e.Applies (fun v => v) (·.length = 1)) ∧
    ∀ x, Scalars 1 x → ∃ f, freeze registry tape x (inTurn (.make n) .sum 1)
        (lastResults (.make n) .sum 1) = .ok f ∧
      ∀ e, f.evaluator.Later e → e.Applies (fun v => v.map ((n : F) * ·)) (Scalars 1) := by
  have whole : ∀ x : List (Value F), x.map (·.scale 1) = x := fun x => by
    rw [scale_one, List.map_id']
  refine ⟨fun some_ x given => ?_, fun some_ x given => ?_, fun x given => ?_, fun x given => ?_⟩
  · rw [← scale_one]
    refine inTurn_applies tape faithful Nat.one_pos some_ some_ (fun _ _ => Scalars.of_sameShape)
      (fun _ => Scalars.length) (fun y kind => ?_) given
    obtain ⟨xs, count, rfl⟩ := kind
    rw [whole]
    exact ⟨_, BuiltIn.pack_unpack count⟩
  · rw [← scale_one]
    refine inTurn_applies tape faithful some_ Nat.one_pos Nat.one_pos
      (fun _ _ => OneArray.of_sameShape) (fun y kind => ?_) (fun y kind => ?_) given
    · obtain ⟨xs, _, rfl⟩ := kind
      rfl
    · obtain ⟨xs, count, rfl⟩ := kind
      rw [whole]
      exact ⟨_, (BuiltIn.pack_unpack count).symm⟩
  · rw [← scale_one]
    refine inTurn_applies tape faithful Nat.one_pos Nat.one_pos Nat.one_pos
      (fun y z count shapes => shapes.length_eq.trans count) (fun y count => count)
      (fun y count => ?_) given
    obtain ⟨v, rfl⟩ := List.length_eq_one_iff.1 count
    rw [whole]
    exact BuiltIn.flip_flip v
  · rw [← scale_nat]
    refine inTurn_applies tape faithful Nat.one_pos Nat.one_pos Nat.one_pos
      (fun _ _ => Scalars.of_sameShape) (fun _ => Scalars.length) (fun y kind => ?_) given
    obtain ⟨xs, count, rfl⟩ := kind
    obtain ⟨z, rfl⟩ := List.length_eq_one_iff.1 count
    exact BuiltIn.make_sum n z

/-- An array of two elements that is unpacked and packed, along a scalar seed, with a scalar weight
and an array. -/
theorem round_trips_array :
    ∃ (f : Frozen (Value ℝ)) (e₀ e₁ : Evaluator (Value ℝ)) (answers : List (List (List (Value ℝ)))),
      freeze Registry.builtins 7 [.array [1, 2]]
        [.builtIn (.unpack 2) [0], .builtIn .pack [1, 2]] [3] = .ok f ∧
      forwardZero [.array [3, 4]] f.evaluator = (.ok [.array [3, 4]], e₀) ∧
      forwardFrom 1 [[[.scalar 5]]] e₀ = (.ok answers, e₁) ∧
      e₁.reverse 2 [[.scalar 1, .array [6, 7]]] = .ok [[.array [1, 1], .array [6, 7]]] := by
  obtain ⟨f, frozen, applies⟩ := (round_trips (F := ℝ) Registry.builtins_faithful 7 2).2.1
    (by decide) [.array [1, 2]] ⟨[1, 2], rfl, rfl⟩
  obtain ⟨e₀, point, run⟩ := applies _ .refl [.array [3, 4]] ⟨[3, 4], rfl, rfl⟩
  obtain ⟨answers, e₁, done, _, back⟩ := run 1 [[[.scalar 5]]] Nat.one_pos fun seeds member => by
    obtain rfl := List.mem_singleton.1 member
    refine ⟨rfl, fun seed given => ?_⟩
    obtain rfl := List.mem_singleton.1 given
    exact .cons (.scalar 5 _) .nil
  obtain ⟨px, swept, rows⟩ := back 2 [[.scalar 1, .array [6, 7]]] (by decide) le_rfl (.inr rfl)
    (.cons ⟨rfl, fun u member => by
      simp only [List.mem_cons, List.not_mem_nil, or_false] at member
      rcases member with rfl | rfl
      · exact .scalar 1 _
      · exact .array rfl⟩ .nil)
  have received : px = [[.array [1, 1], .array [6, 7]]] := by
    rcases rows with _ | ⟨_ | ⟨first, _ | ⟨second, none⟩⟩, _ | _⟩
    obtain rfl := Except.ok.inj first
    obtain rfl := Except.ok.inj second
    cases none
    rfl
  exact ⟨f, e₀, e₁, answers, frozen, point, done, received ▸ swept⟩

end Evaluator

end TaylorTape
