import TaylorTape.Proofs.Reals
import TaylorTape.Proofs.TwoSweeps

/-!
Scalar weights on arrays.

A scalar weight on an array stands for itself in every element, and written out or not it leaves the
inputs with the same partials, but for one place: where a sum or a difference spreads a scalar over
an array, a partial that is still the scalar weight is counted once and not once for each element.
The variables that a weight reaches as it stands are the bare ones.
-/

set_option autoImplicit false
set_option relaxedAutoImplicit false

namespace TaylorTape

open Value Series

variable {F : Type} [ExactScalar F]

namespace Evaluator

variable {e : Evaluator (Value F)} {q i : Nat}

/-- The variables that the weight of an output reaches as it stands: through negations, sums,
differences and reversals, and through products with scalars and quotients by such. -/
inductive Bare (e : Evaluator (Value F)) : Nat → Prop where
  | output {y : Nat} (weighted : y ∈ e.outputs) : e.Bare y
  | neg {i a : Nat} (bare : e.Bare i) (found : e.tape.entry i = .ok (.unary .neg a)) : e.Bare a
  | term {i a b v : Nat} {op : BinaryOp} (bare : e.Bare i)
      (found : e.tape.entry i = .ok (.binary op a b)) (plain : op = .add ∨ op = .sub)
      (reads : v = a ∨ v = b) : e.Bare v
  | factor {i a b : Nat} {op : BinaryOp} (bare : e.Bare i)
      (found : e.tape.entry i = .ok (.binary op a b)) (scaled : op = .mul ∨ op = .div)
      (scalar : (e.shape b).isScalar = true) : e.Bare a
  | factor' {i a b : Nat} (bare : e.Bare i) (found : e.tape.entry i = .ok (.binary .mul a b))
      (scalar : (e.shape a).isScalar = true) : e.Bare b
  | flip {i place n a : Nat} {args : List Nat} {r : Registered (Value F)} (bare : e.Bare i)
      (found : e.tape.entry i = .ok (.call place args n)) (there : e.tape.atomics[place]? = some r)
      (turns : r.op = BuiltIn.flip.atomic) (reads : a ∈ args) : e.Bare a

/-- An entry is a sum or a difference that spreads a scalar variable over an array. -/
def Spreads (e : Evaluator (Value F)) (i v : Nat) : Prop :=
  ∃ op a b, e.tape.entry i = .ok (.binary op a b) ∧ (op = .add ∨ op = .sub) ∧ (v = a ∨ v = b) ∧
    e.tape.entry v ≠ .ok .const ∧ (e.shape v).isScalar = true ∧ (e.shape i).isScalar = false

/-- The partials of an entry reach one of its operands as they stand: through a negation, a sum, a
difference or a reversal, or through a product with a scalar or a quotient by such. -/
inductive HandsOn (e : Evaluator (Value F)) (i : Nat) : Nat → Prop where
  | neg {a : Nat} (found : e.tape.entry i = .ok (.unary .neg a)) : e.HandsOn i a
  | term {a b v : Nat} {op : BinaryOp} (found : e.tape.entry i = .ok (.binary op a b))
      (plain : op = .add ∨ op = .sub) (reads : v = a ∨ v = b) : e.HandsOn i v
  | factor {a b : Nat} {op : BinaryOp} (found : e.tape.entry i = .ok (.binary op a b))
      (scaled : op = .mul ∨ op = .div) (scalar : (e.shape b).isScalar = true) : e.HandsOn i a
  | factor' {a b : Nat} (found : e.tape.entry i = .ok (.binary .mul a b))
      (scalar : (e.shape a).isScalar = true) : e.HandsOn i b
  | flip {place n a : Nat} {args : List Nat} {r : Registered (Value F)}
      (found : e.tape.entry i = .ok (.call place args n)) (there : e.tape.atomics[place]? = some r)
      (turns : r.op = BuiltIn.flip.atomic) (reads : a ∈ args) : e.HandsOn i a

private theorem Bare.handed {a : Nat} (bare : e.Bare i) (hands : e.HandsOn i a) : e.Bare a := by
  cases hands with
  | neg found => exact bare.neg found
  | term found plain reads => exact bare.term found plain reads
  | factor found scaled scalar => exact bare.factor found scaled scalar
  | factor' found scalar => exact bare.factor' found scalar
  | flip found there turns reads => exact bare.flip found there turns reads

/-- Partials are counted outside a set of variables that holds what its entries hand on to, and no
sum or difference that spreads a scalar. -/
theorem Shaped.grading (shaped : e.Shaped q) {bare : Nat → Prop}
    (handed : ∀ i a, bare i → e.HandsOn i a → bare a) (apart : ∀ i v, bare i → ¬ e.Spreads i v) :
    e.tape.Grading e.shape fun v => ¬ bare v := by
  obtain ⟨x, solves⟩ := shaped.solves
  refine {
    neg := fun i a found counted reached => counted (handed i a reached (.neg found))
    term := fun i op a b v found plain reads counted reached =>
      counted (handed i v reached (.term found plain reads))
    spread := fun i op a b v found plain reads other odd reached => ?_
    factor := fun i op a b found scaled counted => ?_
    factor' := fun i a b found counted => ?_
    flip := fun i place args n r found there turns a reads counted reached =>
      counted (handed i a reached (.flip found there turns reads)) }
  · obtain ⟨left, right⟩ := BinaryOp.fits_of_eval (solves.binary found)
    have fits : (e.shape v).Fits (e.shape i) := by
      rcases reads with rfl | rfl
      · exact left
      · exact right
    exact apart i v reached
      ⟨op, a, b, found, plain, reads, other, fits.scalar_of_not_sameShape odd⟩
  · obtain ⟨_, right⟩ := BinaryOp.fits_of_eval (solves.binary found)
    by_cases shape : (e.shape b).SameShape (e.shape i)
    · exact .inr shape
    · exact .inl fun reached => counted
        (handed i a reached (.factor found scaled (right.scalar_of_not_sameShape shape).1))
  · obtain ⟨left, _⟩ := BinaryOp.fits_of_eval (solves.binary found)
    by_cases shape : (e.shape a).SameShape (e.shape i)
    · exact .inr shape
    · exact .inl fun reached => counted
        (handed i b reached (.factor' found (left.scalar_of_not_sameShape shape).1))

/-- Weights of a variable, of which scalars may be written out as arrays of its shape. -/
inductive WrittenOut (s : Value F) : Value F → Value F → Prop where
  | same {u : Value F} (fits : u.Fits s) : WrittenOut s u u
  | filled (x : F) (array : s.isScalar = false) : WrittenOut s (.scalar x) (.filled x s.length)

theorem WrittenOut.carried {s u u' : Value F} (written : WrittenOut s u u') :
    s.Carried False False False u u' := by
  cases written with
  | same fits => exact carried_of_fits fits
  | filled x array =>
    cases s with
    | scalar y => cases array
    | array ys =>
      have shape : (Value.filled x ys.length).SameShape (.array ys) := .array List.length_replicate
      refine ⟨.scalar x _, shape.fits, fun e inside => ?_, False.elim, False.elim, False.elim⟩
      have room : e < (List.replicate ys.length x).length :=
        inside.trans_eq List.length_replicate.symm
      exact ((component_array room).trans (List.getElem_replicate room)).symm

private theorem receives_of_writtenOut {y : Nat} (weighted : y ∈ e.outputs) {w w' : List (Value F)}
    (count : w.length = q) (written : List.Forall₂ (WrittenOut (e.shape y)) w w') :
    Receives e.tape e.shape (¬ e.Bare ·) q False y w.toArray w'.toArray := by
  obtain ⟨length, each⟩ := List.forall₂_iff_get.1 written
  have related : Related q ((e.shape y).Carried False False) (fun _ => False) w.toArray
      w'.toArray := by
    refine ⟨count, length.symm.trans count, fun k c c' here here' => ?_⟩
    obtain ⟨low, rfl⟩ := List.getElem?_eq_some_iff.1 ((List.getElem?_toArray ..).symm.trans here)
    obtain ⟨low', rfl⟩ := List.getElem?_eq_some_iff.1 ((List.getElem?_toArray ..).symm.trans here')
    exact (each k low low').carried
  exact receives_of_related related (SameShape.refl _).fits (absurd (SameShape.refl _))
    fun counted => absurd (.output weighted) counted

/-- A scalar weight on an array means that weight in every element: written out or not, the inputs
receive the same, provided that no weight reaches as it stands a sum or a difference that has spread
a scalar over an array. -/
theorem reverse_written_out (recorded : e.RecordedOfBuiltIns)
    {weights weights' : List (List (Value F))} (accepts : e.AcceptsReverse q weights)
    (inputs : ∀ j < e.numInputs, ∀ k < q, (e.table.value j k 0).Fits (e.shape j))
    (written : AllThree (fun y => List.Forall₂ (WrittenOut (e.shape y))) e.outputs weights weights')
    (apart : ∀ i v, e.Bare i → ¬ e.Spreads i v) :
    ∃ px, e.reverse q weights = .ok px ∧ e.reverse q weights' = .ok px := by
  have shaped := recorded.shaped (Nat.pos_of_ne_zero accepts.positive) accepts.orders inputs
  have accepts' : e.AcceptsReverse q weights' := by
    refine { accepts with count := written.length_eq.2.symm, lengths := fun w' member => ?_ }
    obtain ⟨_, _, w, given, same⟩ := written.exists_of_mem member
    exact same.length_eq.symm.trans (accepts.lengths w given)
  have shares := written.map (f := id) (g := List.toArray) (h := List.toArray)
    (S := Receives e.tape e.shape (¬ e.Bare ·) q False) fun y weighted w given w' =>
      receives_of_writtenOut weighted (accepts.lengths w given)
  rw [List.map_id] at shares
  obtain ⟨px, _, done, done', rfl⟩ :=
    reverseWith_both shaped.twins (shaped.grading (fun _ _ => Bare.handed) apart) (fun _ => id)
      (fun _ => id) rfl rfl accepts accepts' shares
  exact ⟨px, done, done'⟩

/-- A scalar spread over an array by a sum, behind a product with an array. -/
theorem reverse_written_out_mul :
    ∃ (f : Program.Frozen (Value ℝ)) (ys : List (Value ℝ)) (e' : Evaluator (Value ℝ)),
      Program.freeze Registry.builtins 7 [.array [1, 2], .scalar 3]
        [.binary .add 0 1, .binary .mul 2 0] [3] = .ok f ∧
      forwardZero [.array [4, 5, 6], .scalar 2] f.evaluator = (.ok ys, e') ∧
      ∃ px, e'.reverse 1 [[.scalar 3]] = .ok px ∧ e'.reverse 1 [[.array [3, 3, 3]]] = .ok px := by
  let tape : Tape (Value ℝ) := {
    id := 7
    nodes := #[⟨.input, .array [1, 2]⟩, ⟨.input, .scalar 3⟩,
      ⟨.binary .add 0 1, .array [1 + 3, 2 + 3]⟩,
      ⟨.binary .mul 2 0, .array [(1 + 3) * 1, (2 + 3) * 2]⟩]
    numInputs := 2
    atomics := #[] }
  have frozen : Program.freeze Registry.builtins 7 [.array [1, 2], .scalar 3]
      [.binary .add 0 1, .binary .mul 2 0] [3] =
      .ok ⟨[.array [(1 + 3) * 1, (2 + 3) * 2]], [.binary .add 0 1, .binary .mul 2 0],
        .ofTape tape [3]⟩ := rfl
  have start : (Evaluator.ofTape tape [3]).RecordedOfBuiltIns :=
    ⟨_, 7, _, _, [3], _, Registry.builtins_faithful, by simp [Step.Foreign],
      by simp [Step.CallsBuiltIns], frozen, .refl⟩
  obtain ⟨e', point⟩ : ∃ e', forwardZero [.array [4, 5, 6], .scalar 2] (.ofTape tape [3]) =
      (.ok [.array [(4 + 2) * 4, (5 + 2) * 5, (6 + 2) * 6]], e') := ⟨_, rfl⟩
  obtain ⟨c, here, same, outputs, _⟩ :=
    atPoint_of_forwardZero start.recorded.wellFormed start.onlyBuiltIns point
  have shapes : e'.shape 0 = .array [4, 5, 6] ∧ e'.shape 2 = .array [4 + 2, 5 + 2, 6 + 2] ∧
      e'.shape 3 = .array [(4 + 2) * 4, (5 + 2) * 5, (6 + 2) * 6] := by
    have value : ∀ v < 4, e'.shape v = c v := fun v low => here.values v (same ▸ low)
    have solves := here.solves
    rw [same] at solves
    have first := Option.some.inj ((solves 0 (by decide)).input rfl)
    have second := Option.some.inj ((solves 1 (by decide)).input rfl)
    have sum := solves.binary (show tape.entry 2 = .ok (.binary .add 0 1) from rfl)
    rw [← first, ← second] at sum
    have product := solves.binary (show tape.entry 3 = .ok (.binary .mul 2 0) from rfl)
    rw [← first, ← Except.ok.inj sum] at product
    rw [value 0 (by decide), value 2 (by decide), value 3 (by decide)]
    exact ⟨first.symm, (Except.ok.inj sum).symm, (Except.ok.inj product).symm⟩
  obtain ⟨left, sum, product⟩ := shapes
  -- the weight goes no further than the product, since both of its factors are arrays
  have bare : ∀ v, e'.Bare v → v = 3 := by
    intro v reached
    induction reached with
    | output weighted =>
      rw [outputs] at weighted
      exact List.mem_singleton.1 weighted
    | neg _ found ih =>
      rw [same, ih] at found
      cases found
    | term _ found plain _ ih =>
      rw [same, ih] at found
      cases found
      rcases plain with add | sub
      · cases add
      · cases sub
    | factor _ found _ scalar ih =>
      rw [same, ih] at found
      cases found
      rw [left] at scalar
      cases scalar
    | factor' _ found scalar ih =>
      rw [same, ih] at found
      cases found
      rw [sum] at scalar
      cases scalar
    | flip _ found _ _ _ ih =>
      rw [same, ih] at found
      cases found
  have apart : ∀ i v, e'.Bare i → ¬ e'.Spreads i v := by
    rintro i v reached ⟨op, a, b, found, plain, _⟩
    rw [same, bare i reached] at found
    cases found
    rcases plain with add | sub
    · cases add
    · cases sub
  refine ⟨_, _, e', frozen, point, reverse_written_out (start.forwardZero point) ?_ ?_ ?_ apart⟩
  · exact ⟨by decide, here.orders, by simp, by rw [numOutputs, outputs]; rfl, by simp⟩
  · intro j _ k zero
    obtain rfl := Nat.lt_one_iff.1 zero
    exact (SameShape.refl _).fits
  · rw [outputs]
    refine .single (.cons ?_ .nil)
    rw [product]
    exact .filled 3 rfl

end Evaluator

end TaylorTape
