import TaylorTape.Proofs.ScalarWeights
import TaylorTape.Proofs.WellShaped

/-!
Scalar seeds of arrays.

A scalar seed of an array stands for itself in every element.  Written out as an array of copies or
not, it leads to coefficients that stand for the same, whichever of them are written out in their
turn: brought to the shapes of the outputs, the answers are equal, and so are the partials that come
back to the inputs from weights that have the shapes of the outputs.
-/

set_option autoImplicit false
set_option relaxedAutoImplicit false

namespace TaylorTape

open Value Series

variable {F : Type} [ExactScalar F]

private theorem Value.fits_iff_compatible {u s : Value F} : u.Fits s ↔ Base.Compatible u s := by
  constructor
  · intro fits
    cases fits with
    | scalar x s => exact compatible_scalar x s
    | array same => exact compatible_array same
  · intro compatible
    rcases compatible_iff.1 compatible with scalar | ⟨xs, ys, rfl, rfl, same⟩
    · cases u with
      | scalar x => exact .scalar x s
      | array xs => cases scalar
    · exact .array same

private theorem Tape.Solves.keeps_carried {tape : Tape (Value F)} {x : List (Value F)}
    {s : Nat → Value F}
    (solves : tape.Solves x s) : tape.Keeps s s fun v => (s v).Carried False False where
  respected i _ := Value.respected (s i)
  operand i e found plain a reads u u' carried :=
    carried.spread (fits_iff_compatible.2 (solves.compatible_operand found plain reads))
  call i place args n r found there builtIn us us' all := by
    obtain ⟨b, op, stepped⟩ := solves.call found there builtIn
    have given := all.map (f := s) (g := fun u => u) (h := fun u => u)
      (S := (·.Carried False False False)) fun a _ u _ u' carried => carried
    rw [List.map_id', List.map_id'] at given
    exact ⟨b, op, (b.step_carried stepped given).mono fun ws ws' carried => carried.of_map⟩

/-- Coefficients that hold along seeds which stand for the same stand for the same. -/
theorem Tape.Solves.carried_of_holds {tape : Tape (Value F)} {x : List (Value F)}
    {s : Nat → Value F} {seed seed' : Nat → List (Value F)} {c c' : Nat → Nat → Value F} {n : Nat}
    (solves : tape.Solves x s) (wf : tape.WellFormed) (builtIns : tape.OnlyBuiltIns)
    (zeroth : ∀ v < tape.size, c v 0 = s v ∧ c' v 0 = s v)
    (holds : ∀ k < n, ∀ i < tape.size, tape.Holds k (seed k) c i)
    (holds' : ∀ k < n, ∀ i < tape.size, tape.Holds k (seed' k) c' i)
    (seeds : ∀ k < n, AllThree (·.Carried False False False) x (seed k) (seed' k)) :
    ∀ k < n, ∀ v < tape.size, (s v).Carried False False False (c v k) (c' v k) := by
  refine solves.keeps_carried.related_of_holds wf builtIns
    (fun v var => ⟨(zeroth v var).1, (zeroth v var).2, carried_of_fits (SameShape.refl _).fits⟩)
    holds holds' fun j input k low => ?_
  have var : j < tape.size := input.trans_le wf.inputs_le
  obtain ⟨entry, found⟩ := Tape.exists_entry var
  obtain rfl := (wf.inputs j entry found).2 input
  obtain ⟨u, u', there, there', stands⟩ := (seeds k low).get ((solves j var).input found)
  obtain rfl := Option.some.inj (there.symm.trans ((holds k low j var).input found))
  obtain rfl := Option.some.inj (there'.symm.trans ((holds' k low j var).input found))
  exact stands

namespace Evaluator

variable {e e₀ e₁ e₂ : Evaluator (Value F)} {x ys : List (Value F)} {q r : Nat}
  {rows rows' answers answers' : List (List (List (Value F)))}

private theorem WrittenOut.fits {s u u' : Value F} (written : WrittenOut s u u') :
    u.Fits s ∧ u'.Fits s :=
  ⟨written.carried.left, written.carried.right⟩

/-- Seeds for a point, order by order and direction by direction, some of which are written out in
the second run. -/
def SeedsWrittenOut (x : List (Value F)) :
    List (List (List (Value F))) → List (List (List (Value F))) → Prop :=
  List.Forall₂ (List.Forall₂ (AllThree WrittenOut x))

omit [ExactScalar F] in
private theorem writtenOut_refl (x : List (Value F)) : AllThree WrittenOut x x x :=
  allThree_of_get rfl rfl fun j s u u' found here here' => by
    obtain rfl := Option.some.inj (found.symm.trans here)
    obtain rfl := Option.some.inj (found.symm.trans here')
    exact .same (SameShape.refl s).fits

private theorem SeedsWrittenOut.fits (written : SeedsWrittenOut x rows rows')
    (even : ∀ seeds ∈ rows, seeds.length = r) :
    (∀ seeds ∈ rows, seeds.length = r ∧ ∀ seed ∈ seeds, List.Forall₂ Fits seed x) ∧
      ∀ seeds ∈ rows', seeds.length = r ∧ ∀ seed ∈ seeds, List.Forall₂ Fits seed x := by
  have both : ∀ {seed seed' : List (Value F)}, AllThree WrittenOut x seed seed' →
      List.Forall₂ Fits seed x ∧ List.Forall₂ Fits seed' x := by
    intro seed seed' all
    clear written even
    induction all with
    | nil => exact ⟨.nil, .nil⟩
    | cons head _ ih => exact ⟨.cons head.fits.1 ih.1, .cons head.fits.2 ih.2⟩
  constructor
  · intro seeds member
    obtain ⟨seeds', _, each⟩ := exists_of_mem_forall₂ written.flip member
    refine ⟨even seeds member, fun seed given => ?_⟩
    obtain ⟨seed', _, all⟩ := exists_of_mem_forall₂ each.flip given
    exact (both all).1
  · intro seeds' member
    obtain ⟨seeds, given, each⟩ := exists_of_mem_forall₂ written member
    refine ⟨each.length_eq.symm.trans (even seeds given), fun seed' member' => ?_⟩
    obtain ⟨seed, _, all⟩ := exists_of_mem_forall₂ each member'
    exact (both all).2

omit [ExactScalar F] in
private theorem SeedsWrittenOut.seedAt (written : SeedsWrittenOut x rows rows')
    (even : ∀ seeds ∈ rows, seeds.length = r) {k d : Nat} (low : k < rows.length + 1)
    (along : d < r) :
    AllThree WrittenOut x (seedAt ([x] :: rows) k d) (seedAt ([x] :: rows') k d) := by
  cases k with
  | zero => exact writtenOut_refl x
  | succ k =>
    have below : k < rows.length := Nat.lt_of_succ_lt_succ low
    have below' : k < rows'.length := written.length_eq ▸ below
    have each := written.get below below'
    have room : d < rows[k].length := (even _ (List.getElem_mem below)).symm ▸ along
    have room' : d < rows'[k].length := each.length_eq ▸ room
    rw [seedAt_cons_succ _ below room, seedAt_cons_succ _ below' room']
    exact each.get room room'

theorem AtPoint.values_of_ran {c : Nat → Value F} (here : e₀.AtPoint x c)
    (ran : e₀.Ran [[x]] rows answers e₁) {v : Nat} (inside : v < e₀.tape.size) (d : Nat) :
    e₁.table.value v 0 d = c v :=
  (ran.kept v inside 0 Nat.one_pos d (.inl rfl)).trans (here.values v inside)

private theorem AtPoint.carried {c : Nat → Value F} (here : e₀.AtPoint x c)
    (left : e₀.Ran [[x]] rows answers e₁) (right : e₀.Ran [[x]] rows' answers' e₂)
    (written : SeedsWrittenOut x rows rows') (even : ∀ seeds ∈ rows, seeds.length = r) {d : Nat}
    (along : d < r) (inside : d < e₁.numDirections) (inside' : d < e₂.numDirections) :
    ∀ k < rows.length + 1, ∀ v < e₀.tape.size,
      (c v).Carried False False False (e₁.table.value v k d) (e₂.table.value v k d) := by
  have wf := here.wellFormed
  have holds : ∀ k < rows.length + 1, ∀ i < e₀.tape.size,
      e₀.tape.Holds k (Evaluator.seedAt ([x] :: rows) k d) (e₁.table.along d) i :=
    left.holds_along inside
  have holds' : ∀ k < rows.length + 1, ∀ i < e₀.tape.size,
      e₀.tape.Holds k (Evaluator.seedAt ([x] :: rows') k d) (e₂.table.along d) i := fun k low =>
    right.holds_along inside' k (low.trans_eq (congrArg Nat.succ written.length_eq))
  exact here.solves.carried_of_holds wf.tape here.builtIns
    (fun v var => ⟨here.values_of_ran left var d, here.values_of_ran right var d⟩) holds holds'
    fun k low => (written.seedAt even low along).mono fun _ _ _ replaced => replaced.carried

/-- A run along seeds that fit the inputs succeeds. -/
theorem AtPoint.run {c : Nat → Value F} (here : e₀.AtPoint x c) (recorded : e₀.RecordedOfBuiltIns)
    (orders : e₀.numOrders = 1) (positive : 0 < r)
    (fits : ∀ seeds ∈ rows, seeds.length = r ∧ ∀ seed ∈ seeds, List.Forall₂ Fits seed x) :
    ∃ answers e₁, forwardFrom 1 rows e₀ = (.ok answers, e₁) := by
  have shaped := recorded.wellShaped Nat.one_pos here.orders le_rfl fun j _ k low d _ => by
    obtain rfl := Nat.lt_one_iff.1 low
    exact .refl _
  refine shaped.forwardFrom positive orders (absurd · (lt_irrefl 1)) fun seeds member => ?_
  obtain ⟨count, each⟩ := fits seeds member
  refine ⟨count, fun seed given => ?_⟩
  have own := each seed given
  rw [here.inputs_eq, List.forall₂_map_right_iff] at own
  refine List.Forall₂.imp ?_ ((List.forall₂_and_left (p := (· < e₀.numInputs)) _ _).2
    ⟨fun j among => List.mem_range.1 among, own.flip⟩)
  rintro j u ⟨input, fit⟩
  rw [here.values j (input.trans_le here.wellFormed.tape.inputs_le)]
  exact fits_iff_compatible.1 fit

private theorem AtPoint.twins {c : Nat → Value F} (here : e₀.AtPoint x c)
    (recorded₁ : e₁.RecordedOfBuiltIns) (recorded₂ : e₂.RecordedOfBuiltIns)
    (left : e₀.Ran [[x]] rows answers e₁) (right : e₀.Ran [[x]] rows' answers' e₂)
    (written : SeedsWrittenOut x rows rows') (even : ∀ seeds ∈ rows, seeds.length = r)
    (along : 0 < r) (positive : 0 < q) (low : q ≤ rows.length + 1) :
    Twins e₀.tape c q e₁ e₂ := by
  have carried := fun v var k (order : k < q) => here.carried left right written even along
    left.wellFormed.table.directions right.wellFormed.table.directions k (order.trans_le low) v var
  have inputs := here.wellFormed.tape.inputs_le
  refine {
    left := recorded₁.shaped positive (low.trans left.cached.orders) fun j input k order => ?_
    right := recorded₂.shaped positive (low.trans (written.length_eq ▸ right.cached.orders))
      fun j input k order => ?_
    onTape := left.tape
    onTape' := right.tape
    shape := fun v var => here.values_of_ran left var 0
    shape' := fun v var => here.values_of_ran right var 0
    same := fun v var k order => carried v var k order }
  · have var := (left.tape ▸ input : j < e₀.tape.numInputs).trans_le inputs
    rw [shape, here.values_of_ran left var]
    exact (carried j var k order).left
  · have var := (right.tape ▸ input : j < e₀.tape.numInputs).trans_le inputs
    rw [shape, here.values_of_ran right var]
    exact (carried j var k order).right

private theorem sameShape_reduceLike {s u : Value F} (whole : s.isScalar = false → u.SameShape s) :
    (u.reduceLike s).SameShape s := by
  cases s with
  | scalar y =>
    cases u with
    | scalar x => exact .scalar x y
    | array xs => exact .scalar _ y
  | array ys =>
    rw [reduceLike_fits (whole rfl).fits]
    exact whole rfl

private theorem receives_of_whole {tape : Tape (Value F)} {s : Nat → Value F} {κ : Nat → Prop}
    {outputs : List Nat} {weights : List (List (Value F))}
    (whole : List.Forall₂ (fun y w => (s y).isScalar = false → ∀ u ∈ w, u.SameShape (s y))
      outputs weights) (lengths : ∀ w ∈ weights, w.length = q) :
    AllThree (Receives tape s κ q False) outputs (weights.map List.toArray)
      (weights.map List.toArray) := by
  induction whole with
  | nil => exact .nil
  | @cons y w _ _ head _ ih =>
    obtain ⟨count, rest⟩ := List.forall_mem_cons.1 lengths
    refine .cons (.inr ⟨count, count, fun k u u' there there' => ?_⟩) (ih rest)
    obtain rfl := Option.some.inj (there.symm.trans there')
    have member : u ∈ w := by simpa using Array.mem_of_getElem? there
    exact carried_of_sameShape (sameShape_reduceLike fun array => head array u member) False.elim

private theorem grading_all (tape : Tape (Value F)) (s : Nat → Value F) :
    tape.Grading s fun _ => True where
  neg _ _ _ _ := trivial
  term _ _ _ _ _ _ _ _ _ := trivial
  spread _ _ _ _ _ _ _ _ _ _ := trivial
  factor _ _ _ _ _ _ _ := .inl trivial
  factor' _ _ _ _ _ := .inl trivial
  flip _ _ _ _ _ _ _ _ _ _ _ := trivial

section Runs

variable {c : Nat → Value F} (here : e₀.AtPoint x c) (left : e₀.Ran [[x]] rows answers e₁)
  (right : e₀.Ran [[x]] rows' answers' e₂) (written : SeedsWrittenOut x rows rows')
include here left right written

private theorem AtPoint.answers_both (even : ∀ seeds ∈ rows, seeds.length = r) :
    List.Forall₂ (List.Forall₂ (AllThree (fun y u u' => ∃ w, Base.broadcastLike u y = .ok w ∧
      Base.broadcastLike u' y = .ok w) (e₀.outputs.map c))) answers answers' := by
  have count := written.length_eq
  have even' : ∀ seeds ∈ rows', seeds.length = r := fun seeds member =>
    ((written.fits even).2 seeds member).1
  rw [left.answers_of_even even, right.answers_of_even even', ← count,
    List.forall₂_map_left_iff, List.forall₂_map_right_iff, List.forall₂_same]
  intro k member
  have low := List.mem_range.1 member
  rw [List.forall₂_map_left_iff, List.forall₂_map_right_iff, List.forall₂_same]
  intro d among
  have along := List.mem_range.1 among
  have inside := left.directions k rows[k] (by simp) (List.getElem?_eq_getElem low)
  have inside' := right.directions k rows'[k] (by simp) (List.getElem?_eq_getElem (count ▸ low))
  rw [even _ (List.getElem_mem _)] at inside
  rw [even' _ (List.getElem_mem _)] at inside'
  refine allThree_map fun y output => ?_
  rw [Nat.add_comm]
  exact (here.carried left right written even along (inside ▸ along) (inside' ▸ along) (k + 1)
    (Nat.succ_lt_succ low) y (here.wellFormed.outputs y output)).exists_broadcast

omit here in
private theorem SeedsWrittenOut.checkReverse_eq (done : forwardFrom 1 rows e₀ = (.ok answers, e₁))
    (done' : forwardFrom 1 rows' e₀ = (.ok answers', e₂)) (q : Nat)
    (weights : List (List (Value F))) :
    e₂.checkReverse q weights = e₁.checkReverse q weights := by
  have outputs : e₂.outputs = e₁.outputs := right.outputs.trans left.outputs.symm
  have count := written.length_eq
  have extent : e₂.numOrders = e₁.numOrders ∧ e₂.numDirections = e₁.numDirections := by
    cases written with
    | nil =>
      cases done
      cases done'
      exact ⟨rfl, rfl⟩
    | @cons seeds seeds' _ _ head _ =>
      constructor
      · rw [left.orders nofun, right.orders nofun, count]
      · rw [← left.directions 0 seeds Nat.one_pos rfl, ← right.directions 0 seeds' Nat.one_pos rfl,
          head.length_eq]
  exact checkReverse_congr (congrArg List.length outputs) extent.1 (fun _ _ => extent.2) weights

end Runs

/-- A scalar seed of an array means that seed in every element: written out or not, the runs give
the same answers in the shapes of the outputs, and they leave evaluators that pass back the same from
weights in these shapes. -/
theorem scalar_seeds (recorded : e.RecordedOfBuiltIns) (point : forwardZero x e = (.ok ys, e₀))
    (positive : 0 < r) (even : ∀ seeds ∈ rows, seeds.length = r)
    (written : SeedsWrittenOut x rows rows') :
    ∃ answers answers' e₁ e₂, forwardFrom 1 rows e₀ = (.ok answers, e₁) ∧
      forwardFrom 1 rows' e₀ = (.ok answers', e₂) ∧
      List.Forall₂ (List.Forall₂ (AllThree (fun y u u' => ∃ w, Base.broadcastLike u y = .ok w ∧
        Base.broadcastLike u' y = .ok w) ys)) answers answers' ∧
      ∀ q ≤ rows.length + 1, ∀ weights,
        List.Forall₂ (fun y w => y.isScalar = false → ∀ u ∈ w, u.SameShape y) ys weights →
        e₁.reverse q weights = e₂.reverse q weights ∧
          (e₁.AcceptsReverse q weights → ∃ px, e₁.reverse q weights = .ok px) := by
  have wf := recorded.recorded.wellFormed
  have advanced := forwardZero_sound wf point
  obtain ⟨c, here, _, outputs, rfl⟩ := atPoint_of_forwardZero wf recorded.onlyBuiltIns point
  rw [← outputs]
  have recorded₀ := recorded.forwardZero point
  have cached : e₀.Cached [[x]] := e.cached_nil.next wf advanced
  obtain ⟨fits, fits'⟩ := written.fits even
  obtain ⟨answers, e₁, done⟩ := here.run recorded₀ advanced.orders positive fits
  obtain ⟨answers', e₂, done'⟩ := here.run recorded₀ advanced.orders positive fits'
  have left := forwardFrom_sound here.wellFormed cached done
  have right := forwardFrom_sound here.wellFormed cached done'
  refine ⟨answers, answers', e₁, e₂, done, done', here.answers_both left right written even,
    fun q low weights whole => ?_⟩
  rw [List.forall₂_map_left_iff] at whole
  have check := written.checkReverse_eq left right done done' q weights
  have both : e₁.AcceptsReverse q weights → e₂.AcceptsReverse q weights →
      Both (· = ·) (e₁.reverse q weights) (e₂.reverse q weights) := fun accepts accepts' =>
    reverseWith_both (here.twins (recorded₀.forwardFrom done) (recorded₀.forwardFrom done') left
        right written even positive (Nat.pos_of_ne_zero accepts.positive) low)
      (grading_all _ _) (fun _ idle => idle) (fun _ idle => idle) left.outputs right.outputs accepts
      accepts' (receives_of_whole whole accepts.lengths)
  refine ⟨reverseWith_of_accepts check fun accepts accepts' => ?_, fun accepts => ?_⟩
  · obtain ⟨px, _, found, found', rfl⟩ := both accepts accepts'
    exact found.trans found'.symm
  · have accepts' := checkReverse_eq_ok.1 (check.trans (checkReverse_eq_ok.2 accepts))
    obtain ⟨px, _, found, _⟩ := both accepts accepts'
    exact ⟨px, found⟩

/-- A sum with a scalar and a product, along a scalar and an array direction of the array. -/
theorem scalar_seeds_mul :
    ∃ (f : Program.Frozen (Value ℝ)) (ys : List (Value ℝ)) (e₀ : Evaluator (Value ℝ)),
      Program.freeze Registry.builtins 7 [.array [1, 2], .scalar 3]
        [.binary .add 0 1, .binary .mul 2 0] [3] = .ok f ∧
      forwardZero [.array [4, 5, 6], .scalar 2] f.evaluator = (.ok ys, e₀) ∧
      ∃ answers answers' e₁ e₂,
        forwardFrom 1 [[[.scalar 1, .scalar 0]], [[.array [1, 0, 2], .scalar 1]]] e₀ =
          (.ok answers, e₁) ∧
        forwardFrom 1 [[[.array [1, 1, 1], .scalar 0]], [[.array [1, 0, 2], .scalar 1]]] e₀ =
          (.ok answers', e₂) ∧
        List.Forall₂ (List.Forall₂ (AllThree (fun y u u' => ∃ w, Base.broadcastLike u y = .ok w ∧
          Base.broadcastLike u' y = .ok w) ys)) answers answers' ∧
        ∃ px, e₁.reverse 3 [[.array [1, 2, 3], .array [0, 1, 0], .array [5, 0, 1]]] = .ok px ∧
          e₂.reverse 3 [[.array [1, 2, 3], .array [0, 1, 0], .array [5, 0, 1]]] = .ok px := by
  let tape : Tape (Value ℝ) := {
    id := 7
    nodes := #[⟨.input, .array [1, 2]⟩, ⟨.input, .scalar 3⟩,
      ⟨.binary .add 0 1, .array [1 + 3, 2 + 3]⟩,
      ⟨.binary .mul 2 0, .array [(1 + 3) * 1, (2 + 3) * 2]⟩]
    numInputs := 2
    atomics := #[] }
  have frozen : Program.freeze Registry.builtins 7 [.array [1, 2], .scalar 3]
      [.binary .add 0 1, .binary .mul 2 0] [3] =
      .ok ⟨[.array [(1 + 3) * 1, (2 + 3) * 2]], [.binary .add 0 1, .binary .mul 2 0],
        .ofTape tape [3]⟩ := rfl
  have start : (Evaluator.ofTape tape [3]).RecordedOfBuiltIns :=
    ⟨_, 7, _, _, [3], _, Registry.builtins_faithful, by simp [Step.Foreign],
      by simp [Step.CallsBuiltIns], frozen, .refl⟩
  obtain ⟨e₀, point⟩ : ∃ e₀, forwardZero [.array [4, 5, 6], .scalar 2] (.ofTape tape [3]) =
      (.ok [.array [(4 + 2) * 4, (5 + 2) * 5, (6 + 2) * 6]], e₀) := ⟨_, rfl⟩
  have array : (Value.array [1, 0, 2]).Fits (.array [4, 5, 6] : Value ℝ) := .array rfl
  have scalar : ∀ z : ℝ, (Value.scalar z).Fits (.scalar 2) := fun z => .scalar z _
  have written : SeedsWrittenOut [.array [4, 5, 6], .scalar (2 : ℝ)]
      [[[.scalar 1, .scalar 0]], [[.array [1, 0, 2], .scalar 1]]]
      [[[.array [1, 1, 1], .scalar 0]], [[.array [1, 0, 2], .scalar 1]]] :=
    .cons (.cons (.cons (.filled 1 rfl) (.single (.same (scalar 0)))) .nil)
      (.cons (.cons (.cons (.same array) (.single (.same (scalar 1)))) .nil) .nil)
  obtain ⟨answers, answers', e₁, e₂, done, done', same, back⟩ :=
    scalar_seeds start point Nat.one_pos (r := 1) (by simp) written
  have advanced := forwardZero_sound start.recorded.wellFormed point
  have ran := forwardFrom_sound advanced.wellFormed
    ((cached_nil _).next start.recorded.wellFormed advanced) done
  have outputs : e₁.outputs = [3] := ran.outputs.trans advanced.outputs
  obtain ⟨equal, received⟩ := back 3 le_rfl
    [[.array [1, 2, 3], .array [0, 1, 0], .array [5, 0, 1]]] (.cons (fun _ u member => by
      simp only [List.mem_cons, List.not_mem_nil, or_false] at member
      rcases member with rfl | rfl | rfl <;> exact .array rfl) .nil)
  obtain ⟨px, found⟩ := received ⟨by decide, (ran.orders (by simp)).ge,
    fun _ => (ran.directions 0 _ Nat.one_pos rfl).symm, by rw [numOutputs, outputs]; rfl, by simp⟩
  exact ⟨_, _, e₀, frozen, point, answers, answers', e₁, e₂, done, done', same, px, found,
    equal ▸ found⟩

end Evaluator

end TaylorTape
