import TaylorTape.Proofs.ScalarWeights

/-!
Entries that a reverse sweep leaves out.

An entry whose partials are all zero is left out, and its operands keep the zeros that they have.  A
sweep that leaves nothing out adds arrays of zeros to them.  That makes a difference in one place: a
scalar partial becomes an array, so that a sum or a difference that has spread a scalar counts it
once for each element.  Where no such partial arrives, leaving entries out changes nothing.
-/

set_option autoImplicit false
set_option relaxedAutoImplicit false

namespace TaylorTape

open Value Series

namespace Evaluator

section Sweep

variable {B F : Type} [Scalar F] [Base B F]

/-- The partials after the entry at a position has passed its share on, whatever its partials are. -/
def retreatAll (e : Evaluator B) (q : Nat) (partials : Array (Series B)) (i : Nat) :
    Except Error (Array (Series B)) := do
  let entry ← e.tape.entry i
  let own ← (List.range' i entry.span).mapM (fetch partials)
  let shares ← e.passed q i entry own
  (entry.operands.zip shares).foldlM (fun partials (v, share) => e.accumulate partials v share)
    partials

/-- The partials with respect to the first `q` orders of each input, where every entry passes its
share on. -/
def reverseAll (e : Evaluator B) (q : Nat) (weights : List (List B)) :
    Except Error (List (List B)) := do
  e.checkReverse q weights
  e.received (← e.swept (e.retreatAll q) q weights)

private theorem retreatAll_eq {e : Evaluator B} {q i : Nat} {ps : Array (Series B)} {entry : Entry}
    {own : List (Series B)} (found : e.tape.entry i = .ok entry)
    (read : (List.range' i entry.span).mapM (fetch ps) = .ok own) :
    e.retreatAll q ps i = e.passed q i entry own >>= fun shares =>
      (entry.operands.zip shares).foldlM (fun ps (v, x) => e.accumulate ps v x) ps := by
  rw [retreatAll, found, ok_bind, read, ok_bind]

end Sweep

variable {F : Type} [ExactScalar F] {e e' : Evaluator (Value F)} {q i : Nat}

section Sweeping

variable {tape : Tape (Value F)} {s : Nat → Value F} {κ : Nat → Prop} (twins : Twins tape s q e e')
  (grading : tape.Grading s κ)
include twins grading

private theorem retreat_beside {ps ps' : Array (Series (Value F))}
    (matched : Matched (Matching s κ q False) e.tape.size ps ps') (inside : i < e.tape.size) :
    Both (Matched (Matching s κ q False) e.tape.size) (e.retreat Base.isAllZero q ps i)
      (e'.retreatAll q ps' i) := by
  have abreast := twins.abreast grading (fun _ => id) (fun _ => id)
  obtain ⟨entry, found⟩ := Tape.exists_entry inside
  obtain ⟨own, own', read, read', all⟩ := matched.exists_own (abreast.wellFormed.span_le found)
  have operands : ∀ a ∈ entry.operands, a < e.tape.size := fun a reads =>
    (abreast.wellFormed.operands i entry found a reads).trans inside
  have found' := twins.onTape ▸ found
  rw [retreat_eq found read, retreatAll_eq ((abreast.entries i).trans found) read']
  cases idles : own.all (·.all Base.isAllZero) with
  | true =>
    obtain ⟨shares, done, still⟩ := passed_still twins grading found' all idles
    obtain ⟨next, added, matched⟩ := abreast.foldlM_accumulate_right matched operands still
    exact ⟨ps, next, rfl, bind_eq_ok.2 ⟨shares, done, added⟩, matched⟩
  | false =>
    apply (passed_both twins grading found' all).bind
    intro xs xs' shares
    exact abreast.foldlM_accumulate matched operands shares

private theorem reverse_beside {outputs : List Nat} (weighted : e.outputs = outputs)
    (weighted' : e'.outputs = outputs) {weights weights' : List (List (Value F))}
    (accepts : e.AcceptsReverse q weights) (accepts' : e'.AcceptsReverse q weights')
    (shares : AllThree (Receives tape s κ q False) outputs (weights.map List.toArray)
      (weights'.map List.toArray)) :
    Both (· = ·) (e.reverse q weights) (e'.reverseAll q weights') := by
  obtain rfl := weighted
  have abreast := twins.abreast grading (fun _ => id) (fun _ => id)
  have inputs : e'.numInputs = e.numInputs := by
    rw [numInputs, numInputs, twins.onTape, twins.onTape']
  unfold reverse reverseAll
  rw [reverseWith_eq, checkReverse_eq_ok.2 accepts, checkReverse_eq_ok.2 accepts', ok_bind, ok_bind]
  apply (abreast.swept (e.retreat Base.isAllZero q) (e'.retreatAll q) weighted'
    twins.left.wellFormed.outputs shares fun i below _ _ matched =>
      retreat_beside twins grading matched below).bind
  intro ps ps' matched
  obtain ⟨rows, rows', done, done', all⟩ := abreast.received (O := fun _ => Eq) matched inputs
    fun j input p p' related =>
      delivered_both twins (input.trans_le (twins.onTape ▸ twins.wellFormed.inputs_le)) related
  exact ⟨rows, rows', done, done', all.eq⟩

end Sweeping

/-- The variables that a scalar weight of an array reaches as it stands. -/
inductive Thin (e : Evaluator (Value F)) (weights : List (List (Value F))) : Nat → Prop where
  | output {y : Nat} {w : List (Value F)} {u : Value F} (weighted : (y, w) ∈ e.outputs.zip weights)
      (given : u ∈ w) (bare : ¬ (e.shape y).Counted u) : e.Thin weights y
  | handed {i a : Nat} (thin : e.Thin weights i) (hands : e.HandsOn i a) : e.Thin weights a

private theorem receives_of_fits {weights : List (List (Value F))} {y : Nat} {w : List (Value F)}
    (weighted : (y, w) ∈ e.outputs.zip weights) (count : w.length = q)
    (fits : ∀ u ∈ w, u.Fits (e.shape y)) :
    Receives e.tape e.shape (¬ e.Thin weights ·) q False y w.toArray w.toArray := by
  suffices collected : Related q ((e.shape y).Carried (¬ e.Thin weights y) False) (fun _ => False)
      w.toArray w.toArray from
    receives_of_related collected (SameShape.refl _).fits (absurd (SameShape.refl _)) .inl
  refine ⟨count, count, fun k c c' here here' => ?_⟩
  obtain rfl := Option.some.inj (here.symm.trans here')
  have given : c ∈ w := List.mem_of_getElem? ((List.getElem?_toArray ..).symm.trans here)
  have counts : ¬ e.Thin weights y → (e.shape y).Counted c := fun thick =>
    by_contra fun bare => thick (.output weighted given bare)
  exact ⟨fits c given, fits c given, fun _ _ => rfl, fun thick => ⟨counts thick, counts thick⟩,
    False.elim, False.elim⟩

/-- Leaving out the entries whose partials are all zero changes nothing, provided that no scalar
weight of an array reaches as it stands a sum or a difference that has spread a scalar. -/
theorem reverse_leaves_out (recorded : e.RecordedOfBuiltIns) (weights : List (List (Value F)))
    (inputs : ∀ j < e.numInputs, ∀ k < q, (e.table.value j k 0).Fits (e.shape j))
    (fits : List.Forall₂ (fun y w => ∀ u ∈ w, u.Fits (e.shape y)) e.outputs weights)
    (apart : ∀ i v, e.Thin weights i → ¬ e.Spreads i v) :
    e.reverse q weights = e.reverseAll q weights ∧
      (e.AcceptsReverse q weights → ∃ px, e.reverse q weights = .ok px) := by
  by_cases accepts : e.AcceptsReverse q weights
  · have shaped := recorded.shaped (Nat.pos_of_ne_zero accepts.positive) accepts.orders inputs
    have shares : AllThree (Receives e.tape e.shape (¬ e.Thin weights ·) q False) e.outputs
        (weights.map List.toArray) (weights.map List.toArray) := by
      refine allThree_of_get (by simp [fits.length_eq]) (by simp [fits.length_eq])
        fun j y x x' at_j at_j' at_j'' => ?_
      obtain rfl := Option.some.inj (at_j'.symm.trans at_j'')
      obtain ⟨w, there, rfl⟩ := Option.map_eq_some_iff.1 ((List.getElem?_map ..).symm.trans at_j')
      have weighted : (y, w) ∈ e.outputs.zip weights :=
        List.mem_of_getElem? (i := j) (List.getElem?_zip_eq_some.2 ⟨at_j, there⟩)
      exact receives_of_fits weighted (accepts.lengths w (List.mem_of_getElem? there))
        ((List.forall₂_zip fits weighted))
    obtain ⟨px, _, done, done', rfl⟩ := reverse_beside shaped.twins
      (shaped.grading (fun _ _ => .handed) apart) rfl rfl accepts accepts shares
    exact ⟨done.trans done'.symm, fun _ => ⟨px, done⟩⟩
  · refine ⟨?_, fun accepted => absurd accepted accepts⟩
    cases check : e.checkReverse q weights with
    | ok u => exact absurd (checkReverse_eq_ok.1 check) accepts
    | error err =>
      unfold reverse reverseAll
      rw [reverseWith_eq, check]
      rfl

/-- A sum that spreads a scalar over an array, left out because its weight is an array of zeros. -/
theorem reverse_leaves_out_add :
    ∃ (f : Program.Frozen (Value ℝ)) (ys : List (Value ℝ)) (e' : Evaluator (Value ℝ)),
      Program.freeze Registry.builtins 7 [.array [1, 2], .scalar 3] [.binary .add 0 1] [2] = .ok f ∧
      forwardZero [.array [4, 5], .scalar 2] f.evaluator = (.ok ys, e') ∧
      e'.AcceptsReverse 1 [[.array [0, 0]]] ∧
      e'.reverse 1 [[.array [0, 0]]] = e'.reverseAll 1 [[.array [0, 0]]] ∧
      ∃ px, e'.reverse 1 [[.array [0, 0]]] = .ok px := by
  let tape : Tape (Value ℝ) := {
    id := 7
    nodes := #[⟨.input, .array [1, 2]⟩, ⟨.input, .scalar 3⟩,
      ⟨.binary .add 0 1, .array [1 + 3, 2 + 3]⟩]
    numInputs := 2
    atomics := #[] }
  have frozen : Program.freeze Registry.builtins 7 [.array [1, 2], .scalar 3] [.binary .add 0 1] [2] =
      .ok ⟨[.array [1 + 3, 2 + 3]], [.binary .add 0 1], .ofTape tape [2]⟩ := rfl
  have start : (Evaluator.ofTape tape [2]).RecordedOfBuiltIns :=
    ⟨_, 7, _, _, [2], _, Registry.builtins_faithful, by simp [Step.Foreign],
      by simp [Step.CallsBuiltIns], frozen, .refl⟩
  obtain ⟨e', point⟩ : ∃ e', forwardZero [.array [4, 5], .scalar 2] (.ofTape tape [2]) =
      (.ok [.array [4 + 2, 5 + 2]], e') := ⟨_, rfl⟩
  obtain ⟨c, here, same, outputs, _⟩ :=
    atPoint_of_forwardZero start.recorded.wellFormed start.onlyBuiltIns point
  have shape : e'.shape 2 = .array [4 + 2, 5 + 2] := by
    have solves := here.solves
    rw [same] at solves
    have first := Option.some.inj ((solves 0 (by decide)).input rfl)
    have second := Option.some.inj ((solves 1 (by decide)).input rfl)
    have sum := solves.binary (show tape.entry 2 = .ok (.binary .add 0 1) from rfl)
    rw [← first, ← second] at sum
    exact (here.values 2 (same ▸ (by decide : 2 < 3))).trans (Except.ok.inj sum).symm
  have fits : (Value.array [(0 : ℝ), 0]).SameShape (e'.shape 2) := shape ▸ .array rfl
  have thick : ∀ v, ¬ e'.Thin [[.array [0, 0]]] v := by
    intro v thin
    induction thin with
    | output weighted given bare =>
      rw [outputs] at weighted
      cases List.mem_singleton.1 weighted
      obtain rfl := List.mem_singleton.1 given
      exact bare (.inl fits)
    | handed _ _ ih => exact ih
  have inputs : ∀ j < e'.numInputs, ∀ k < 1, (e'.table.value j k 0).Fits (e'.shape j) := by
    intro j _ k zero
    obtain rfl := Nat.lt_one_iff.1 zero
    exact (SameShape.refl _).fits
  have weighted : List.Forall₂ (fun y (w : List (Value ℝ)) => ∀ u ∈ w, u.Fits (e'.shape y)) e'.outputs
      [[.array [0, 0]]] := by
    rw [outputs]
    exact .cons (by simpa using fits.fits) .nil
  have accepts : e'.AcceptsReverse 1 [[.array [0, 0]]] :=
    ⟨by decide, here.orders, by simp, by rw [numOutputs, outputs]; rfl, by simp⟩
  obtain ⟨same, succeeds⟩ := reverse_leaves_out (start.forwardZero point) _ inputs weighted
    fun i v thin => absurd thin (thick i)
  exact ⟨_, _, e', frozen, point, accepts, same, succeeds accepts⟩

end Evaluator

end TaylorTape
