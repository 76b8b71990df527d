import TaylorTape.Proofs.History
import TaylorTape.Proofs.Linearized
import TaylorTape.Proofs.Partials
import Mathlib.RingTheory.PowerSeries.Inverse

/-!
Weights that begin one order later give the same partials one order later.

What multiplies the perturbations of the inputs by a power series multiplies the differentials of
every variable by it.  So perturbations that come one order later lead to differentials that do.  The
partials of a reverse sweep are paired with the perturbations as the weights are with the
differentials; one perturbation at a time, the pairings of two sweeps, one through an order more than
the other, say that the one has the partials of the other.
-/

set_option autoImplicit false
set_option relaxedAutoImplicit false

namespace TaylorTape

open PowerSeries (constantCoeff coeff)
open Duals

private theorem SameBelow.cancel {F : Type} [ExactScalar F] {n : Nat} {p f g : PowerSeries F}
    (same : SameBelow n (p * f) (p * g)) (lead : constantCoeff p ≠ 0) : SameBelow n f g := by
  have unit : IsUnit p := PowerSeries.isUnit_iff_constantCoeff.2 (isUnit_iff_ne_zero.2 lead)
  rw [SameBelow, ← mul_sub] at same
  exact unit.dvd_mul_left.1 same

namespace Evaluator

variable {F : Type} [ExactScalar F] {e : Evaluator F} {n : Nat} {lifted : Tape (DualNumber F)}
  {seed seed' : Nat → List (DualNumber F)} {c c' : Nat → Nat → DualNumber F}

/-- What multiplies the perturbations of the inputs by a power series multiplies the differentials
of every variable by it. -/
private theorem differential_scaled (varies : e.Varies n lifted seed c)
    (varies' : e.Varies n lifted seed' c')
    (same : ∀ i, reals (c' i) = reals (c i)) (regular : e.Regular) (t : PowerSeries F)
    (inputs : ∀ j < e.numInputs, SameBelow n (differential (c' j)) (t * differential (c j))) :
    ∀ i < e.tape.size, SameBelow n (differential (c' i)) (t * differential (c i)) := by
  rcases Nat.eq_zero_or_pos n with rfl | positive
  · intro i _
    exact sameBelow_iff.2 nofun
  have wf := varies.wellFormed.tape
  intro i
  induction i using Nat.strong_induction_on with
  | _ i before =>
  intro inside
  obtain ⟨entry, found⟩ := Tape.exists_entry inside
  have operand : ∀ a ∈ entry.operands,
      SameBelow n (differential (c' a)) (t * differential (c a)) := by
    intro a reads
    have earlier := wf.operands i entry found a reads
    exact before a earlier (lt_trans earlier inside)
  cases entry with
  | input => exact inputs i ((wf.inputs i _ found).1 rfl)
  | const =>
    have still : SameBelow n (differential (c i)) 0 := sameBelow_iff.2 fun k below => by
      rw [PowerSeries.coeff_mk, map_zero]
      exact varies.still found below
    have still' : SameBelow n (differential (c' i)) 0 := sameBelow_iff.2 fun k below => by
      rw [PowerSeries.coeff_mk, map_zero]
      exact varies'.still found below
    obtain ⟨f, rule⟩ := still
    obtain ⟨f', rule'⟩ := still'
    exact ⟨f' - t * f, by linear_combination rule' - t * rule⟩
  | unary op a =>
    have fine := varies.regular_unary positive regular found
    have law := op.linearized (fun k low => varies.unary found low) fine
    have law' := op.linearized (fun k low => varies'.unary found low)
      (varies'.regular_unary positive regular found)
    rw [same, same] at law'
    refine SameBelow.cancel ?_ (UnaryOp.pivot_ne_zero fine)
    obtain ⟨f, rule⟩ := law
    obtain ⟨f', rule'⟩ := law'
    obtain ⟨g, left⟩ := operand a (by simp [Entry.operands])
    refine ⟨f' - t * f + op.factor (reals (c a)) (reals (c i)) * g, ?_⟩
    linear_combination rule' - t * rule + op.factor (reals (c a)) (reals (c i)) * left
  | binary op a b =>
    have fine := varies.regular_binary positive regular found
    have law := op.linearized (fun k low => varies.binary found low) fine
    have law' := op.linearized (fun k low => varies'.binary found low)
      (varies'.regular_binary positive regular found)
    rw [same, same, same] at law'
    refine SameBelow.cancel ?_ (BinaryOp.pivot_ne_zero fine)
    obtain ⟨f, rule⟩ := law
    obtain ⟨f', rule'⟩ := law'
    obtain ⟨g, left⟩ := operand a (by simp [Entry.operands])
    obtain ⟨h, right⟩ := operand b (by simp [Entry.operands])
    refine ⟨f' - t * f + op.factor (reals (c b)) * g +
      op.factor' (reals (c a)) (reals (c i)) * h, ?_⟩
    linear_combination rule' - t * rule + op.factor (reals (c b)) * left +
      op.factor' (reals (c a)) (reals (c i)) * right
  | call place args m =>
    obtain ⟨_, _, a, _, _, _, rfl, _⟩ := varies.passing i place args m found
    have left := sameBelow_iff.1 (operand a (by simp [Entry.operands]))
    refine sameBelow_iff.2 fun k below => ?_
    have own : coeff k (differential (c' i)) = coeff k (differential (c' a)) := by
      rw [PowerSeries.coeff_mk, PowerSeries.coeff_mk, shifts, varies'.call found below]
    rw [own, left k below, PowerSeries.coeff_mul, PowerSeries.coeff_mul]
    refine Finset.sum_congr rfl fun pair among => ?_
    have low := Finset.HasAntidiagonal.mem_antidiagonal.1 among
    rw [PowerSeries.coeff_mk, PowerSeries.coeff_mk, shifts, shifts,
      varies.call found (show pair.2 < n by omega)]
  | result owner => exact absurd found (varies.passing.not_result wf owner)

/-- The coefficients of a recorded evaluator vary with any perturbations of their seeds. -/
theorem RecordedOfBuiltIns.exists_varies (recorded : e.RecordedOfBuiltIns) (positive : 0 < n)
    (low : n ≤ e.numOrders) :
    ∃ lifted, ∀ d : Nat → Nat → F, ∃ seed c, e.Varies n lifted seed c ∧
      (∀ i, reals (c i) = e.table.along 0 i) ∧
      ∀ j < e.numInputs, ∀ k < n, (c j k).snd = d j k := by
  have wf := recorded.recorded.wellFormed
  obtain ⟨rows, count, lengths, holds⟩ := recorded.exists_seeds
  have passing := Tape.passing_of_holds recorded.onlyBuiltIns (holds 0 (by omega))
  obtain ⟨lifted, lifts⟩ := Tape.exists_lifts recorded.onlyBuiltIns
  refine ⟨lifted, fun d => ?_⟩
  let moved : List (List F) :=
    (List.range e.numOrders).map fun k => (List.range e.numInputs).map fun j => d j k
  have shapes : List.Forall₂ (fun x dx => x.length = dx.length) rows moved := by
    rw [List.forall₂_iff_get]
    refine ⟨by simp [moved, count], fun k below _ => ?_⟩
    simp [moved, lengths _ (List.getElem_mem below)]
  obtain ⟨_, e', _, _, holds', reals_eq⟩ :=
    exists_lifted_run wf passing lengths holds lifts shapes
  -- the real parts beyond the orders of the run are chosen to be those of the table
  let found : Nat → Nat → DualNumber F := fun i k =>
    perturb (e.table.along 0 i k) (e'.table.along 0 i k).snd
  have same : ∀ i < e.tape.size, ∀ k < n, e'.table.along 0 i k = found i k := by
    intro i inside k below
    refine TrivSqZeroExt.ext ?_ rfl
    exact reals_eq k (by omega) i inside
  have varies : e.Varies n lifted (fun k => ((perturbed rows moved)[k]?).getD []) found := {
    wellFormed := wf
    orders := low
    lifts := lifts
    passing := passing
    holds := fun k below i inside => by
      have wf' := lifts.wellFormed wf.tape
      refine (holds' k (by omega) i inside).congr wf' fun v made j le => ?_
      exact same v (lifts.size ▸ wf'.lt_of_produced made) j (by omega)
    reals := fun k below i inside => rfl }
  refine ⟨_, found, varies, fun i => rfl, fun j input k below => ?_⟩
  rw [varies.snd_input shapes (by omega) input below]
  have row : moved[k]? = some ((List.range e.numInputs).map fun j => d j k) := by
    rw [List.getElem?_map, List.getElem?_range (by omega)]
    rfl
  have place : ((List.range e.numInputs).map fun j => d j k)[j]? = some (d j k) := by
    rw [List.getElem?_map, List.getElem?_range input]
    rfl
  exact cell_eq row place

/-- A pairing with a unit picks one element. -/
theorem sum_unit (f : Nat → Nat → F) {m q j k : Nat} (low : j < m) (below : k < q) :
    ∑ i ∈ Finset.range m, ∑ l ∈ Finset.range q, f i l * (if i = j ∧ l = k then 1 else 0) =
      f j k := by
  rw [Finset.sum_eq_single j, Finset.sum_eq_single k]
  · rw [if_pos ⟨rfl, rfl⟩, mul_one]
  · intro l _ other
    rw [if_neg fun both => other both.2, mul_zero]
  · intro missing
    exact absurd (Finset.mem_range.2 below) missing
  · intro i _ other
    refine Finset.sum_eq_zero fun l _ => ?_
    rw [if_neg fun both => other both.1, mul_zero]
  · intro missing
    exact absurd (Finset.mem_range.2 low) missing

private theorem sum_weights_shifted {q : Nat} {weights : List (List F)} (wf : e.WellFormed)
    (count : weights.length = e.numOutputs)
    (later : ∀ i < e.tape.size,
      SameBelow (q + 1) (differential (c' i)) (PowerSeries.X * differential (c i))) :
    ∑ i ∈ Finset.range e.numOutputs, ∑ l ∈ Finset.range (q + 1),
        cell (weights.map (0 :: ·)) i l * (c' ((e.outputs[i]?).getD 0) l).snd =
      ∑ i ∈ Finset.range e.numOutputs, ∑ l ∈ Finset.range q,
        cell weights i l * (c ((e.outputs[i]?).getD 0) l).snd := by
  refine Finset.sum_congr rfl fun i among => ?_
  have output : i < e.outputs.length := Finset.mem_range.1 among
  have inside : i < weights.length := count ▸ output
  rw [List.getElem?_eq_getElem output, Option.getD_some]
  have series := sameBelow_iff.1 (later _ (wf.outputs _ (List.getElem_mem output)))
  have first : (c' e.outputs[i] 0).snd = 0 := by
    simpa using series 0 (Nat.succ_pos q)
  rw [Finset.sum_range_succ', first, mul_zero, add_zero]
  refine Finset.sum_congr rfl fun l member => ?_
  have next : (c' e.outputs[i] (l + 1)).snd = (c e.outputs[i] l).snd := by
    simpa using series (l + 1) (Nat.succ_lt_succ (Finset.mem_range.1 member))
  have weight : cell (weights.map (0 :: ·)) i (l + 1) = cell weights i l := by
    unfold cell
    rw [List.getElem?_map, List.getElem?_eq_getElem inside]
    rfl
  rw [weight, next]

theorem cell_of_unit {q j k : Nat} {weights px : List (List F)} (varies : e.Varies q lifted seed c)
    (regular : e.Regular) (accepts : e.AcceptsReverse q weights)
    (done : e.reverse q weights = .ok px) (input : j < e.numInputs) (below : k < q)
    (inputs : ∀ i < e.numInputs, ∀ l < q, (c i l).snd = if i = j ∧ l = k then 1 else 0) :
    cell px j k = ∑ i ∈ Finset.range e.numOutputs, ∑ l ∈ Finset.range q,
      cell weights i l * (c ((e.outputs[i]?).getD 0) l).snd := by
  obtain ⟨found, again, paired⟩ := varies.reverse regular accepts
  obtain rfl := Except.ok.inj (done.symm.trans again)
  rw [paired, ← sum_unit (cell px) input below]
  refine Finset.sum_congr rfl fun i among => Finset.sum_congr rfl fun l member => ?_
  rw [inputs i (Finset.mem_range.1 among) l (Finset.mem_range.1 member)]

/-- Zero weights put in front as order zero shift the partials by one order. -/
theorem reverse_shifted {q : Nat} {weights : List (List F)} (recorded : e.RecordedOfBuiltIns)
    (single : e.numDirections = 1) (orders : q + 1 ≤ e.numOrders) (regular : e.Regular)
    (positive : 0 < q) (count : weights.length = e.numOutputs)
    (lengths : ∀ w ∈ weights, w.length = q) :
    ∃ px px', e.reverse q weights = .ok px ∧
      e.reverse (q + 1) (weights.map (0 :: ·)) = .ok px' ∧
      px.length = e.numInputs ∧ (∀ p ∈ px, p.length = q) ∧
      (∀ p' ∈ px', p'.length = q + 1) ∧ px'.map List.tail = px := by
  have accepts : e.AcceptsReverse q weights :=
    ⟨Nat.ne_of_gt positive, by omega, fun _ => single, count, lengths⟩
  have accepts' : e.AcceptsReverse (q + 1) (weights.map (0 :: ·)) := by
    refine ⟨Nat.succ_ne_zero q, orders, fun _ => single, by rw [List.length_map, count], ?_⟩
    intro w member
    obtain ⟨w₀, among, rfl⟩ := List.mem_map.1 member
    rw [List.length_cons, lengths w₀ among]
  obtain ⟨lifted, runs⟩ := recorded.exists_varies (Nat.succ_pos q) orders
  -- both sweeps succeed, whatever the perturbations
  obtain ⟨_, _, still, _⟩ := runs fun _ _ => 0
  obtain ⟨px, done, ⟨many, wide⟩, _⟩ :=
    (still.mono (Nat.le_succ q)).reverse_shaped regular accepts
  obtain ⟨px', done', ⟨many', wide'⟩, _⟩ := still.reverse_shaped regular accepts'
  have each : ∀ j < e.numInputs, ∀ k < q, cell px' j (k + 1) = cell px j k := by
    intro j input k below
    obtain ⟨_, c, varies, real, inputs⟩ := runs fun i l => if i = j ∧ l = k then 1 else 0
    obtain ⟨_, c', varies', real', inputs'⟩ := runs fun i l => if i = j ∧ l = k + 1 then 1 else 0
    have later := differential_scaled varies varies' (fun i => (real' i).trans (real i).symm)
      regular PowerSeries.X fun i input => sameBelow_iff.2 fun l low => by
        rw [PowerSeries.coeff_mk, shifts, inputs' i input l low]
        cases l with
        | zero => simp
        | succ l =>
          rw [PowerSeries.coeff_succ_X_mul, PowerSeries.coeff_mk, shifts,
            inputs i input l (by omega)]
          simp
    rw [cell_of_unit varies' regular accepts' done' input (Nat.succ_lt_succ below) inputs',
      sum_weights_shifted varies.wellFormed count later]
    refine (cell_of_unit (varies.mono (Nat.le_succ q)) regular accepts done input below ?_).symm
    exact fun i input l low => inputs i input l (by omega)
  refine ⟨px, px', done, done', many, wide, wide', ?_⟩
  apply List.ext_getElem (by rw [List.length_map, many, many'])
  intro j _ high
  have inside : j < px'.length := by omega
  have row := wide _ (List.getElem_mem high)
  have row' := wide' _ (List.getElem_mem inside)
  rw [List.getElem_map]
  apply List.ext_getElem (by rw [List.length_tail, row', row]; rfl)
  intro k _ below
  have same := each j (by omega) k (by omega)
  rw [List.getElem_tail]
  rwa [cell_eq (List.getElem?_eq_getElem inside) (List.getElem?_eq_getElem (by omega)),
    cell_eq (List.getElem?_eq_getElem high) (List.getElem?_eq_getElem below)] at same

/-- A quotient, recorded at six and three. -/
noncomputable def quotient : Tape ℝ where
  id := 7
  nodes := #[⟨.input, 6⟩, ⟨.input, 3⟩, ⟨.binary .div 0 1, 6 / 3⟩]
  numInputs := 2
  atomics := #[]

private theorem freeze_quotient : Program.freeze Registry.builtins 7 [6, 3] [.binary .div 0 1] [2] =
    .ok ⟨[6 / 3], [.binary .div 0 1], .ofTape quotient [2]⟩ :=
  rfl

theorem recorded_quotient : (ofTape quotient [2]).RecordedOfBuiltIns :=
  ⟨_, 7, [6, 3], _, [2], _, Registry.builtins_faithful, by simp [Step.Foreign],
    by simp [Step.CallsBuiltIns], freeze_quotient, .refl⟩

theorem regular_quotient {e : Evaluator ℝ} (tape : e.tape = quotient)
    (divisor : e.table.value 1 0 0 ≠ 0) : e.Regular := by
  rw [Regular, tape]
  intro i entry found
  obtain ⟨v, node⟩ := Tape.entry_eq_ok.1 found
  rcases i with _ | _ | _ | i
  · obtain ⟨rfl, _⟩ := Node.mk.inj (Option.some.inj node)
    trivial
  · obtain ⟨rfl, _⟩ := Node.mk.inj (Option.some.inj node)
    trivial
  · obtain ⟨rfl, _⟩ := Node.mk.inj (Option.some.inj node)
    exact divisor
  · cases node

/-- A quotient through order one: its partials are those that its derivative has in the order above. -/
theorem reverse_shifted_div :
    ∃ (answers : List (List (List ℝ))) (e' : Evaluator ℝ),
      forwardFrom 0 [[[6, 3]], [[1, 2]]] (.ofTape quotient [2]) = (.ok answers, e') ∧
      ∃ px px', e'.reverse 1 [[5]] = .ok px ∧ e'.reverse 2 [[0, 5]] = .ok px' ∧
        px.length = 2 ∧ px'.map List.tail = px := by
  have wf := recorded_quotient.recorded.wellFormed
  have passing : quotient.Passing := Tape.passing_of_no_call (by simp [quotient])
  obtain ⟨answers, e', done⟩ := forwardFrom_scalar (k := 0) wf passing
    (show ∀ seed ∈ [[6, 3], [1, 2]], _ by simp [numInputs, ofTape, quotient]) (Nat.zero_le _)
    (by omega)
  have ran := forwardFrom_zero wf done
  have divisor : some (3 : ℝ) = some (e'.table.value 1 0 0) :=
    (ran.holds 0 (by simp) 1 (by simp [ofTape, quotient, Tape.size])).input rfl
  have regular : e'.Regular := by
    apply regular_quotient ran.tape
    rw [← Option.some.inj divisor]
    exact three_ne_zero
  have orders : e'.numOrders = 2 := ran.orders (by simp)
  obtain ⟨px, px', swept, swept', many, _, _, same⟩ := reverse_shifted
    (recorded_quotient.forwardFrom done) (ran.directions 1 [[1, 2]] (by simp) rfl).symm orders.ge
    regular Nat.one_pos (show [[5]].length = _ from (congrArg List.length ran.outputs).symm)
    (by simp)
  have inputs : e'.numInputs = 2 := congrArg Tape.numInputs ran.tape
  exact ⟨answers, e', done, px, px', swept, swept', many.trans inputs, same⟩

end Evaluator

end TaylorTape
