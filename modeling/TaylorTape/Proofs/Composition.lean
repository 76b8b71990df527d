import TaylorTape.Proofs.Agreement
import TaylorTape.Proofs.Composed
import TaylorTape.Proofs.Irregular
import TaylorTape.Proofs.OrderShift
import TaylorTape.Proofs.SeriesReading

/-!
The evaluator of one program after another does what their evaluators do one after the other.

Read in series of dual numbers, the tape of the recording in two parts gives the same outputs as the
two tapes, the inputs of the second being read as the outputs of the first.  The real parts are what
the runs find along a direction, so that the runs agree.  The infinitesimal parts are the differentials
with which reverse sweeps pair their partials, so that the two reverse sweeps, one after the other,
pair with all perturbations of the inputs as the single one does.
-/

set_option autoImplicit false
set_option relaxedAutoImplicit false

namespace TaylorTape

open Duals

namespace Evaluator

section Cells

variable {F : Type} [ExactScalar F] {n q : Nat} {px px' : List (List F)}

private theorem eq_of_cells (shape : px.length = n ∧ ∀ p ∈ px, p.length = q)
    (shape' : px'.length = n ∧ ∀ p ∈ px', p.length = q)
    (same : ∀ j < n, ∀ k < q, cell px j k = cell px' j k) : px = px' := by
  obtain ⟨many, wide⟩ := shape
  obtain ⟨many', wide'⟩ := shape'
  refine List.ext_getElem (many.trans many'.symm) fun j inside inside' => ?_
  have row := wide _ (List.getElem_mem inside)
  have row' := wide' _ (List.getElem_mem inside')
  refine List.ext_getElem (row.trans row'.symm) fun k below below' => ?_
  have each := same j (many ▸ inside) k (row ▸ below)
  rwa [cell_eq (List.getElem?_eq_getElem inside) (List.getElem?_eq_getElem below),
    cell_eq (List.getElem?_eq_getElem inside') (List.getElem?_eq_getElem below')] at each

private theorem eq_of_paired (shape : px.length = n ∧ ∀ p ∈ px, p.length = q)
    (shape' : px'.length = n ∧ ∀ p ∈ px', p.length = q)
    (paired : ∀ dx : Nat → Nat → F,
      ∑ j ∈ Finset.range n, ∑ k ∈ Finset.range q, cell px j k * dx j k =
        ∑ j ∈ Finset.range n, ∑ k ∈ Finset.range q, cell px' j k * dx j k) : px = px' := by
  refine eq_of_cells shape shape' fun j low k below => ?_
  have each := paired fun i l => if i = j ∧ l = k then 1 else 0
  rwa [sum_unit (cell px) low below, sum_unit (cell px') low below] at each

omit [ExactScalar F] in
private theorem eq_of_map_eq {A : Type} {xs ys : List Nat} {c c' : Nat → A}
    (same : xs.map c = ys.map c')
    {i : Nat} (inside : i < xs.length) : c ((xs[i]?).getD 0) = c' ((ys[i]?).getD 0) := by
  have length : xs.length = ys.length := by simpa using congrArg List.length same
  have each := congrArg (·[i]?) same
  simp only [List.getElem?_map, List.getElem?_eq_getElem inside,
    List.getElem?_eq_getElem (length ▸ inside), Option.map_some, Option.some.injEq] at each
  rwa [List.getElem?_eq_getElem inside, List.getElem?_eq_getElem (length ▸ inside)]

end Cells

section Runs

variable {F : Type} [ExactScalar F] {e e' f : Evaluator F}
  {rows rows' answers : List (List (List F))} {k m n : Nat}

private theorem forwardFrom_beside (wf : e.WellFormed) (wf' : e'.WellFormed)
    (passing : e'.tape.Passing) (arity : e.numInputs = m) (arity' : e'.numInputs = n)
    (alike : List.Forall₂ (fun seeds seeds' => seeds'.length = seeds.length ∧
      ((∀ seed ∈ seeds, seed.length = m) → ∀ seed ∈ seeds', seed.length = n)) rows rows')
    (orders : k ≤ e'.numOrders) (directions : 1 < k → e'.numDirections = e.numDirections)
    (done : forwardFrom k rows e = (.ok answers, f)) :
    ∃ answers' f', forwardFrom k rows' e' = (.ok answers', f') := by
  induction alike generalizing k e e' answers with
  | nil => exact ⟨[], e', rfl⟩
  | @cons seeds seeds' rows rows' head _ ih =>
    obtain ⟨many, lengths⟩ := head
    obtain ⟨ys, mid, first, done⟩ := run_bind_eq_ok.1 done
    obtain ⟨zs, last, rest, done⟩ := run_bind_eq_ok.1 done
    obtain ⟨_, rfl⟩ := Prod.mk.inj done
    have advanced := forward_sound wf first
    have accepted := advanced.accepted
    have accepts : e'.Accepts k seeds'.length seeds' := {
      positive := many ▸ accepted.positive
      count := rfl
      lengths := fun seed member => (lengths (arity ▸ accepted.lengths) seed member).trans arity'.symm
      point := fun zero => many.trans (accepted.point zero)
      orders := orders
      directions := fun high =>
        (many.trans (accepted.directions high)).trans (directions high).symm }
    obtain ⟨ys', mid', first', advanced'⟩ := forward_scalar wf' passing accepts
    have along : 1 < k + 1 → mid'.numDirections = mid.numDirections := fun high => by
      have positive : k ≠ 0 := by omega
      rw [advanced'.directions, advanced.directions, if_neg positive, if_neg positive, many]
    obtain ⟨zs', last', rest'⟩ := ih advanced.wellFormed advanced'.wellFormed
      (advanced'.tape ▸ passing) ((congrArg Tape.numInputs advanced.tape).trans arity)
      ((congrArg Tape.numInputs advanced'.tape).trans arity') advanced'.orders.ge along rest
    exact ⟨ys' :: zs', last', run_bind_eq_ok.2 ⟨ys', mid', first',
      run_bind_eq_ok.2 ⟨zs', last', rest', rfl⟩⟩⟩

private theorem Realizes.reals
    {rule : List (Nat → DualNumber F) → Except Error (List (Nat → DualNumber F))}
    (realizes : e.Realizes Duals.reading rule) (ran : e.Ran [] rows answers f)
    {c : Nat → Nat → DualNumber F} (reads : e.tape.Reads Duals.reading c) {d : Nat}
    (along : d < f.numDirections)
    (seeds : ∀ k < rows.length, (List.range e.numInputs).map (fun j => (c j k).fst) =
      seedAt rows k d) (below : k < rows.length) :
    e.outputs.map (fun y => (c y k).fst) = e.outputs.map fun y => f.table.value y k d := by
  obtain ⟨lifted, lifts⟩ := Tape.exists_lifts realizes.passing.onlyBuiltIns
  refine List.map_congr_left fun y among => ?_
  exact ran.reals realizes.wellFormed realizes.passing lifts reads along seeds k below y
    (realizes.wellFormed.outputs y among)

private theorem Realizes.reverse
    {rule : List (Nat → DualNumber F) → Except Error (List (Nat → DualNumber F))}
    (realizes : e.Realizes Duals.reading rule) (ran : e.Ran [] rows answers f)
    {c : Nat → Nat → DualNumber F} (reads : e.tape.Reads Duals.reading c)
    (seeds : ∀ k < rows.length, (List.range e.numInputs).map (fun j => (c j k).fst) =
      seedAt rows k 0) {q : Nat} (low : q ≤ rows.length) {weights : List (List F)}
    (accepts : f.AcceptsReverse q weights) :
    ∃ px, f.reverse q weights = .ok px ∧ (px.length = e.numInputs ∧ ∀ p ∈ px, p.length = q) ∧
      ∑ i ∈ Finset.range e.numOutputs, ∑ k ∈ Finset.range q,
          cell weights i k * (c ((e.outputs[i]?).getD 0) k).snd =
        ∑ j ∈ Finset.range e.numInputs, ∑ k ∈ Finset.range q, cell px j k * (c j k).snd := by
  obtain ⟨lifted, lifts⟩ := Tape.exists_lifts realizes.passing.onlyBuiltIns
  have found := (ran.varies realizes.wellFormed realizes.passing lifts reads low
    seeds).reverse_everywhere accepts
  rwa [numOutputs, numInputs, ran.outputs, ran.tape] at found

end Runs

section Chains

variable {F : Type} [ExactScalar F] {e e' e'' f f' f'' : Evaluator F}
  {rows answers answers' answers'' : List (List (List F))} {d : Nat} {dx : Nat → Nat → F}
  {c c' c'' : Nat → Nat → DualNumber F}
  {rule rule' : List (Nat → DualNumber F) → Except Error (List (Nat → DualNumber F))}

/-- The series of inputs along a direction of a run, varying as given. -/
def inputSeries (n : Nat) (rows : List (List (List F))) (d : Nat) (dx : Nat → Nat → F) :
    List (Nat → DualNumber F) :=
  (List.range n).map fun j k => perturb (((seedAt rows k d)[j]?).getD 0) (dx j k)

/-- Three evaluators, of which the last realizes the second after the first. -/
structure Chained (e e' e'' : Evaluator F)
    (rule rule' : List (Nat → DualNumber F) → Except Error (List (Nat → DualNumber F))) : Prop where
  first : e.Realizes Duals.reading rule
  second : e'.Realizes Duals.reading rule'
  both : e''.Realizes Duals.reading (fun X => rule X >>= rule')
  inputs : e''.numInputs = e.numInputs
  middle : e'.numInputs = e.numOutputs
  outputs : e''.numOutputs = e'.numOutputs

/-- Series in which the three are read along a direction of a run, the inputs varying as given. -/
structure Threaded (e e' e'' : Evaluator F) (rows answers : List (List (List F))) (d : Nat)
    (dx : Nat → Nat → F) (c c' c'' : Nat → Nat → DualNumber F) : Prop where
  first : e.tape.Reads Duals.reading c
  second : e'.tape.Reads Duals.reading c'
  both : e''.tape.Reads Duals.reading c''
  seeds : ∀ k < rows.length,
    (List.range e.numInputs).map (fun j => (c j k).fst) = seedAt rows k d
  middle : ∀ k < rows.length,
    (List.range e'.numInputs).map (fun j => (c' j k).fst) = seedAt answers k d
  same : ∀ j < e.numInputs, c'' j = c j
  varying : ∀ j < e.numInputs, ∀ k, (c j k).snd = dx j k
  passed : (List.range e'.numInputs).map c' = e.outputs.map c
  given : e''.outputs.map c'' = e'.outputs.map c'

private theorem Threaded.passed_at (threaded : Threaded e e' e'' rows answers d dx c c' c'')
    {i : Nat} (low : i < e'.numInputs) : c' i = c ((e.outputs[i]?).getD 0) := by
  have same := eq_of_map_eq threaded.passed (i := i) (by simpa using low)
  rwa [List.getElem?_range low, Option.getD_some] at same

private theorem Threaded.seeds' (threaded : Threaded e e' e'' rows answers d dx c c' c'')
    (inputs : e''.numInputs = e.numInputs) : ∀ k < rows.length,
    (List.range e''.numInputs).map (fun j => (c'' j k).fst) = seedAt rows k d := by
  intro k below
  rw [← threaded.seeds k below, inputs]
  exact List.map_congr_left fun j among => by rw [threaded.same j (List.mem_range.1 among)]

private theorem Chained.exists_threaded (chained : Chained e e' e'' rule rule')
    (ran : e.Ran [] rows answers f) (point : ∀ seeds, rows[0]? = some seeds → seeds.length = 1)
    (along : d < f.numDirections) (dx : Nat → Nat → F) :
    ∃ c c' c'', Threaded e e' e'' rows answers d dx c c' c'' := by
  have many : (inputSeries e.numInputs rows d dx).length = e.numInputs := by simp [inputSeries]
  obtain ⟨c, reads, listed, given⟩ := chained.first.reads _ many
  obtain ⟨c', reads', passed, given'⟩ := chained.second.reads (e.outputs.map c)
    (by rw [List.length_map, chained.middle, numOutputs])
  obtain ⟨c'', reads'', listed', given''⟩ := chained.both.reads _ (many.trans chained.inputs.symm)
  have input := fun j (low : j < e.numInputs) =>
    List.map_inj_left.1 listed j (List.mem_range.2 low)
  have seeds : ∀ k < rows.length,
      (List.range e.numInputs).map (fun j => (c j k).fst) = seedAt rows k d := fun k below => by
    have count : (seedAt rows k d).length = e.numInputs :=
      (ran.cached.lengths k below d along).trans (congrArg Tape.numInputs ran.tape)
    refine (eq_map_range count fun j low => ?_).symm
    rw [input j low, fst_perturb, List.getElem?_eq_getElem (count ▸ low), Option.getD_some]
  refine ⟨c, c', c'', reads, reads', reads'', seeds, fun k below => ?_, fun j low => ?_,
    fun j low k => by rw [input j low, snd_perturb], passed, ?_⟩
  · calc (List.range e'.numInputs).map (fun j => (c' j k).fst)
        = (e.outputs.map c).map (fun s => (s k).fst) := by rw [← passed, List.map_map]; rfl
      _ = e.outputs.map fun y => f.table.value y k d := by
        rw [List.map_map]
        exact chained.first.reals ran reads along seeds below
      _ = seedAt answers k d := (ran.seedAt_answers point below along).symm
  · rw [chained.inputs] at listed'
    exact List.map_inj_left.1 (listed'.trans listed.symm) j (List.mem_range.2 low)
  · rw [given, ok_bind, given'] at given''
    exact (Except.ok.inj given'').symm

/-- Runs of the three, that of the second from what the first answers. -/
structure ChainedRuns (e e' e'' f f' f'' : Evaluator F)
    (rows answers answers' answers'' : List (List (List F)))
    (rule rule' : List (Nat → DualNumber F) → Except Error (List (Nat → DualNumber F))) : Prop where
  chained : Chained e e' e'' rule rule'
  first : e.Ran [] rows answers f
  second : e'.Ran [] answers answers' f'
  both : e''.Ran [] rows answers'' f''
  point : ∀ seeds, rows[0]? = some seeds → seeds.length = 1
  point' : ∀ seeds, answers[0]? = some seeds → seeds.length = 1

private theorem Chained.runs (chained : Chained e e' e'' rule rule')
    (done : forwardFrom 0 rows e = (.ok answers, f))
    (done' : forwardFrom 0 answers e' = (.ok answers', f'))
    (done'' : forwardFrom 0 rows e'' = (.ok answers'', f'')) :
    ChainedRuns e e' e'' f f' f'' rows answers answers' answers'' rule rule' where
  chained := chained
  first := forwardFrom_zero chained.first.wellFormed done
  second := forwardFrom_zero chained.second.wellFormed done'
  both := forwardFrom_zero chained.both.wellFormed done''
  point := point_of_forwardFrom chained.first.wellFormed done
  point' := point_of_forwardFrom chained.second.wellFormed done'

namespace ChainedRuns

variable (runs : ChainedRuns e e' e'' f f' f'' rows answers answers' answers'' rule rule') {q : Nat}
  {weights py px px'' : List (List F)}

include runs

private theorem length_eq : rows.length = answers.length :=
  runs.first.alike.length_eq

private theorem outputs_eq {k : Nat} (below : k < rows.length) (along : d < f.numDirections)
    (along' : d < f'.numDirections) (along'' : d < f''.numDirections) :
    e''.outputs.map (fun y => f''.table.value y k d) =
      e'.outputs.map fun y => f'.table.value y k d := by
  have chained := runs.chained
  have length := runs.length_eq
  obtain ⟨c, c', c'', threaded⟩ := chained.exists_threaded runs.first runs.point along 0
  rw [← chained.both.reals runs.both threaded.both along'' (threaded.seeds' chained.inputs) below,
    ← chained.second.reals runs.second threaded.second along' (length ▸ threaded.middle)
      (length ▸ below)]
  have given := congrArg (List.map fun s : Nat → DualNumber F => (s k).fst) threaded.given
  rwa [List.map_map, List.map_map] at given

private theorem answers_eq : answers'' = answers' := by
  have alike := runs.first.alike
  have length := runs.length_eq
  refine runs.both.answers.trans (Eq.trans (List.ext_getElem? fun k => ?_) runs.second.answers.symm)
  rw [getElem?_answers, getElem?_answers, runs.both.outputs, runs.second.outputs, List.length_nil,
    Nat.zero_add]
  by_cases below : k < rows.length
  · have there : rows[k]? = some rows[k] := List.getElem?_eq_getElem below
    have below' : k < answers.length := length ▸ below
    have there' : answers[k]? = some answers[k] := List.getElem?_eq_getElem below'
    have same : answers[k].length = rows[k].length :=
      ((List.forall₂_iff_get.1 alike).2 k below below').1
    rw [there, there', Option.map_some, Option.map_some, same]
    refine congrArg some (List.map_congr_left fun d among => ?_)
    have among := List.mem_range.1 among
    exact runs.outputs_eq below (runs.first.lt_directions runs.point there among)
      (runs.second.lt_directions runs.point' there' (same ▸ among))
      (runs.both.lt_directions runs.point there among)
  · rw [List.getElem?_eq_none (by omega), List.getElem?_eq_none (by omega)]
    rfl

/-- The partials of the single sweep pair with any perturbations as those of the two sweeps do. -/
private theorem paired (low : q ≤ rows.length) (swept' : f'.reverse q weights = .ok py)
    (swept : f.reverse q py = .ok px) (swept'' : f''.reverse q weights = .ok px'')
    (dx : Nat → Nat → F) :
    ∑ j ∈ Finset.range e.numInputs, ∑ k ∈ Finset.range q, cell px'' j k * dx j k =
      ∑ j ∈ Finset.range e.numInputs, ∑ k ∈ Finset.range q, cell px j k * dx j k := by
  have chained := runs.chained
  have length := runs.length_eq
  obtain ⟨c, c', c'', threaded⟩ := chained.exists_threaded runs.first runs.point
    runs.first.wellFormed.table.directions dx
  obtain ⟨_, again', _, sum'⟩ := chained.second.reverse runs.second threaded.second
    (length ▸ threaded.middle) (length ▸ low) (acceptsReverse_of_ok swept')
  obtain rfl := Except.ok.inj (swept'.symm.trans again')
  obtain ⟨_, again, _, sum⟩ := chained.first.reverse runs.first threaded.first threaded.seeds low
    (acceptsReverse_of_ok swept)
  obtain rfl := Except.ok.inj (swept.symm.trans again)
  obtain ⟨_, again'', _, sum''⟩ := chained.both.reverse runs.both threaded.both
    (threaded.seeds' chained.inputs) low (acceptsReverse_of_ok swept'')
  obtain rfl := Except.ok.inj (swept''.symm.trans again'')
  rw [chained.inputs, chained.outputs] at sum''
  rw [chained.middle] at sum'
  have inputs : ∀ p : List (List F),
      ∑ j ∈ Finset.range e.numInputs, ∑ k ∈ Finset.range q, cell p j k * (c j k).snd =
        ∑ j ∈ Finset.range e.numInputs, ∑ k ∈ Finset.range q, cell p j k * dx j k :=
    fun p => Finset.sum_congr rfl fun j among => Finset.sum_congr rfl fun k _ => by
      rw [threaded.varying j (Finset.mem_range.1 among)]
  calc ∑ j ∈ Finset.range e.numInputs, ∑ k ∈ Finset.range q, cell px'' j k * dx j k
      = ∑ j ∈ Finset.range e.numInputs, ∑ k ∈ Finset.range q, cell px'' j k * (c'' j k).snd := by
        rw [← inputs]
        exact Finset.sum_congr rfl fun j among => by rw [threaded.same j (Finset.mem_range.1 among)]
    _ = ∑ i ∈ Finset.range e'.numOutputs, ∑ k ∈ Finset.range q,
          cell weights i k * (c' ((e'.outputs[i]?).getD 0) k).snd := by
        rw [← sum'']
        refine Finset.sum_congr rfl fun i among => ?_
        have output : i < e''.numOutputs := chained.outputs ▸ Finset.mem_range.1 among
        rw [eq_of_map_eq threaded.given output]
    _ = ∑ i ∈ Finset.range e.numOutputs, ∑ k ∈ Finset.range q,
          cell py i k * (c ((e.outputs[i]?).getD 0) k).snd := by
        rw [sum']
        refine Finset.sum_congr rfl fun i among => ?_
        rw [← threaded.passed_at (chained.middle ▸ Finset.mem_range.1 among)]
    _ = ∑ j ∈ Finset.range e.numInputs, ∑ k ∈ Finset.range q, cell px j k * dx j k :=
      sum.trans (inputs px)

private theorem accepts_first (low : q ≤ rows.length) (accepts : f''.AcceptsReverse q weights)
    (shape : py.length = e'.numInputs ∧ ∀ p ∈ py, p.length = q) : f.AcceptsReverse q py where
  positive := accepts.positive
  orders := low.trans (by simpa using runs.first.cached.orders)
  directions several := by
    rw [runs.first.numDirections_eq (several.trans_le low), ← runs.both.numDirections_eq]
    exact accepts.directions several
  count := by rw [shape.1, runs.chained.middle, numOutputs, numOutputs, runs.first.outputs]
  lengths := shape.2

private theorem reverse_eq (low : q ≤ rows.length) (accepts' : f'.AcceptsReverse q weights)
    (accepts'' : f''.AcceptsReverse q weights) :
    ∃ py px, f'.reverse q weights = .ok py ∧ f.reverse q py = .ok px ∧
      f''.reverse q weights = .ok px := by
  have chained := runs.chained
  have length := runs.length_eq
  -- the sweeps succeed whatever the perturbations, and their partials do not depend on them
  obtain ⟨_, _, _, threaded⟩ := chained.exists_threaded runs.first runs.point
    runs.first.wellFormed.table.directions 0
  obtain ⟨py, swept', shape', _⟩ := chained.second.reverse runs.second threaded.second
    (length ▸ threaded.middle) (length ▸ low) accepts'
  obtain ⟨px, swept, shape, _⟩ := chained.first.reverse runs.first threaded.first threaded.seeds low
    (runs.accepts_first low accepts'' shape')
  obtain ⟨px'', swept'', shape'', _⟩ := chained.both.reverse runs.both threaded.both
    (threaded.seeds' chained.inputs) low accepts''
  rw [chained.inputs] at shape''
  obtain rfl := eq_of_paired shape'' shape (runs.paired low swept' swept swept'')
  exact ⟨py, px'', swept', swept, swept''⟩

private theorem checkReverse_eq (positive : rows ≠ []) (q : Nat) (weights : List (List F)) :
    f''.checkReverse q weights = f'.checkReverse q weights := by
  have length := runs.length_eq
  have positive' : answers ≠ [] := fun none =>
    positive (List.length_eq_zero_iff.1 (by rw [length, none, List.length_nil]))
  refine checkReverse_congr ?_ ?_ (fun several low => ?_) weights
  · rw [numOutputs, numOutputs, runs.both.outputs, runs.second.outputs]
    exact runs.chained.outputs
  · rw [runs.both.orders positive, runs.second.orders positive', length]
  · rw [runs.second.orders positive', List.length_nil, Nat.zero_add] at low
    have inside : 1 < answers.length := several.trans_le low
    rw [runs.both.numDirections_eq (length ▸ inside), runs.second.numDirections_eq inside]
    exact ((List.forall₂_iff_get.1 runs.first.alike).2 1 (length ▸ inside) inside).1.symm

private theorem sweep (positive : rows ≠ []) (q : Nat) (weights : List (List F)) :
    f''.reverse q weights = f'.reverse q weights >>= f.reverse q ∧
      (f''.AcceptsReverse q weights → ∃ px, f''.reverse q weights = .ok px) := by
  have check := runs.checkReverse_eq positive q weights
  cases checked : f'.checkReverse q weights with
  | error err =>
    have refused : f''.reverse q weights = .error err := by
      rw [reverse, reverseWith, check, checked]
      rfl
    refine ⟨?_, fun accepts => ?_⟩
    · rw [refused, reverse, reverseWith, checked]
      rfl
    · rw [checkReverse_eq_ok.2 accepts, checked] at check
      cases check
  | ok =>
    have accepts'' := checkReverse_eq_ok.1 (check.trans checked)
    have low : q ≤ rows.length := by
      have orders := accepts''.orders
      rw [runs.both.orders positive] at orders
      simpa using orders
    obtain ⟨py, px, swept', swept, swept''⟩ :=
      runs.reverse_eq low (checkReverse_eq_ok.1 checked) accepts''
    exact ⟨by rw [swept', swept'', ok_bind, swept], fun _ => ⟨px, swept''⟩⟩

end ChainedRuns

private theorem Chained.forward (chained : Chained e e' e'' rule rule')
    (done : forwardFrom 0 rows e = (.ok answers, f)) :
    ∃ answers' f' f'', forwardFrom 0 answers e' = (.ok answers', f') ∧
      forwardFrom 0 rows e'' = (.ok answers', f'') := by
  have wf := chained.first.wellFormed
  have alike := (forwardFrom_zero wf done).alike
  obtain ⟨answers', f', done'⟩ := forwardFrom_beside wf chained.second.wellFormed
    chained.second.passing rfl chained.middle
    (alike.imp fun seeds ys each => ⟨each.1, fun _ => each.2⟩) (Nat.zero_le _) (by omega) done
  obtain ⟨answers'', f'', done''⟩ := forwardFrom_beside wf chained.both.wellFormed
    chained.both.passing rfl chained.inputs
    (List.forall₂_same.2 fun seeds _ => ⟨rfl, id⟩) (Nat.zero_le _) (by omega) done
  obtain rfl := (chained.runs done done' done'').answers_eq
  exact ⟨answers'', f', f'', done', done''⟩

end Chains

/-- A program recorded on the outputs of another, in one session, is evaluated as the two that are
recorded on their own.  Whatever was asked of the three evaluators before, what the first answers to
some seeds are seeds that the second takes, and the last answers to the seeds of the first what the
second answers.  After that a reverse sweep of the last gives what a sweep of the second and then one
of the first give; and it gives partials, after seeds along one direction, for all weights of the
outputs. -/
theorem freezeThen_composes {F : Type} [ExactScalar F] {registry registry' registry'' : Registry F}
    {id id' id'' : Nat} {x y z : List F} {steps steps' : List (Step F)} {outputs outputs' : List Nat}
    {f g : Program.Frozen F} {h e₁ e₂ e₃ e : Evaluator F} {rows answers : List (List (List F))}
    (faithful : registry.Faithful) (faithful' : registry'.Faithful)
    (faithful'' : registry''.Faithful) (straight : ∀ s ∈ steps, s.Straight)
    (straight' : ∀ s ∈ steps', s.Straight) (foreign : ∀ s ∈ steps, s.Foreign id ∧ s.Foreign id'')
    (foreign' : ∀ s ∈ steps', s.Foreign id' ∧ s.Foreign id'')
    (frozen : Program.freeze registry id x steps outputs = .ok f)
    (frozen' : Program.freeze registry' id' y steps' outputs' = .ok g)
    (frozen'' : Program.freezeThen registry'' id'' z steps outputs steps' outputs' = .ok h)
    (inputs : z.length = x.length) (middle : y.length = outputs.length)
    (later : f.evaluator.Later e₁) (later' : g.evaluator.Later e₂) (later'' : h.Later e₃)
    (positive : rows ≠ []) (done : forwardFrom 0 rows e₁ = (.ok answers, e)) :
    ∃ answers' e' e'', forwardFrom 0 answers e₂ = (.ok answers', e') ∧
      forwardFrom 0 rows e₃ = (.ok answers', e'') ∧
      (∀ q weights, e''.reverse q weights = e'.reverse q weights >>= e.reverse q) ∧
      ((∀ seeds ∈ rows, seeds.length = 1) → ∀ q weights, 1 ≤ q → q ≤ rows.length →
        weights.length = outputs'.length → (∀ w ∈ weights, w.length = q) →
        ∃ px, e''.reverse q weights = .ok px) := by
  obtain ⟨first, many, given⟩ := Program.freeze_realizes Duals.reading faithful straight
    (fun s member => (foreign s member).1) frozen
  obtain ⟨second, many', given'⟩ := Program.freeze_realizes Duals.reading faithful' straight'
    (fun s member => (foreign' s member).1) frozen'
  obtain ⟨both, many'', given''⟩ := Program.freezeThen_realizes Duals.reading faithful'' straight
    (fun s member => (foreign s member).2) straight' (fun s member => (foreign' s member).2) frozen''
  obtain ⟨_, tape, outs⟩ := later.kept first.wellFormed
  obtain ⟨_, tape', outs'⟩ := later'.kept second.wellFormed
  obtain ⟨_, tape'', outs''⟩ := later''.kept both.wellFormed
  have chained : Chained e₁ e₂ e₃ _ _ := {
    first := first.later later
    second := second.later later'
    both := both.later later''
    inputs := by
      rw [numInputs, numInputs, tape, tape'']
      exact (many''.trans inputs).trans many.symm
    middle := by
      rw [numInputs, numOutputs, tape', outs]
      exact (many'.trans middle).trans given.symm
    outputs := by
      rw [numOutputs, numOutputs, outs', outs'']
      exact given''.trans given'.symm }
  obtain ⟨answers', e', e'', done', done''⟩ := chained.forward done
  have runs := chained.runs done done' done''
  have swept := runs.sweep positive
  have ran := runs.both
  refine ⟨answers', e', e'', done', done'', fun q weights => (swept q weights).1, ?_⟩
  intro single q weights high low count lengths
  have length : e''.numOutputs = outputs'.length := by
    rw [numOutputs, ran.outputs, outs'']
    exact given''
  refine (swept q weights).2 ⟨by omega, ?_, fun several => ?_, count.trans length.symm, lengths⟩
  · rw [ran.orders positive]
    simpa using low
  · rw [ran.numDirections_eq (several.trans_le low)]
    exact single _ (List.getElem_mem _)

/-- The exponential, a constant and the exponential again, and then the product of the first two,
recorded at different points. -/
theorem freezeThen_composes_exp :
    ∃ (f g : Program.Frozen ℝ) (h e e' e'' : Evaluator ℝ) (answers answers' : List (List (List ℝ))),
      Program.freeze Registry.builtins 7 [2] [.unary .exp 0, .bring (.parameter 3)] [1, 2, 1] =
        .ok f ∧
      Program.freeze Registry.builtins 8 [1, 1, 1] [.binary .mul 0 1] [3] = .ok g ∧
      Program.freezeThen Registry.builtins 9 [5] [.unary .exp 0, .bring (.parameter 3)] [1, 2, 1]
        [.binary .mul 0 1] [3] = .ok h ∧
      forwardFrom 0 [[[2]], [[1]]] f.evaluator = (.ok answers, e) ∧
      forwardFrom 0 answers g.evaluator = (.ok answers', e') ∧
      forwardFrom 0 [[[2]], [[1]]] h = (.ok answers', e'') ∧
      ∃ py px, e'.reverse 2 [[0, 1]] = .ok py ∧ e.reverse 2 py = .ok px ∧
        e''.reverse 2 [[0, 1]] = .ok px := by
  let tape : Tape ℝ := {
    id := 7
    nodes := #[⟨.input, 2⟩, ⟨.unary .exp 0, Real.exp 2⟩, ⟨.const, 3⟩]
    numInputs := 1
    atomics := #[] }
  let tape' : Tape ℝ := {
    id := 8
    nodes := #[⟨.input, 1⟩, ⟨.input, 1⟩, ⟨.input, 1⟩, ⟨.binary .mul 0 1, 1 * 1⟩]
    numInputs := 3
    atomics := #[] }
  let tape'' : Tape ℝ := {
    id := 9
    nodes := #[⟨.input, 5⟩, ⟨.unary .exp 0, Real.exp 5⟩, ⟨.const, 3⟩,
      ⟨.binary .mul 1 2, Real.exp 5 * 3⟩]
    numInputs := 1
    atomics := #[] }
  have frozen : Program.freeze Registry.builtins 7 [2] [.unary .exp 0, .bring (.parameter 3)]
      [1, 2, 1] = .ok ⟨[Real.exp 2, 3, Real.exp 2], [.unary .exp 0, .bring (.parameter 3)],
        .ofTape tape [1, 2, 1]⟩ := rfl
  have frozen' : Program.freeze Registry.builtins 8 [1, 1, 1] [.binary .mul 0 1] [3] =
      .ok ⟨[1 * 1], [.binary .mul 0 1], .ofTape tape' [3]⟩ := rfl
  have frozen'' : Program.freezeThen Registry.builtins 9 [5] [.unary .exp 0, .bring (.parameter 3)]
      [1, 2, 1] [.binary .mul 0 1] [3] = .ok (.ofTape tape'' [3]) := rfl
  have straight : ∀ s ∈ [Step.unary .exp 0, .bring (.parameter (3 : ℝ))], s.Straight := by
    simp [Step.Straight]
  have foreign : ∀ id, ∀ s ∈ [Step.unary .exp 0, .bring (.parameter (3 : ℝ))], s.Foreign id := by
    simp [Step.Foreign, Tracked.parameter, Tracked.indexOn]
  obtain ⟨realizes, _⟩ := Program.freeze_realizes Duals.reading Registry.builtins_faithful straight
    (foreign 7) frozen
  obtain ⟨answers, e, done⟩ := forwardFrom_scalar (k := 0) realizes.wellFormed realizes.passing
    (show ∀ seed ∈ [[2], [1]], _ by simp [numInputs, ofTape, tape]) (Nat.zero_le _) (by omega)
  obtain ⟨answers', e', e'', done', done'', composed, swept⟩ := freezeThen_composes
    Registry.builtins_faithful Registry.builtins_faithful Registry.builtins_faithful straight
    (by simp [Step.Straight]) (fun s member => ⟨foreign 7 s member, foreign 9 s member⟩)
    (by simp [Step.Foreign]) frozen frozen' frozen'' rfl rfl .refl .refl .refl (by simp) done
  obtain ⟨px, passed⟩ := swept (by simp) 2 [[0, 1]] (by omega) le_rfl rfl (by simp)
  obtain ⟨py, first, second⟩ := bind_eq_ok.1 ((composed 2 [[0, 1]]).symm.trans passed)
  exact ⟨_, _, _, e, e', e'', answers, answers', frozen, frozen', frozen'', done, done', done'', py,
    px, first, second, passed⟩

end Evaluator

end TaylorTape
