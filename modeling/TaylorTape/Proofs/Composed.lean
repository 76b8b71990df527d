import TaylorTape.Proofs.Elements
import TaylorTape.Proofs.Readings

/-!
Programs recorded one after the other.

In one session a program can be recorded on the tracked outputs of another one, whichever variables
and constants these are, and only what it gives is frozen.  A recording in two parts goes through the
same states as one in one part: what has been recorded so far is consistent, has a point at which it
is solved, and is read in other values as what the programs give.  So a frozen evaluator realizes its
program, and that of a recording in two parts realizes the second program after the first.
-/

set_option autoImplicit false
set_option relaxedAutoImplicit false

namespace TaylorTape

namespace Program

section Recording

variable {B F : Type} [Scalar F] [Base B F]

/-- The outputs of a program that is recorded on the outputs of another. -/
def recordThen (steps : List (Step B)) (outputs : List Nat) (steps' : List (Step B))
    (outputs' : List Nat) (env : List (Tracked B)) : Recording B (List (Tracked B)) := do
  let (final, _) ← record steps env
  let (final', _) ← record steps' (← Step.gather final outputs)
  Step.gather final' outputs'

/-- The evaluator of a program that is recorded on the outputs of another, in one session. -/
def freezeThen (registry : Registry B) (id : Nat) (x : List B) (steps : List (Step B))
    (outputs : List Nat) (steps' : List (Step B)) (outputs' : List Nat) :
    Except Error (Evaluator B) :=
  match recordThen steps outputs steps' outputs' (inputs id x) ⟨some (.ofInputs id x), registry⟩ with
  | (.error e, _) => .error e
  | (.ok _, ⟨none, _⟩) => .error (.state (.notRecording id))
  | (.ok zs, ⟨some tape, _⟩) => tape.freeze zs

private theorem freezeThen_eq_ok {registry : Registry B} {id : Nat} {x : List B}
    {steps : List (Step B)}
    {outputs : List Nat} {steps' : List (Step B)} {outputs' : List Nat} {e : Evaluator B}
    (done : freezeThen registry id x steps outputs steps' outputs' = .ok e) :
    ∃ final resolved r ys final' resolved' tape registry' zs,
      record steps (inputs id x) ⟨some (.ofInputs id x), registry⟩ = (.ok (final, resolved), r) ∧
      Step.gather final outputs = .ok ys ∧
      record steps' ys r = (.ok (final', resolved'), ⟨some tape, registry'⟩) ∧
      Step.gather final' outputs' = .ok zs ∧ tape.freeze zs = .ok e := by
  unfold freezeThen at done
  split at done
  · cases done
  · cases done
  · rename_i zs tape registry' recorded
    obtain ⟨⟨final, resolved⟩, r, first, rest⟩ := run_bind_eq_ok.1 recorded
    obtain ⟨ys, gathered, rest⟩ := run_lift_bind_eq_ok.1 rest
    obtain ⟨⟨final', resolved'⟩, r', second, rest⟩ := run_bind_eq_ok.1 rest
    obtain ⟨last, rfl⟩ := Prod.mk.inj rest
    exact ⟨final, resolved, r, ys, final', resolved', tape, registry', zs, first, gathered, second,
      last, done⟩

end Recording

section Readings

variable {F A : Type} [Scalar F] (I : Reading F A)

/-- What a program gives for inputs that elements are read as. -/
def answer (steps : List (Step F)) (outputs : List Nat) (X : List A) : Except Error (List A) := do
  Step.gather (← read I steps X) outputs

end Readings

end Program

section Elements

variable {F A : Type} [RingScalar F] {I : Reading F A}

/-- What has been recorded so far, with values among it: there is a point at which it is solved, and
the values are read as what a rule gives for the inputs. -/
structure Standing (I : Reading F A) (registry : Registry F) (tape : Tape F) (x : List F)
    (ts : List (Tracked F)) (rule : List A → Except Error (List A)) : Prop where
  consistent : Consistent registry tape
  faithful : registry.Faithful
  builtIns : tape.TableOfBuiltIns
  inputs : tape.numInputs = x.length
  knows : ∀ t ∈ ts, tape.Knows t
  point : ∃ c, tape.Solves x c ∧ List.Forall₂ (tape.Means c) ts (ts.map Tracked.value)
  reads : ∀ X : List A, X.length = x.length → ∃ c, tape.Reads I c ∧
    (List.range x.length).map c = X ∧ rule X = .ok (ts.map (Tracked.mean I tape.id c))

/-- An evaluator whose tape is read as what a rule gives. -/
structure Evaluator.Realizes (e : Evaluator F) (I : Reading F A)
    (rule : List A → Except Error (List A)) : Prop where
  wellFormed : e.WellFormed
  passing : e.tape.Passing
  reads : ∀ X : List A, X.length = e.numInputs → ∃ c, e.tape.Reads I c ∧
    (List.range e.numInputs).map c = X ∧ rule X = .ok (e.outputs.map c)

theorem Evaluator.Realizes.later {e e' : Evaluator F} {rule : List A → Except Error (List A)}
    (realizes : e.Realizes I rule) (later : e.Later e') : e'.Realizes I rule := by
  obtain ⟨wf, tape, outputs⟩ := later.kept realizes.wellFormed
  refine ⟨wf, tape ▸ realizes.passing, fun X count => ?_⟩
  have inputs : e'.numInputs = e.numInputs := congrArg Tape.numInputs tape
  rw [inputs, tape, outputs]
  exact realizes.reads X (count.trans inputs)

private theorem Program.exists_inputs (I : Reading F A) (id : Nat) {x : List F} {X : List A}
    (count : X.length = x.length) : ∃ c, (List.range x.length).map c = X ∧
      (inputs id x).map (Tracked.mean I id c) = X := by
  have listed : (List.range x.length).map (fun j => (X[j]?).getD (I.const 0)) = X := by
    refine (eq_map_range count fun j below => ?_).symm
    rw [List.getElem?_eq_getElem (count ▸ below), Option.getD_some]
  refine ⟨_, listed, Eq.trans (List.ext_getElem? fun i => ?_) listed⟩
  rw [List.getElem?_map, getElem?_inputs, List.getElem?_map]
  by_cases below : i < x.length
  · rw [List.getElem?_eq_getElem below, List.getElem?_range below, Option.map_some, Option.map_some,
      Tracked.mean_variable]
    rfl
  · rw [List.getElem?_eq_none (by omega), List.getElem?_eq_none (by simpa using below)]
    rfl

namespace Standing

variable {registry : Registry F} {tape : Tape F} {x : List F} {ts : List (Tracked F)}
  {rule : List A → Except Error (List A)}

private theorem ofInputs (I : Reading F A) (faithful : registry.Faithful) (id : Nat) (x : List F) :
    Standing I registry (.ofInputs id x) x (Program.inputs id x) .ok where
  consistent := Program.consistent_ofInputs id x faithful.numbered
  faithful := faithful
  builtIns place r there := by cases there
  inputs := rfl
  knows := Program.knows_inputs id x
  point := by
    have values : (Program.inputs id x).map Tracked.value = x := by
      simp [Program.inputs, Function.comp_def]
    refine ⟨_, Program.solves_ofInputs id x rfl, ?_⟩
    rw [values]
    exact Program.means_inputs id x rfl
  reads X count := by
    obtain ⟨c, listed, start⟩ := Program.exists_inputs I id count
    exact ⟨c, Tape.reads_ofInputs id x c, listed, congrArg Except.ok start.symm⟩

private theorem gather (standing : Standing I registry tape x ts rule) {places : List Nat}
    {ys : List (Tracked F)} (gathered : Step.gather ts places = .ok ys) :
    Standing I registry tape x ys (fun X => rule X >>= (Step.gather · places)) where
  consistent := standing.consistent
  faithful := standing.faithful
  builtIns := standing.builtIns
  inputs := standing.inputs
  knows t member := standing.knows t (mem_of_gather gathered t member)
  point := by
    obtain ⟨c, solves, means⟩ := standing.point
    exact ⟨c, solves, gather_related means gathered (gather_map gathered)⟩
  reads X count := by
    obtain ⟨c, reads, listed, given⟩ := standing.reads X count
    exact ⟨c, reads, listed, bind_eq_ok.2 ⟨_, given, gather_map gathered⟩⟩

private theorem record (standing : Standing I registry tape x ts rule)
    {steps resolved : List (Step F)}
    {final : List (Tracked F)} {r : Recorder F} (straight : ∀ s ∈ steps, s.Straight)
    (foreign : ∀ s ∈ steps, s.Foreign tape.id)
    (done : Program.record steps ts ⟨some tape, registry⟩ = (.ok (final, resolved), r)) :
    ∃ next, r.tape = some next ∧ next.id = tape.id ∧
      Standing I r.registry next x final (fun X => rule X >>= Program.read I steps) := by
  obtain ⟨next, advances, follows⟩ :=
    Program.record_advances foreign standing.consistent standing.knows done
  have follows := follows standing.faithful fun s member => (straight s member).callsBuiltIns
  refine ⟨next, advances.recording, advances.extends_.id, {
    consistent := advances.consistent
    faithful := follows.faithful
    builtIns := follows.builtIns standing.builtIns
    inputs := advances.extends_.inputs.trans standing.inputs
    knows := advances.knows
    point := ?_
    reads X count := ?_ }⟩
  · obtain ⟨c, solves, means⟩ := standing.point
    obtain ⟨c', solves', _, means'⟩ := follows.solves x c _ _ solves means follows.here
    exact ⟨c', solves', means'⟩
  · obtain ⟨c, reads, listed, given⟩ := standing.reads X count
    obtain ⟨next', c', recording, on, value⟩ := Program.record_reads straight foreign
      standing.consistent standing.faithful standing.knows reads done
    obtain rfl := Option.some.inj (recording.symm.trans advances.recording)
    have inside := standing.inputs ▸ standing.consistent.wellFormed.inputs_le
    refine ⟨c', on.reads, ?_, bind_eq_ok.2 ⟨_, given, ?_⟩⟩
    · rw [← listed]
      exact List.map_congr_left fun j among =>
        on.kept j ((List.mem_range.1 among).trans_le inside)
    · rw [advances.extends_.id]
      exact value

private theorem freeze (standing : Standing I registry tape x ts rule) {e : Evaluator F}
    (done : tape.freeze ts = .ok e) :
    e.Realizes I rule ∧ e.numInputs = x.length ∧ e.numOutputs = ts.length := by
  have wf := standing.consistent.wellFormed
  have freezes := Tape.freeze_spec wf standing.knows done
  have arity : e.numInputs = x.length := freezes.inputs.trans standing.inputs
  obtain ⟨c, solves, means⟩ := standing.point
  obtain ⟨c', solves', values⟩ := freezes.solves x c _ solves means
  have many : e.numOutputs = ts.length := by
    simpa [Evaluator.numOutputs] using congrArg List.length values
  refine ⟨⟨freezes.wellFormed, Tape.passing_of_holds (freezes.builtIns standing.builtIns) solves',
    fun X count => ?_⟩, arity, many⟩
  obtain ⟨c, reads, listed, given⟩ := standing.reads X (count.trans arity)
  obtain ⟨c', reads', kept, values⟩ := Tape.freeze_reads wf standing.knows done reads
  refine ⟨c', reads', ?_, values ▸ given⟩
  rw [← listed, ← arity]
  exact List.map_congr_left fun j among => kept j (List.mem_range.1 among)

end Standing

namespace Program

variable {registry : Registry F} {id : Nat} {x : List F} {steps steps' : List (Step F)}
  {outputs outputs' : List Nat}

theorem freeze_realizes {f : Frozen F} (I : Reading F A) (faithful : registry.Faithful)
    (straight : ∀ s ∈ steps, s.Straight) (foreign : ∀ s ∈ steps, s.Foreign id)
    (done : freeze registry id x steps outputs = .ok f) :
    f.evaluator.Realizes I (answer I steps outputs) ∧ f.evaluator.numInputs = x.length ∧
      f.evaluator.numOutputs = outputs.length := by
  obtain ⟨final, tape, registry', ys, recorded, gathered, frozen, _⟩ := freeze_eq_ok.1 done
  obtain ⟨_, recording, _, standing⟩ :=
    (Standing.ofInputs I faithful id x).record straight foreign recorded
  obtain rfl := Option.some.inj recording
  obtain ⟨realizes, arity, many⟩ := (standing.gather gathered).freeze frozen
  exact ⟨realizes, arity, many.trans (length_of_mapM gathered)⟩

/-- The evaluator of a program that is recorded on the outputs of another realizes the one after the
other. -/
theorem freezeThen_realizes {h : Evaluator F} (I : Reading F A) (faithful : registry.Faithful)
    (straight : ∀ s ∈ steps, s.Straight) (foreign : ∀ s ∈ steps, s.Foreign id)
    (straight' : ∀ s ∈ steps', s.Straight) (foreign' : ∀ s ∈ steps', s.Foreign id)
    (done : freezeThen registry id x steps outputs steps' outputs' = .ok h) :
    h.Realizes I (fun X => answer I steps outputs X >>= answer I steps' outputs') ∧
      h.numInputs = x.length ∧ h.numOutputs = outputs'.length := by
  obtain ⟨final, _, ⟨_, registry₁⟩, ys, final', _, tape, registry', zs, recorded, gathered,
    recorded', gathered', frozen⟩ := freezeThen_eq_ok done
  obtain ⟨mid, recording, same, standing⟩ :=
    (Standing.ofInputs I faithful id x).record straight foreign recorded
  obtain rfl := recording
  obtain ⟨_, recording, _, standing'⟩ :=
    (standing.gather gathered).record straight' (same.symm ▸ foreign') recorded'
  obtain rfl := Option.some.inj recording
  obtain ⟨realizes, arity, many⟩ := (standing'.gather gathered').freeze frozen
  refine ⟨⟨realizes.wellFormed, realizes.passing, fun X count => ?_⟩, arity,
    many.trans (length_of_mapM gathered')⟩
  obtain ⟨c, reads, listed, given⟩ := realizes.reads X count
  exact ⟨c, reads, listed, (bind_assoc (answer I steps outputs X) _ _).symm.trans given⟩

end Program

end Elements

end TaylorTape
