import TaylorTape.Proofs.Forward
import TaylorTape.Proofs.Pruning
import TaylorTape.Proofs.Replay
import TaylorTape.Evaluator.Basic

/-!
A frozen evaluator replays the program that was recorded.

Freezing keeps the solutions of the tape: what solves a recorded tape at a point solves the frozen
one there, with the values that the outputs mean.  An order-zero sweep finds every solution there
is.  So wherever the resolved program can be evaluated, the evaluator gives the same outputs; and it
does so whatever has been asked of it before.
-/

set_option autoImplicit false
set_option relaxedAutoImplicit false

namespace TaylorTape

variable {B F : Type} [Scalar F] [Base B F]

/-- How an evaluator stems from a recorded tape and its outputs. -/
structure Tape.Freezes (tape : Tape B) (ys : List (Tracked B)) (e : Evaluator B) : Prop where
  wellFormed : e.WellFormed
  fresh : e.numOrders = 0
  inputs : e.numInputs = tape.numInputs
  builtIns : tape.TableOfBuiltIns → e.tape.OnlyBuiltIns
  recorded : e.recordedOutputs = .ok (ys.map Tracked.value)
  solves : ∀ x c vs, tape.Solves x c → List.Forall₂ (tape.Means c) ys vs →
    ∃ c', e.tape.Solves x c' ∧ e.outputs.map c' = vs

private theorem Tape.mapM_value_of_standing {tape : Tape B} {js : List Nat} {ts : List (Tracked B)}
    (standing : List.Forall₂ (fun j t => ∃ e, tape.nodes[j]? = some ⟨e, t.value⟩) js ts) :
    js.mapM tape.value = .ok (ts.map Tracked.value) := by
  rw [mapM_eq_ok, List.forall₂_map_right_iff]
  refine standing.imp fun j t there => ?_
  obtain ⟨e, found⟩ := there
  rw [Tape.value, fetch_eq_ok_iff.2 found]
  rfl

/-- What freezing a well-formed tape gives. -/
theorem Tape.freeze_spec {tape : Tape B} {ys : List (Tracked B)} {e : Evaluator B}
    (wf : tape.WellFormed) (knows : ∀ y ∈ ys, tape.Knows y) (done : tape.freeze ys = .ok e) :
    tape.Freezes ys e := by
  obtain ⟨⟨next, js⟩, placed, done⟩ := bind_eq_ok.1 done
  obtain ⟨⟨small, outputs, removed⟩, pruned, last⟩ := bind_eq_ok.1 done
  obtain ⟨js', next', embedded, grown, standing, solved⟩ := embedAll_grown wf knows
  obtain ⟨rfl, rfl⟩ := Prod.mk.inj ((embedAll_of_outputs placed).symm.trans embedded)
  obtain ⟨places, kept⟩ := prune_spec grown.wellFormed pruned
  have embeds := kept.embeds
  have wf' : small.WellFormed := embeds.wellFormed grown.wellFormed
  obtain rfl : Evaluator.ofTape small outputs = e := pure_eq_ok.1 last
  refine ⟨⟨wf', kept.inside, Coefficients.empty_wellFormed _, rfl⟩, rfl,
    embeds.inputs.trans grown.extends_.inputs, fun builtIns => ?_, ?_, fun x c vs solves means => ?_⟩
  · refine embeds.onlyBuiltIns (TableOfBuiltIns.onlyBuiltIns ?_ grown.wellFormed)
    exact fun place r there => builtIns place r (grown.atomics ▸ there)
  · -- an output keeps its value, which stands at its old position
    rw [← kept.outputs, List.forall₂_map_left_iff] at standing
    have each := (List.forall₂_and_left (p := (· ∈ outputs)) outputs ys).2
      ⟨fun _ member => member, standing⟩
    refine mapM_value_of_standing (each.imp fun r t both => ?_)
    obtain ⟨⟨e, v⟩, there⟩ := exists_node (kept.inside r both.1)
    obtain ⟨e', there'⟩ := both.2
    obtain ⟨_, rfl⟩ := Node.mk.inj (Option.some.inj ((embeds.node r e v there).symm.trans there'))
    exact ⟨e, there⟩
  · obtain ⟨c', solves', _, values⟩ := solved x c vs solves means
    refine ⟨c' ∘ (places.getD · 0), embeds.solves grown.wellFormed solves', ?_⟩
    show outputs.map (c' ∘ (places.getD · 0)) = vs
    rw [← List.map_map, kept.outputs, values]

namespace Evaluator

/-- What an evaluator becomes as orders are asked of it, whether they succeed or not. -/
inductive Later (e : Evaluator B) : Evaluator B → Prop where
  | refl : Later e e
  | forward {e' : Evaluator B} (q r : Nat) (seeds : List (List B)) (earlier : Later e e') :
    Later e (Evaluator.forward q r seeds e').2

/-- An evaluator keeps its tape and its outputs. -/
theorem Later.kept {e e' : Evaluator B} (later : e.Later e') (wf : e.WellFormed) :
    e'.WellFormed ∧ e'.tape = e.tape ∧ e'.outputs = e.outputs := by
  induction later with
  | refl => exact ⟨wf, rfl, rfl⟩
  | forward q r seeds _ ih =>
    obtain ⟨wf', tape, outputs⟩ := ih
    obtain ⟨wf'', tape', outputs'⟩ := forward_kept wf' q r seeds
    exact ⟨wf'', tape'.trans tape, outputs'.trans outputs⟩

private theorem forwardZero_of_solves {e : Evaluator B} {x : List B} {c : Nat → B}
    (wf : e.WellFormed) (builtIns : e.tape.OnlyBuiltIns) (count : x.length = e.numInputs)
    (solves : e.tape.Solves x c) :
    (forwardZero x e).1 = .ok (e.outputs.map c) := by
  have accepts : e.Accepts 0 1 [x] :=
    ⟨Nat.one_ne_zero, rfl, by simpa using count, fun _ => rfl, Nat.zero_le _, by simp⟩
  obtain ⟨ys, e', done, advanced, good⟩ := forward_of_holds wf builtIns accepts
    (fun _ v _ => c v) (fun _ _ _ _ k low => absurd low k.not_lt_zero) fun d seed found => by
      obtain rfl : seed = x := List.mem_singleton.1 (List.mem_of_getElem? found)
      exact solves
  have values : ys = [e.outputs.map c] := by
    rw [advanced.answer]
    refine congrArg (fun row => [row]) (List.map_congr_left fun y member => ?_)
    exact good 0 Nat.one_pos y (wf.outputs y member)
  unfold forwardZero
  rw [run_bind_ok done, run_lift, values]
  rfl

end Evaluator

namespace Program

/-- A recorded program with its outputs frozen. -/
structure Frozen (B : Type) where
  /-- The values of the outputs. -/
  values : List B
  /-- The steps of the program, each choice replaced by the operand that it fell on. -/
  resolved : List (Step B)
  evaluator : Evaluator B

/-- A recording from its start at some inputs to the evaluator of the outputs at some places. -/
def freeze (registry : Registry B) (id : Nat) (x : List B) (steps : List (Step B))
    (outputs : List Nat) : Except Error (Frozen B) :=
  match record steps (inputs id x) ⟨some (.ofInputs id x), registry⟩ with
  | (.error e, _) => .error e
  | (.ok _, ⟨none, _⟩) => .error (.state (.notRecording id))
  | (.ok (final, resolved), ⟨some tape, _⟩) => do
    let ys ← Step.gather final outputs
    return ⟨ys.map Tracked.value, resolved, ← tape.freeze ys⟩

/-- What a recording that was frozen consists of. -/
theorem freeze_eq_ok {registry : Registry B} {id : Nat} {x : List B} {steps : List (Step B)}
    {outputs : List Nat} {f : Frozen B} :
    freeze registry id x steps outputs = .ok f ↔ ∃ final tape registry' ys,
      record steps (inputs id x) ⟨some (.ofInputs id x), registry⟩ =
        (.ok (final, f.resolved), ⟨some tape, registry'⟩) ∧
      Step.gather final outputs = .ok ys ∧ tape.freeze ys = .ok f.evaluator ∧
      f.values = ys.map Tracked.value := by
  unfold freeze
  constructor
  · intro done
    split at done
    · cases done
    · cases done
    · rename_i final resolved tape registry' recorded
      obtain ⟨ys, gathered, done⟩ := bind_eq_ok.1 done
      obtain ⟨e, frozen, last⟩ := bind_eq_ok.1 done
      obtain rfl := pure_eq_ok.1 last
      exact ⟨final, tape, registry', ys, recorded, gathered, frozen, rfl⟩
  · rintro ⟨final, tape, registry', ys, recorded, gathered, frozen, values⟩
    rw [recorded]
    simp only [gathered, frozen, ok_bind, ← values]
    rfl

/-- How a frozen program stems from its recording. -/
theorem freeze_spec [LawfulBase B] {registry : Registry B} {id : Nat} {x : List B}
    {steps : List (Step B)} {outputs : List Nat} {f : Frozen B} (numbered : registry.Numbered)
    (foreign : ∀ s ∈ steps, s.Foreign id) (done : freeze registry id x steps outputs = .ok f) :
    ∃ final tape ys, Step.gather final outputs = .ok ys ∧ f.values = ys.map Tracked.value ∧
      tape.Freezes ys f.evaluator ∧ tape.numInputs = x.length ∧
      (registry.Faithful → (∀ s ∈ steps, s.CallsBuiltIns) → tape.TableOfBuiltIns ∧
        ∃ r, Follows (.ofInputs id x) tape r (inputs id x) final (evaluate f.resolved)) := by
  obtain ⟨final, tape, registry', ys, recorded, gathered, frozen, values⟩ := freeze_eq_ok.1 done
  obtain ⟨next, advances, follows⟩ := record_advances foreign
    (consistent_ofInputs id x numbered) (knows_inputs id x) recorded
  obtain rfl := Option.some.inj advances.recording
  have knows : ∀ y ∈ ys, tape.Knows y := fun y member =>
    advances.knows y (mem_of_gather gathered y member)
  refine ⟨final, tape, ys, gathered, values,
    Tape.freeze_spec advances.consistent.wellFormed knows frozen, advances.extends_.inputs,
    fun faithful own => ?_⟩
  have followed := follows faithful own
  refine ⟨followed.builtIns fun place r there => ?_, _, followed⟩
  have none : (Tape.ofInputs id x).atomics[place]? = none := rfl
  rw [none] at there
  cases there

/-- Where the resolved steps can be evaluated the tape of a frozen program has a solution, with the
values that the outputs have there. -/
theorem freeze_solves [LawfulBase B] {registry : Registry B} {id : Nat} {x : List B}
    {steps : List (Step B)} {outputs : List Nat} {f : Frozen B} (faithful : registry.Faithful)
    (foreign : ∀ s ∈ steps, s.Foreign id) (own : ∀ s ∈ steps, s.CallsBuiltIns)
    (frozen : freeze registry id x steps outputs = .ok f) {y vs : List B}
    (count : y.length = x.length) (evaluated : evaluate f.resolved y = .ok vs) :
    y.length = f.evaluator.numInputs ∧ ∃ c, f.evaluator.tape.Solves y c ∧
      Step.gather vs outputs = .ok (f.evaluator.outputs.map c) := by
  obtain ⟨final, tape, ys, gathered, values, freezes, inputs_eq, rest⟩ :=
    freeze_spec faithful.numbered foreign frozen
  obtain ⟨_, r, follows⟩ := rest faithful own
  obtain ⟨c, solves, _, means⟩ := follows.solves y _ y vs (solves_ofInputs id x count)
    (means_inputs id x count) evaluated
  obtain ⟨us, gathered', related⟩ := gather_exists means gathered
  obtain ⟨c', solves', outs⟩ := freezes.solves y c us solves related
  refine ⟨by rw [freezes.inputs, inputs_eq, count], c', solves', ?_⟩
  rw [outs, gathered']

private theorem evaluate_here [LawfulBase B] {registry : Registry B} {id : Nat} {x : List B}
    {steps : List (Step B)} {outputs : List Nat} {f : Frozen B} (faithful : registry.Faithful)
    (foreign : ∀ s ∈ steps, s.Foreign id) (own : ∀ s ∈ steps, s.CallsBuiltIns)
    (frozen : freeze registry id x steps outputs = .ok f) :
    ∃ vs, evaluate f.resolved x = .ok vs ∧ Step.gather vs outputs = .ok f.values := by
  obtain ⟨final, tape, ys, gathered, values, _, _, rest⟩ :=
    freeze_spec faithful.numbered foreign frozen
  obtain ⟨_, r, follows⟩ := rest faithful own
  have start : (inputs id x).map Tracked.value = x := by
    simp [inputs, Function.comp_def]
  refine ⟨final.map Tracked.value, by rw [← follows.here, start], ?_⟩
  rw [values]
  exact gather_map gathered

/-- A frozen program gives, at any point, the outputs that its resolved steps give there on plain
values; at the recording point these are the values of the outputs themselves. -/
theorem freeze_replays [LawfulBase B] {registry : Registry B} {id : Nat} {x : List B}
    {steps : List (Step B)} {outputs : List Nat} {f : Frozen B} (faithful : registry.Faithful)
    (foreign : ∀ s ∈ steps, s.Foreign id) (own : ∀ s ∈ steps, s.CallsBuiltIns)
    (frozen : freeze registry id x steps outputs = .ok f) {e : Evaluator B}
    (later : f.evaluator.Later e) :
    (∀ y vs, y.length = x.length → evaluate f.resolved y = .ok vs →
      ∃ us, Step.gather vs outputs = .ok us ∧ (Evaluator.forwardZero y e).1 = .ok us) ∧
    e.recordedOutputs = .ok f.values ∧ (Evaluator.forwardZero x e).1 = .ok f.values := by
  obtain ⟨_, tape, ys, _, values, freezes, _, rest⟩ := freeze_spec faithful.numbered foreign frozen
  obtain ⟨wf, sameTape, sameOutputs⟩ := later.kept freezes.wellFormed
  have builtIns : e.tape.OnlyBuiltIns := sameTape ▸ freezes.builtIns (rest faithful own).1
  have replay : ∀ y vs, y.length = x.length → evaluate f.resolved y = .ok vs →
      ∃ us, Step.gather vs outputs = .ok us ∧ (Evaluator.forwardZero y e).1 = .ok us := by
    intro y vs count evaluated
    obtain ⟨arity, c, solves, gathered⟩ :=
      freeze_solves faithful foreign own frozen count evaluated
    have enough : y.length = e.numInputs := arity.trans (congrArg Tape.numInputs sameTape).symm
    rw [← sameTape] at solves
    rw [← sameOutputs] at gathered
    exact ⟨_, gathered, Evaluator.forwardZero_of_solves wf builtIns enough solves⟩
  refine ⟨replay, ?_, ?_⟩
  · rw [Evaluator.recordedOutputs, sameTape, sameOutputs, values]
    exact freezes.recorded
  · obtain ⟨vs, here, given⟩ := evaluate_here faithful foreign own frozen
    obtain ⟨us, gathered, done⟩ := replay x vs rfl here
    rw [done, ← gathered, given]

/-- A product with a value that is left over from another recording, recorded on an array of two
elements and replayed on one of three. -/
theorem freeze_replays_leftover_mul : ∃ f : Frozen (Value Float),
    freeze Registry.builtins 7 [.array [1, 2], .scalar 3]
      [.bring ⟨.scalar 5, .onTape 6 0⟩, .binary .mul 2 0] [3, 1] = .ok f ∧
    (Evaluator.forwardZero [.array [4, 5, 6], .scalar 2] f.evaluator).1 =
      .ok [.array [5 * 4, 5 * 5, 5 * 6], .scalar 2] := by
  let tape : Tape (Value Float) := {
    id := 7
    nodes := #[⟨.input, .array [1, 2]⟩, ⟨.input, .scalar 3⟩, ⟨.const, .scalar 5⟩,
      ⟨.binary .mul 2 0, .array [5 * 1, 5 * 2]⟩]
    numInputs := 2
    atomics := #[] }
  have frozen : freeze Registry.builtins 7 [.array [1, 2], .scalar 3]
      [.bring ⟨.scalar 5, .onTape 6 0⟩, .binary .mul 2 0] [3, 1] = .ok
        ⟨[.array [5 * 1, 5 * 2], .scalar 3],
          [.bring ⟨.scalar 5, .onTape 6 0⟩, .binary .mul 2 0], .ofTape tape [3, 1]⟩ := rfl
  obtain ⟨us, gathered, done⟩ := (freeze_replays Registry.builtins_faithful
    (by simp [Step.Foreign, Tracked.indexOn]) (by simp [Step.CallsBuiltIns]) frozen .refl).1
    [.array [4, 5, 6], .scalar 2] _ (by simp) rfl
  refine ⟨_, frozen, ?_⟩
  rw [done]
  exact gathered.symm

end Program

namespace Evaluator

/-- The evaluators of recorded programs, with whatever has been asked of them since. -/
def Recorded (e : Evaluator B) : Prop :=
  ∃ (registry : Registry B) (id : Nat) (x : List B) (steps : List (Step B)) (outputs : List Nat)
    (f : Program.Frozen B), registry.Numbered ∧ (∀ s ∈ steps, s.Foreign id) ∧
      Program.freeze registry id x steps outputs = .ok f ∧ f.evaluator.Later e

/-- Those of programs that call no atomics but built-ins. -/
def RecordedOfBuiltIns (e : Evaluator B) : Prop :=
  ∃ (registry : Registry B) (id : Nat) (x : List B) (steps : List (Step B)) (outputs : List Nat)
    (f : Program.Frozen B), registry.Faithful ∧ (∀ s ∈ steps, s.Foreign id) ∧
      (∀ s ∈ steps, s.CallsBuiltIns) ∧ Program.freeze registry id x steps outputs = .ok f ∧
      f.evaluator.Later e

variable [LawfulBase B] {e : Evaluator B}

theorem Recorded.wellFormed (recorded : e.Recorded) : e.WellFormed := by
  obtain ⟨registry, id, x, steps, outputs, f, numbered, foreign, frozen, later⟩ := recorded
  obtain ⟨_, _, _, _, _, freezes, _⟩ := Program.freeze_spec numbered foreign frozen
  exact (later.kept freezes.wellFormed).1

omit [LawfulBase B] in
theorem RecordedOfBuiltIns.recorded (recorded : e.RecordedOfBuiltIns) : e.Recorded := by
  obtain ⟨registry, id, x, steps, outputs, f, faithful, foreign, _, rest⟩ := recorded
  exact ⟨registry, id, x, steps, outputs, f, faithful.numbered, foreign, rest⟩

theorem RecordedOfBuiltIns.onlyBuiltIns (recorded : e.RecordedOfBuiltIns) :
    e.tape.OnlyBuiltIns := by
  obtain ⟨registry, id, x, steps, outputs, f, faithful, foreign, own, frozen, later⟩ := recorded
  obtain ⟨_, _, _, _, _, freezes, _, rest⟩ := Program.freeze_spec faithful.numbered foreign frozen
  rw [(later.kept freezes.wellFormed).2.1]
  exact freezes.builtIns (rest faithful own).1

theorem RecordedOfBuiltIns.exists_solves (recorded : e.RecordedOfBuiltIns) :
    ∃ x c, e.tape.Solves x c := by
  obtain ⟨registry, id, x, steps, outputs, f, faithful, foreign, own, frozen, later⟩ := recorded
  obtain ⟨_, _, _, _, _, freezes, _⟩ := Program.freeze_spec faithful.numbered foreign frozen
  obtain ⟨vs, here, _⟩ := Program.evaluate_here faithful foreign own frozen
  obtain ⟨_, c, solves, _⟩ := Program.freeze_solves faithful foreign own frozen rfl here
  rw [(later.kept freezes.wellFormed).2.1]
  exact ⟨x, c, solves⟩

omit [LawfulBase B] in
theorem RecordedOfBuiltIns.forward (recorded : e.RecordedOfBuiltIns) (q r : Nat)
    (seeds : List (List B)) : (Evaluator.forward q r seeds e).2.RecordedOfBuiltIns := by
  obtain ⟨registry, id, x, steps, outputs, f, faithful, foreign, own, frozen, later⟩ := recorded
  exact ⟨registry, id, x, steps, outputs, f, faithful, foreign, own, frozen,
    .forward q r seeds later⟩

omit [LawfulBase B] in
theorem RecordedOfBuiltIns.forwardZero {e' : Evaluator B} {x ys : List B}
    (recorded : e.RecordedOfBuiltIns) (done : forwardZero x e = (.ok ys, e')) :
    e'.RecordedOfBuiltIns := by
  obtain ⟨_, e₁, swept, picked⟩ := run_bind_eq_ok.1 done
  rw [run_lift] at picked
  obtain ⟨_, rfl⟩ := Prod.mk.inj picked
  have kept := recorded.forward 0 1 [x]
  rwa [swept] at kept

end Evaluator

end TaylorTape
