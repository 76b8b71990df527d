import TaylorTape.Proofs.Frozen
import TaylorTape.Proofs.Integrity
import TaylorTape.Proofs.Needed

/-!
Programs that do nothing but call built-in atomics.

Where such a program can be evaluated it can be recorded and frozen.  Every value of it is a variable,
so that nothing is put on the tape but its calls: a frozen tape has inputs, calls and the further
results of calls, and no other entries.
-/

set_option autoImplicit false
set_option relaxedAutoImplicit false

namespace TaylorTape

/-- An input, a call, or a further result of one. -/
def Entry.OfCalls : Entry → Prop
  | .input | .call _ _ _ | .result _ => True
  | .const | .unary _ _ | .binary _ _ _ => False

/-- The step calls a built-in that has results, on some values. -/
def Step.OfCalls {B : Type} : Step B → Prop
  | .builtIn b args => 0 < b.count ∧ args ≠ []
  | _ => False

theorem Step.OfCalls.foreign {B : Type} {s : Step B} (own : s.OfCalls) (id : Nat) : s.Foreign id := by
  cases s with
  | bring x => cases own
  | copy | unary | binary | compare | max | min | clip | builtIn | call => trivial

theorem Step.OfCalls.callsBuiltIns {B : Type} {s : Step B} (own : s.OfCalls) : s.CallsBuiltIns := by
  cases s with
  | call => cases own
  | bring | copy | unary | binary | compare | max | min | clip | builtIn => trivial

namespace Tape

section Structure

variable {B : Type} {tape : Tape B} {ts : List (Tracked B)} {js : List Nat}

/-- A tape that has no parameters and no elementary operations. -/
def OfCalls (tape : Tape B) : Prop :=
  ∀ i e, tape.entry i = .ok e → e.OfCalls

/-- Tracked values that are the variables at some positions. -/
def Stand (tape : Nat) (ts : List (Tracked B)) (js : List Nat) : Prop :=
  List.Forall₂ (fun t j => t.place = .onTape tape j) ts js

private theorem indexOn_of_place {t : Tracked B} {id j : Nat} (here : t.place = .onTape id j) :
    t.indexOn id = some j := by
  rw [Tracked.indexOn, here]
  exact if_pos rfl

private theorem embedAll_of_stand (stand : Stand tape.id ts js) :
    tape.embedAll ts = (js, tape) := by
  induction stand with
  | nil => rfl
  | @cons t j _ _ here _ ih =>
    have first : tape.embed t = (j, tape) := by rw [embed, indexOn_of_place here]
    rw [embedAll_cons, first, ih]

private theorem outputs_of_stand (stand : Stand tape.id ts js) :
    tape.outputs ts = .ok (tape, js) := by
  have walk : ∀ (start : Nat) (before : List Nat),
      (ts.zipIdx start).foldlM placed (tape, before) = .ok (tape, before ++ js) := by
    induction stand with
    | nil => exact fun _ before => congrArg (fun js => Except.ok (tape, js)) (List.append_nil _).symm
    | @cons t j ts js here _ ih =>
      intro start before
      have first : placed (tape, before) (t, start) = .ok (tape, before ++ [j]) := by
        simp only [placed, here, if_true]
      rw [List.zipIdx_cons, List.foldlM_cons, first, ok_bind, ih, List.append_assoc]
      rfl
  exact walk 0 []

private theorem ofCalls_ofInputs (id : Nat) (x : List B) : (ofInputs id x).OfCalls := by
  intro i e found
  rw [(Program.entry_ofInputs id x found).1]
  trivial

private theorem OfCalls.pushCall (only : tape.OfCalls) (e : Registered B) (args : List Nat)
    (first : B) (rest : List B) : (tape.pushCall e args (first :: rest)).2.OfCalls := by
  have nodes : (tape.intern e).2.nodes = tape.nodes := by
    unfold intern
    split <;> rfl
  rw [pushCall_cons]
  intro i entry found
  rcases entry_append.1 found with old | ⟨k, v, _, new⟩
  · rw [Tape.entry, nodes] at old
    exact only i entry old
  · rcases List.mem_cons.1 (List.mem_of_getElem? new) with call | member
    · rw [show entry = _ from congrArg Node.entry call]
      trivial
    · obtain ⟨_, _, result⟩ := List.mem_map.1 member
      rw [← show _ = entry from congrArg Node.entry result]
      trivial

private theorem OfCalls.embeds {small : Tape B} {g : Nat → Nat} (only : tape.OfCalls)
    (embeds : small.Embeds tape g) : small.OfCalls := by
  intro i e found
  have kept := only _ _ (embeds.entry found)
  cases e <;> exact kept

end Structure

end Tape

variable {B F : Type} [Scalar F] [Base B F]

namespace Tracked

variable {registry : Registry B} {tape : Tape B} {args : List (Tracked B)} {js : List Nat}
  {b : BuiltIn} {e : Registered B} {id : Nat} {values : List B}

private theorem exists_recorded {wires : List (Wire B)} {xs : List B} (flag : Bool)
    (single : ∀ w ∈ wires, w.series.size = 0 + 1) (read : Wire.coeffs wires 0 = .ok xs)
    (stepped : b.step xs xs = .ok values) :
    ∃ results, b.atomic.forward 0 0 wires (List.replicate b.count ⟨#[Base.zero], flag⟩) =
      .ok (some results) ∧ constantTerms results = .ok values := by
  have forward := forward_recorded (b := b) flag single read
  rw [stepped] at forward
  exact ⟨_, forward, constantTerms_extend (BuiltIn.length_step stepped)⟩

private theorem call_values {r : Recorder B} (found : r.registry.entries[id]? = some e)
    (op : e.op = b.atomic) (positive : 0 < b.count)
    (stepped : b.step (args.map value) (args.map value) = .ok values) :
    ∃ ys r', call id args r = (.ok ys, r') ∧ ys.map value = values := by
  set wires := args.map fun x => Wire.mk #[x.value] (r.indexOf? x).isSome with same
  have counted : e.op.numResults args.length = b.count := by rw [op, BuiltIn.numResults_atomic]
  obtain ⟨results, forward, constants⟩ := exists_recorded (wires.any Wire.isVariable) size_values
    (coeffs_values args fun x => (r.indexOf? x).isSome) stepped
  rw [← same, ← op, ← counted] at forward
  have count : values.length = results.length := length_of_mapM constants
  have plain : (values.map parameter).map value = values := by
    rw [List.map_map]
    exact List.map_id values
  unfold call
  rw [run_bind_ok (run_get _), run_lift_bind_ok (Registry.entry_eq_ok.2 found),
    if_neg (counted.trans_ne positive.ne')]
  simp only [← same]
  rw [run_lift_bind_ok forward]
  simp only
  rw [run_lift_bind_ok constants]
  cases r.tape with
  | none => exact ⟨_, _, rfl, plain⟩
  | some tape =>
    simp only
    split
    · exact ⟨_, _, rfl, map_value_recordedResults count⟩
    · exact ⟨_, _, rfl, plain⟩

/-- The outcome of a call of a built-in that has results is that of the built-in on the values. -/
theorem call_outcome {r : Recorder B} (found : r.registry.entries[id]? = some e)
    (op : e.op = b.atomic) (positive : 0 < b.count) :
    (call id args r).1.map (List.map value) = b.step (args.map value) (args.map value) := by
  cases stepped : b.step (args.map value) (args.map value) with
  | ok values =>
    obtain ⟨ys, r', called, same⟩ := call_values found op positive stepped
    rw [called]
    exact congrArg Except.ok same
  | error err =>
    set wires := args.map fun x => Wire.mk #[x.value] (r.indexOf? x).isSome with same
    have counted : e.op.numResults args.length = b.count := by rw [op, BuiltIn.numResults_atomic]
    have forward := forward_recorded (b := b) (wires.any Wire.isVariable) size_values
      (coeffs_values args fun x => (r.indexOf? x).isSome)
    rw [stepped, ← op, ← counted] at forward
    unfold call
    rw [run_bind_ok (run_get _), run_lift_bind_ok (Registry.entry_eq_ok.2 found),
      if_neg (counted.trans_ne positive.ne')]
    simp only [← same]
    rw [run_lift_bind_error forward]
    rfl

omit [Scalar F] [Base B F] in
private theorem stand_recordedResults {results : List (Wire B)} {first : Nat}
    (count : values.length = results.length) (flags : ∀ y ∈ results, y.isVariable = true) :
    Tape.Stand id (recordedResults id first results values) (List.range' first values.length) := by
  refine List.forall₂_iff_get.2 ⟨?_, fun i inside _ => ?_⟩
  · rw [length_recordedResults count, List.length_range']
  · have there : (recordedResults id first results values)[i]? = _ :=
      recordedResults_of_flags count flags (length_recordedResults count ▸ inside)
    rw [List.getElem?_eq_getElem inside] at there
    rw [List.get_eq_getElem, List.get_eq_getElem, Option.some.inj there, List.getElem_range',
      Nat.one_mul]

private theorem call_ofCalls (found : registry.entries[id]? = some e) (op : e.op = b.atomic)
    (positive : 0 < b.count) (stand : Tape.Stand tape.id args js) (some_ : args ≠ [])
    (stepped : b.step (args.map value) (args.map value) = .ok values) (only : tape.OfCalls) :
    ∃ ys next, call id args ⟨some tape, registry⟩ = (.ok ys, ⟨some next, registry⟩) ∧
      next.OfCalls ∧ ∃ ks, Tape.Stand tape.id ys ks := by
  have counted : e.op.numResults args.length = b.count := by rw [op, BuiltIn.numResults_atomic]
  have flagged : (argumentWires tape args).any Wire.isVariable = true := by
    cases stand with
    | nil => exact absurd rfl some_
    | cons here _ =>
      rw [argumentWires, List.map_cons, List.any_cons, Tape.indexOn_of_place here]
      rfl
  obtain ⟨ys, r, done, _⟩ := call_values (r := ⟨some tape, registry⟩) found op positive stepped
  obtain ⟨e', results, values', found', _, forward, constants, outcome⟩ := call_cases done
  obtain rfl : e = e' := Option.some.inj (found.symm.trans found')
  obtain ⟨stepped', flags⟩ : b.step (args.map value) (args.map value) = .ok values' ∧
      ∀ y ∈ results, y.isVariable = (argumentWires tape args).any Wire.isVariable :=
    builtIn_recorded counted size_values (coeffs_values args _) (op ▸ forward) constants
  obtain rfl := Except.ok.inj (stepped.symm.trans stepped')
  have lengths : values.length = b.count := BuiltIn.length_step stepped
  have count : values.length = results.length := length_of_mapM constants
  have flags : ∀ y ∈ results, y.isVariable = true := fun y member => (flags y member).trans flagged
  obtain ⟨v, vs, rfl⟩ := List.exists_cons_of_length_pos (lengths.trans_gt positive)
  rw [Tape.embedAll_of_stand stand] at outcome
  rcases outcome with ⟨_, rfl, rfl⟩ | ⟨none, _, _⟩
  · exact ⟨_, _, done, only.pushCall e js v vs, _, stand_recordedResults count flags⟩
  · -- all results are variables, since an argument is
    have filled : 0 < results.length := count ▸ (Nat.succ_pos vs.length : 0 < (v :: vs).length)
    obtain ⟨y, ys, rfl⟩ := List.exists_cons_of_length_pos filled
    rw [flagged, List.any_cons, flags y List.mem_cons_self] at none
    cases none

end Tracked

section Recording

variable [LawfulBase B] {registry : Registry B} {tape : Tape B} {js : List Nat} {vs : List B}

private theorem BuiltIn.record_ofCalls {b : BuiltIn} {ts : List (Tracked B)}
    (faithful : registry.Faithful)
    (positive : 0 < b.count) (stand : Tape.Stand tape.id ts js) (some_ : ts ≠ [])
    (evaluated : b.eval (ts.map Tracked.value) = .ok vs) (only : tape.OfCalls) :
    ∃ ys next registry', b.record ts ⟨some tape, registry⟩ = (.ok ys, ⟨some next, registry'⟩) ∧
      next.OfCalls ∧ ∃ ks, Tape.Stand tape.id ys ks := by
  obtain ⟨id, registry', e, entered, _, _, found, op⟩ :=
    b.enter_faithful (r := ⟨some tape, registry⟩) faithful
  obtain ⟨ys, next, called, kept, standing⟩ := Tracked.call_ofCalls found op positive stand some_
    (BuiltIn.step_self_iff.2 evaluated) only
  have whole : (b.enter >>= fun id => Tracked.call id ts) ⟨some tape, registry⟩ =
      (.ok ys, ⟨some next, registry'⟩) := (run_bind_ok entered).trans called
  rcases recorded : b.record ts ⟨some tape, registry⟩ with ⟨err | zs, r⟩
  · rcases BuiltIn.failed_of_record recorded with refused | ⟨one, zs, done, other⟩
    · cases whole.symm.trans refused
    · rw [run_bind_ok entered] at done
      obtain ⟨e', found', count⟩ := Tracked.length_call done
      obtain rfl : e = e' := Option.some.inj (found.symm.trans found')
      rw [count, op, numResults_atomic] at other
      exact absurd one other
  · obtain ⟨answer, rfl⟩ := Prod.mk.inj (whole.symm.trans (BuiltIn.call_of_record recorded))
    obtain rfl := Except.ok.inj answer
    exact ⟨_, next, registry', rfl, kept, standing⟩

/-- A program that only calls built-ins is recorded where it can be evaluated. -/
private theorem Program.record_ofCalls {steps : List (Step B)} {env : List (Tracked B)}
    (calls : ∀ s ∈ steps, s.OfCalls) (faithful : registry.Faithful)
    (consistent : Consistent registry tape) (knows : ∀ t ∈ env, tape.Knows t)
    (stand : Tape.Stand tape.id env js) (only : tape.OfCalls)
    (evaluated : evaluate steps (env.map Tracked.value) = .ok vs) :
    ∃ final next registry', record steps env ⟨some tape, registry⟩ =
        (.ok (final, steps), ⟨some next, registry'⟩) ∧ next.OfCalls ∧
      (∃ ks, Tape.Stand next.id final ks) ∧ final.map Tracked.value = vs := by
  induction steps generalizing registry tape env js with
  | nil => exact ⟨env, tape, registry, rfl, only, ⟨js, stand⟩, Except.ok.inj evaluated⟩
  | cons s steps ih =>
    obtain ⟨own, later⟩ := List.forall_mem_cons.1 calls
    obtain ⟨us, computed, rest⟩ := bind_eq_ok.1 evaluated
    cases s with
    | bring | copy | unary | binary | compare | max | min | clip | call => cases own
    | builtIn b args =>
      obtain ⟨positive, nonempty⟩ := own
      obtain ⟨xs, gathered, eval⟩ := bind_eq_ok.1 computed
      have values : List.Forall₂ (fun v t => v = Tracked.value t) (env.map Tracked.value) env := by
        rw [List.forall₂_map_left_iff, List.forall₂_same]
        exact fun _ _ => rfl
      obtain ⟨ts, found, _⟩ := gather_exists values gathered
      obtain rfl := Except.ok.inj ((gather_map found).symm.trans gathered)
      obtain ⟨ks, _, standing⟩ := gather_exists stand found
      have some_ : ts ≠ [] := by
        rintro rfl
        exact nonempty (List.length_eq_zero_iff.1 (length_of_mapM found).symm)
      obtain ⟨ys, next, registry', recorded, kept, zs, standing'⟩ :=
        BuiltIn.record_ofCalls faithful positive standing some_ eval only
      have here : (Step.builtIn b args).record env ⟨some tape, registry⟩ =
          (.ok ys, ⟨some next, registry'⟩) := (run_lift_bind_ok found).trans recorded
      obtain ⟨_, advances, follows⟩ := Step.record_advances (s := .builtIn b args) trivial consistent
        knows rfl here
      obtain rfl := Option.some.inj advances.recording
      have followed := follows faithful trivial
      have same : us = ys.map Tracked.value := Except.ok.inj (computed.symm.trans followed.here)
      have known : ∀ t ∈ env ++ ys, next.Knows t := fun t member => by
        rcases List.mem_append.1 member with old | new
        · exact (knows t old).extends advances.extends_
        · exact advances.knows t new
      have standing : Tape.Stand next.id (env ++ ys) (js ++ zs) :=
        advances.extends_.id.symm ▸ List.rel_append stand standing'
      obtain ⟨final, last, registry'', done, kept', standing'', values'⟩ := ih later
        followed.faithful advances.consistent known standing kept
        (by rw [List.map_append, ← same]; exact rest)
      have resolved : (Step.builtIn b args).resolve env = .ok (.builtIn b args) := rfl
      refine ⟨final, last, registry'', ?_, kept', standing'', values'⟩
      rw [record, run_lift_bind_ok resolved, run_bind_ok here, run_bind_ok done]
      rfl

private theorem Program.stand_inputs (id : Nat) (x : List B) :
    Tape.Stand id (inputs id x) (List.range x.length) := by
  refine List.forall₂_iff_get.2 ⟨by simp [inputs], fun i inside _ => ?_⟩
  have there := getElem?_inputs id x i
  rw [List.getElem?_eq_getElem inside, eq_comm, Option.map_eq_some_iff] at there
  obtain ⟨v, _, same⟩ := there
  rw [List.get_eq_getElem, List.get_eq_getElem, ← same, List.getElem_range]

/-- A program that only calls built-ins is frozen where it can be evaluated, and its tape has calls
only. -/
theorem Program.freeze_ofCalls {steps : List (Step B)} {x : List B} {outputs : List Nat} (id : Nat)
    (calls : ∀ s ∈ steps, s.OfCalls) (faithful : registry.Faithful)
    (evaluated : evaluate steps x = .ok vs) (inside : ∀ y ∈ outputs, y < vs.length) :
    ∃ f, freeze registry id x steps outputs = .ok f ∧ f.resolved = steps ∧
      f.evaluator.tape.OfCalls := by
  have start : (inputs id x).map Tracked.value = x := by
    simp [inputs, Function.comp_def]
  obtain ⟨final, tape, registry', recorded, only, ⟨ks, stand⟩, values⟩ := record_ofCalls calls
    faithful (consistent_ofInputs id x faithful.numbered) (knows_inputs id x) (stand_inputs id x)
    (Tape.ofCalls_ofInputs id x) (start.symm ▸ evaluated)
  obtain ⟨_, advances, _⟩ := record_advances (fun s member => (calls s member).foreign id)
    (consistent_ofInputs id x faithful.numbered) (knows_inputs id x) recorded
  obtain rfl := Option.some.inj advances.recording
  obtain ⟨ys, gathered⟩ : ∃ ys, Step.gather final outputs = .ok ys := exists_mapM fun y asked => by
    have there : y < final.length := by
      rw [← List.length_map (f := Tracked.value), values]
      exact inside y asked
    exact ⟨_, pick_eq_ok_iff.2 (List.getElem?_eq_getElem there)⟩
  obtain ⟨js, _, placed⟩ := gather_exists stand gathered
  have wf := advances.consistent.wellFormed
  have below : ∀ j ∈ js, j < tape.size := fun j member => by
    obtain ⟨y, given, here⟩ := exists_of_mem_forall₂ placed member
    exact (advances.knows y (mem_of_gather gathered y given)).lt (Tape.indexOn_of_place here)
  obtain ⟨pruned, places, done, prunes⟩ := Tape.exists_prune wf below
  refine ⟨⟨ys.map Tracked.value, steps, .ofTape pruned.tape pruned.outputs⟩,
    freeze_eq_ok.2 ⟨final, tape, registry', ys, recorded, gathered, ?_, rfl⟩, rfl,
    only.embeds prunes.embeds⟩
  exact bind_eq_ok.2 ⟨(tape, js), Tape.outputs_of_stand placed, bind_eq_ok.2 ⟨pruned, done, rfl⟩⟩

end Recording

end TaylorTape
