import TaylorTape.Proofs.Integrity
import TaylorTape.Proofs.Twins

/-!
Programs in which operations have been replaced by calls.

A step that is an operation may become the call of a registered atomic that computes it.  The
operation and the call gather the same operands, compute the same value and write it down in the same
place, or neither writes anything.  So a program and the one with calls are recorded as twins: they
give the same tracked values or fail with the same error.
-/

set_option autoImplicit false
set_option relaxedAutoImplicit false

namespace TaylorTape

variable {B F : Type} [Scalar F] [Base B F]

namespace Tape.Twin

variable {tape tape' : Tape B} (twin : tape.Twin tape')
include twin

private theorem embed (x : Tracked B) :
    (tape'.embed x).1 = (tape.embed x).1 ∧ (tape.embed x).2.Twin (tape'.embed x).2 := by
  unfold Tape.embed
  rw [twin.id]
  cases x.indexOn tape.id with
  | some index => exact ⟨rfl, twin⟩
  | none =>
    have const : Entry.Twin tape.atomics tape'.atomics .const .const := .same nofun
    exact twin.push const x.value

private theorem embedAll (xs : List (Tracked B)) :
    (tape'.embedAll xs).1 = (tape.embedAll xs).1 ∧
      (tape.embedAll xs).2.Twin (tape'.embedAll xs).2 := by
  induction xs generalizing tape tape' with
  | nil => exact ⟨rfl, twin⟩
  | cons x xs ih =>
    obtain ⟨same, twin'⟩ := twin.embed x
    obtain ⟨rest, last⟩ := ih twin'
    rw [embedAll_cons, embedAll_cons]
    exact ⟨by rw [same, rest], last⟩

end Tape.Twin

/-- Every atomic in the table of a tape is that of the registry under its id. -/
def Tape.Entered (tape : Tape B) (registry : Registry B) : Prop :=
  ∀ (place : Nat) e, tape.atomics[place]? = some e → registry.entries[e.id]? = some e

namespace Tape

variable {tape tape' : Tape B} {registry : Registry B}

omit [Scalar F] [Base B F] in
private theorem atomics_pushCall (tape : Tape B) (e : Registered B) (args : List Nat)
    (values : List B) :
    (tape.pushCall e args values).2.atomics = (tape.intern e).2.atomics := by
  cases values with
  | nil => rfl
  | cons v vs =>
    rw [pushCall_cons]
    rfl

omit [Scalar F] [Base B F] in
private theorem Entered.unique (entered : tape.Entered registry) (numbered : registry.Numbered)
    {id : Nat}
    {e : Registered B} (found : registry.entries[id]? = some e) {place : Nat} {a : Registered B}
    (there : tape.atomics[place]? = some a) (same : a.id = e.id) : a = e := by
  have known := entered place a there
  rw [same, numbered id e found] at known
  exact Option.some.inj (known.symm.trans found)

omit [Scalar F] [Base B F] in
private theorem Entered.pushCall (entered : tape.Entered registry) (numbered : registry.Numbered)
    {id : Nat}
    {e : Registered B} (found : registry.entries[id]? = some e) (args : List Nat) (values : List B) :
    (tape.pushCall e args values).2.Entered registry := by
  intro place a there
  rw [atomics_pushCall] at there
  rcases (intern_found fun _ _ => entered.unique numbered found).2.2.2 place a there with rfl | old
  · rw [numbered id a found]
    exact found
  · exact entered place a old

omit [Scalar F] [Base B F] in
theorem Entered.mono {next : Registry B} (entered : tape.Entered registry)
    (extends_ : registry.Extends next) : tape.Entered next :=
  fun place e there => extends_ _ _ (entered place e there)

namespace Twin

variable (twin : tape.Twin tape')
include twin

private theorem pushResults (index : Nat) (values : List B) :
    (values.foldl (fun tape v => (tape.push (.result index) v).2) tape).Twin
      (values.foldl (fun tape v => (tape.push (.result index) v).2) tape') := by
  induction values generalizing tape tape' with
  | nil => exact twin
  | cons v vs ih =>
    have result : Entry.Twin tape.atomics tape'.atomics (.result index) (.result index) :=
      .same nofun
    exact ih (twin.push result v).2

private theorem pushCall (entered : tape.Entered registry) (entered' : tape'.Entered registry)
    (numbered : registry.Numbered) {id : Nat} {e : Registered B}
    (found : registry.entries[id]? = some e) (args : List Nat) (values : List B) :
    (tape'.pushCall e args values).1 = (tape.pushCall e args values).1 ∧
      (tape.pushCall e args values).2.Twin (tape'.pushCall e args values).2 := by
  obtain ⟨there, extends_, nodes, _⟩ := intern_found fun _ _ => entered.unique numbered found
  obtain ⟨there', extends', nodes', _⟩ := intern_found fun _ _ => entered'.unique numbered found
  have interned : (tape.intern e).2.Twin (tape'.intern e).2 := by
    refine ⟨by rw [extends'.id, extends_.id, twin.id],
      by rw [extends'.inputs, extends_.inputs, twin.inputs], ?_⟩
    rw [nodes, nodes']
    exact twin.nodes.mono extends_.atomics extends'.atomics
  unfold Tape.pushCall
  cases values with
  | nil => exact ⟨interned.size_eq, interned⟩
  | cons v vs =>
    obtain ⟨same, pushed⟩ := interned.push (.call there there' :
      Entry.Twin _ _ (.call _ args (v :: vs).length) (.call _ args (v :: vs).length)) v
    have further := pushed.pushResults (tape.intern e).2.size vs
    refine ⟨same, ?_⟩
    nth_rewrite 2 [← interned.size_eq] at further
    exact further

private theorem pushComputed (entered' : tape'.Entered registry) (numbered : registry.Numbered)
    {id : Nat}
    {r : Registered B} (found : registry.entries[id]? = some r) {e : Entry} {op : Operation}
    {args : List Nat} (operation : e.operation? = some (op, args)) (computes : r.op.Computes op)
    (v : B) : (tape'.pushCall r args [v]).1 = (tape.push e v).1 ∧
      (tape.push e v).2.Twin (tape'.pushCall r args [v]).2 := by
  obtain ⟨there', extends', nodes', _⟩ := intern_found fun _ _ => entered'.unique numbered found
  have interned : tape.Twin (tape'.intern r).2 := by
    refine ⟨by rw [extends'.id, twin.id], by rw [extends'.inputs, twin.inputs], ?_⟩
    rw [nodes']
    exact twin.nodes.mono (fun _ _ there => there) extends'.atomics
  exact interned.push (.computed operation there' computes) v

end Twin

end Tape

/-! ### Recording -/

namespace Tracked

/-- What a call computes before anything is written down: the atomic, its results, and their
values. -/
def computed (registry : Registry B) (id : Nat) (wires : List (Wire B)) :
    Except Error (Registered B × List (Wire B) × List B) := do
  let e ← registry.entry id
  let count := e.op.numResults wires.length
  if count = 0 then
    throw (.state (.noResults e.name))
  match ← e.op.forward 0 0 wires
      (List.replicate count ⟨#[Base.zero], wires.any Wire.isVariable⟩) with
  | none => throw (.unsupportedOrder e.name 0)
  | some results => return (e, results, ← constantTerms results)

private theorem found_of_computed {registry : Registry B} {id : Nat} {wires : List (Wire B)}
    {plan : Registered B × List (Wire B) × List B} (done : computed registry id wires = .ok plan) :
    registry.entries[id]? = some plan.1 := by
  obtain ⟨e, found, done⟩ := bind_eq_ok.1 done
  obtain ⟨_, done⟩ := refuse_eq_ok.1 done
  obtain ⟨answer, _, done⟩ := bind_eq_ok.1 done
  cases answer with
  | none => cases done
  | some results =>
    obtain ⟨values, _, done⟩ := bind_eq_ok.1 done
    obtain rfl := pure_eq_ok.1 done
    exact Registry.entry_eq_ok.1 found

variable {registry : Registry B} {tape tape' : Tape B}

private theorem call_run (tape : Tape B) (registry : Registry B) (id : Nat)
    (args : List (Tracked B)) :
    call id args ⟨some tape, registry⟩ =
      match computed registry id (argumentWires tape args) with
      | .error err => (.error err, ⟨some tape, registry⟩)
      | .ok (e, results, values) =>
        if (argumentWires tape args).any Wire.isVariable && results.any Wire.isVariable then
          (.ok (recordedResults tape.id
              ((tape.embedAll args).2.pushCall e (tape.embedAll args).1 values).1 results values),
            ⟨some ((tape.embedAll args).2.pushCall e (tape.embedAll args).1 values).2, registry⟩)
        else (.ok (values.map parameter), ⟨some tape, registry⟩) := by
  have wires : args.map (fun x => Wire.mk #[x.value]
      ((⟨some tape, registry⟩ : Recorder B).indexOf? x).isSome) = argumentWires tape args := rfl
  have length : (argumentWires tape args).length = args.length := by simp [argumentWires]
  unfold call computed
  rw [run_bind_ok (run_get _), run_bind, run_lift, length]
  cases registry.entry id with
  | error err => rfl
  | ok e =>
    simp only [ok_bind, wires]
    by_cases none : e.op.numResults args.length = 0
    · rw [if_pos none, if_pos none]
      rfl
    rw [if_neg none, if_neg none, run_bind, run_lift]
    cases e.op.forward 0 0 (argumentWires tape args) (List.replicate (e.op.numResults args.length)
        ⟨#[Base.zero], (argumentWires tape args).any Wire.isVariable⟩) with
    | error err => rfl
    | ok answer =>
      cases answer with
      | none => rfl
      | some results =>
        simp only [ok_bind]
        rw [run_bind, run_lift]
        cases constantTerms results with
        | error err => rfl
        | ok values =>
          show (if _ then _ else _ : Recording B (List (Tracked B))) _ = if _ then _ else _
          split <;> rfl

end Tracked

/-- What an operation with one result answers and leaves, where its value may be written to the tape
under an index. -/
def written (x : Except Error B) (recorded : Bool) (tape : Tape B) (registry : Registry B)
    (index : Nat) (next : B → Tape B) : Except Error (List (Tracked B)) × Recorder B :=
  match x with
  | .error err => (.error err, ⟨some tape, registry⟩)
  | .ok v =>
    if recorded then (.ok [⟨v, .onTape tape.id index⟩], ⟨some (next v), registry⟩)
    else (.ok [.parameter v], ⟨some tape, registry⟩)

/-- An operation on tracked values. -/
def Operation.record (op : Operation) (args : List (Tracked B)) : Recording B (List (Tracked B)) :=
  match op, args with
  | .unary op, [x] => do return [← x.unary op]
  | .binary op, [x, y] => do return [← x.binary op y]
  | op, args => throw (.shapeMismatch "arguments" op.arity args.length)

namespace Operation

open Tracked

variable {registry : Registry B} {tape : Tape B} {args : List (Tracked B)} {op : Operation}

/-- An operation computes its value and then writes itself down, if some argument is a variable. -/
private theorem record_run (tape : Tape B) (registry : Registry B)
    (arity : args.length = op.arity) :
    ∃ e : Entry, e.operation? = some (op, (tape.embedAll args).1) ∧
      op.record args ⟨some tape, registry⟩ = written (op.eval (args.map Tracked.value))
        ((argumentWires tape args).any Wire.isVariable) tape registry (tape.embedAll args).2.size
        fun v => ((tape.embedAll args).2.push e v).2 := by
  cases op with
  | unary op =>
    obtain ⟨x, rfl⟩ := List.length_eq_one_iff.1 arity
    refine ⟨.unary op (tape.embed x).1, rfl, ?_⟩
    show (x.unary op >>= fun y => pure [y]) ⟨some tape, registry⟩ = if _ then _ else _
    rw [run_bind]
    unfold Tracked.unary
    rw [run_bind_ok (run_get _)]
    cases here : x.indexOn tape.id with
    | none =>
      have away : ¬ (argumentWires tape [x]).any Wire.isVariable = true := by
        simp [argumentWires, here]
      simp only [Recorder.indexOf?, Option.bind_some, here, if_neg away]
      rfl
    | some a =>
      have variable_ : (argumentWires tape [x]).any Wire.isVariable = true := by
        simp [argumentWires, here]
      have embedded : tape.embed x = (a, tape) := by rw [Tape.embed, here]
      simp only [Recorder.indexOf?, Option.bind_some, here, if_pos variable_, Tape.embedAll_cons,
        embedded]
      rfl
  | binary op =>
    obtain ⟨x, y, rfl⟩ := List.length_eq_two.1 arity
    refine ⟨.binary op (tape.embed x).1 ((tape.embed x).2.embed y).1, rfl, ?_⟩
    show (x.binary op y >>= fun z => pure [z]) ⟨some tape, registry⟩ = _
    rw [run_bind]
    unfold Tracked.binary
    have plain : (Operation.binary op).eval ([x, y].map Tracked.value) =
        op.eval x.value y.value := rfl
    rw [run_bind_ok (run_get _), run_bind, run_lift, plain]
    cases op.eval x.value y.value with
    | error err => rfl
    | ok v =>
      have any : (argumentWires tape [x, y]).any Wire.isVariable =
          !((x.indexOn tape.id).isNone && (y.indexOn tape.id).isNone) := by
        cases here : x.indexOn tape.id <;> cases there : y.indexOn tape.id <;>
          simp [argumentWires, here, there]
      simp only [any]
      cases (x.indexOn tape.id).isNone && (y.indexOn tape.id).isNone <;> rfl

private theorem call_run (tape : Tape B) {id : Nat} {e : Registered B}
    (found : registry.entries[id]? = some e) (computes : e.op.Computes op)
    (arity : args.length = op.arity) :
    call id args ⟨some tape, registry⟩ = written (op.eval (args.map Tracked.value))
      ((argumentWires tape args).any Wire.isVariable) tape registry
      ((tape.embedAll args).2.intern e).2.size
      fun v => ((tape.embedAll args).2.pushCall e (tape.embedAll args).1 [v]).2 := by
  have series : (argumentWires tape args).map Wire.series =
      (args.map Tracked.value).map fun v => #[v] := by
    simp [argumentWires, Function.comp_def]
  have length : (argumentWires tape args).length = op.arity := by simp [argumentWires, arity]
  obtain ⟨mark, same, forward⟩ := computes.forward 0 0 (argumentWires tape args)
    ⟨#[Base.zero], (argumentWires tape args).any Wire.isVariable⟩ le_rfl length
    (fun x member => by
      obtain ⟨y, _, rfl⟩ := List.mem_map.1 member
      rfl) rfl
  obtain rfl := same rfl
  rw [series, Operation.extend_zero] at forward
  have entry : registry.entry id = .ok e := Registry.entry_eq_ok.2 found
  have plan : computed registry id (argumentWires tape args) =
      (fun v => (e, [⟨#[v], (argumentWires tape args).any Wire.isVariable⟩], [v])) <$>
        op.eval (args.map Tracked.value) := by
    unfold computed
    rw [entry, ok_bind, length, computes.numResults]
    simp only [List.replicate_one, forward]
    cases op.eval (args.map Tracked.value) <;> rfl
  rw [Tracked.call_run, plan]
  cases op.eval (args.map Tracked.value) with
  | error err => rfl
  | ok v => cases (argumentWires tape args).any Wire.isVariable <;> rfl

end Operation

/-- A recorder and one that records a twin of its tape.  The registry of both has grown from one that
is known. -/
structure Recorder.Twin (known : Registry B) (r r' : Recorder B) : Prop where
  registry : r'.registry = r.registry
  numbered : r.registry.Numbered
  extends_ : known.Extends r.registry
  tapes : ∃ tape tape', r.tape = some tape ∧ r'.tape = some tape' ∧ tape.Twin tape' ∧
    tape.Entered r.registry ∧ tape'.Entered r.registry

variable {known : Registry B}

omit [Scalar F] [Base B F] in
private theorem Entry.eq_of_operation {e e' : Entry} {op : Operation} {args : List Nat}
    (operation : e.operation? = some (op, args)) (operation' : e'.operation? = some (op, args)) :
    e = e' := by
  cases e <;> cases operation <;> cases e' <;> cases operation' <;> rfl

omit [Scalar F] [Base B F] in
private theorem Entry.plain_of_operation {e : Entry} {op : Operation} {args : List Nat}
    (operation : e.operation? = some (op, args)) (place : Nat) (js : List Nat) (n : Nat) :
    e ≠ .call place js n := by
  rintro rfl
  cases operation

omit [Scalar F] [Base B F] in
private theorem Tape.Entered.embedAll {tape : Tape B} {registry : Registry B}
    (entered : tape.Entered registry) (args : List (Tracked B)) :
    (tape.embedAll args).2.Entered registry := by
  intro place e there
  rw [atomics_embedAll] at there
  exact entered place e there

section Pairs

variable {registry : Registry B} {tape tape' : Tape B} {args : List (Tracked B)}

private theorem Tape.Twin.argumentWires_eq (twin : tape.Twin tape') (args : List (Tracked B)) :
    Tracked.argumentWires tape' args = Tracked.argumentWires tape args := by
  rw [Tracked.argumentWires, twin.id, Tracked.argumentWires]

private theorem written_twin {next next' : B → Tape B} {index : Nat} {recorded : Bool}
    (x : Except Error B)
    (numbered : registry.Numbered) (extends_ : known.Extends registry) (twin : tape.Twin tape')
    (entered : tape.Entered registry) (entered' : tape'.Entered registry)
    (pushed : ∀ v, (next v).Twin (next' v) ∧ (next v).Entered registry ∧
      (next' v).Entered registry) :
    Alike (· = ·) (· = ·) (written x recorded tape registry index next).1
        (written x recorded tape' registry index next').1 ∧
      (written x recorded tape registry index next).2.Twin known
        (written x recorded tape' registry index next').2 := by
  have unchanged : Recorder.Twin known ⟨some tape, registry⟩ ⟨some tape', registry⟩ :=
    ⟨rfl, numbered, extends_, tape, tape', rfl, rfl, twin, entered, entered'⟩
  unfold written
  cases x with
  | error err => exact ⟨.error rfl, unchanged⟩
  | ok v =>
    cases recorded with
    | false => exact ⟨.ok rfl, unchanged⟩
    | true =>
      refine ⟨.ok ?_, rfl, numbered, extends_, _, _, rfl, rfl, pushed v⟩
      rw [twin.id]

private theorem Operation.paired_record (op : Operation) (arity : args.length = op.arity) :
    Paired (· = ·) (Recorder.Twin known) (· = ·) (op.record args) (op.record args) := by
  rintro ⟨_, _⟩ ⟨_, registry⟩
    ⟨rfl, numbered, extends_, tape, tape', rfl, rfl, twin, entered, entered'⟩
  obtain ⟨e, operation, run⟩ := op.record_run tape registry arity
  obtain ⟨e', operation', run'⟩ := op.record_run tape' registry arity
  obtain ⟨same, embedded⟩ := twin.embedAll args
  rw [same] at operation'
  obtain rfl := Entry.eq_of_operation operation operation'
  rw [run, run', twin.argumentWires_eq, embedded.size_eq]
  exact written_twin _ numbered extends_ twin entered entered' fun v =>
    ⟨(embedded.push (.same (Entry.plain_of_operation operation)) v).2, entered.embedAll args,
      entered'.embedAll args⟩

private theorem Operation.paired_call {op : Operation} (arity : args.length = op.arity) {id : Nat}
    {e : Registered B} (registered : known.entries[id]? = some e) (computes : e.op.Computes op) :
    Paired (· = ·) (Recorder.Twin known) (· = ·) (op.record args) (Tracked.call id args) := by
  rintro ⟨_, _⟩ ⟨_, registry⟩
    ⟨rfl, numbered, extends_, tape, tape', rfl, rfl, twin, entered, entered'⟩
  have found := extends_ id e registered
  obtain ⟨node, operation, run⟩ := op.record_run tape registry arity
  obtain ⟨same, embedded⟩ := twin.embedAll args
  have pushed (v : B) := embedded.pushComputed (entered'.embedAll args) numbered found operation
    computes v
  have index : ((tape'.embedAll args).2.intern e).2.size = (tape.embedAll args).2.size :=
    (pushed Base.zero).1
  rw [run, op.call_run tape' found computes arity, twin.argumentWires_eq, index, same]
  exact written_twin _ numbered extends_ twin entered entered' fun v =>
    ⟨(pushed v).2, entered.embedAll args, (entered'.embedAll args).pushCall numbered found _ _⟩

private theorem Tracked.paired_call (id : Nat) (args : List (Tracked B)) :
    Paired (· = ·) (Recorder.Twin known) (· = ·) (call id args) (call id args) := by
  rintro ⟨_, _⟩ ⟨_, registry⟩
    ⟨rfl, numbered, extends_, tape, tape', rfl, rfl, twin, entered, entered'⟩
  have unchanged : Recorder.Twin known ⟨some tape, registry⟩ ⟨some tape', registry⟩ :=
    ⟨rfl, numbered, extends_, tape, tape', rfl, rfl, twin, entered, entered'⟩
  obtain ⟨same, embedded⟩ := twin.embedAll args
  rw [call_run, call_run, twin.argumentWires_eq]
  cases plan : computed registry id (argumentWires tape args) with
  | error err => exact ⟨.error rfl, unchanged⟩
  | ok plan' =>
    obtain ⟨e, results, values⟩ := plan'
    have found : registry.entries[id]? = some e := found_of_computed plan
    have embedded_ := entered.embedAll args
    have embedded_' := entered'.embedAll args
    obtain ⟨first, pushed⟩ := embedded.pushCall embedded_ embedded_' numbered found
      (tape.embedAll args).1 values
    dsimp only
    split
    · rw [same]
      refine ⟨.ok ?_, rfl, numbered, extends_, _, _, rfl, rfl, pushed,
        embedded_.pushCall numbered found _ _, embedded_'.pushCall numbered found _ _⟩
      rw [first, twin.id]
    · exact ⟨.ok rfl, unchanged⟩

private theorem BuiltIn.paired_enter (b : BuiltIn) :
    Paired (· = ·) (Recorder.Twin known) (· = ·) (b.enter : Recording B Nat) b.enter := by
  rintro ⟨_, _⟩ ⟨_, registry⟩
    ⟨rfl, numbered, extends_, tape, tape', rfl, rfl, twin, entered, entered'⟩
  have run' : (b.enter ⟨some tape', registry⟩ : Except Error Nat × Recorder B) =
      ((b.enter ⟨some tape, registry⟩).1,
        ⟨some tape', (b.enter ⟨some tape, registry⟩).2.registry⟩) := by
    cases b <;> rfl
  obtain ⟨id, next, run, numbered', grows⟩ := b.enter_numbered (r := ⟨some tape, registry⟩) numbered
  rw [run', run]
  exact ⟨.ok rfl, rfl, numbered', extends_.trans grows, tape, tape', rfl, rfl, twin,
    entered.mono grows, entered'.mono grows⟩

private theorem BuiltIn.paired_record (b : BuiltIn) (args : List (Tracked B)) :
    Paired (· = ·) (Recorder.Twin known) (· = ·) (b.record args) (b.record args) := by
  have single {work : Recording B (List (Tracked B))}
      (paired : Paired (· = ·) (Recorder.Twin known) (· = ·) work work) :
      Paired (· = ·) (Recorder.Twin known) (· = ·) (do return [← (do Tracked.only (← work))])
        (do return [← (do Tracked.only (← work))]) :=
    (paired.eq_bind fun ys => .lift (.refl (Tracked.only ys))).eq_bind
      fun y => .pure rfl
  unfold record
  split
  · exact single (Tracked.paired_call _ _)
  · exact single (Tracked.paired_call _ _)
  · exact single (Tracked.paired_call _ _)
  · exact single (Tracked.paired_call _ _)
  · rename_i n x
    exact single ((BuiltIn.make n).paired_enter.eq_bind fun id => Tracked.paired_call id [x])
  · rename_i n x
    exact (BuiltIn.unpack n).paired_enter.eq_bind fun id => Tracked.paired_call id [x]
  · exact b.paired_enter.eq_bind fun id => Tracked.paired_call id _

end Pairs

/-! ### Programs -/

namespace Step

/-- The operation that a step carries out, and the places of its operands. -/
def operation? : Step B → Option (Operation × List Nat)
  | .unary op a => some (.unary op, [a])
  | .binary op a b => some (.binary op, [a, b])
  | _ => none

/-- A step stays, or it is an operation and becomes a call of a registered atomic that computes the
operation. -/
inductive Replaced (registry : Registry B) : Step B → Step B → Prop where
  | same (s : Step B) : Replaced registry s s
  | call {s : Step B} {op : Operation} {places : List Nat} {id : Nat} {e : Registered B}
    (operation : s.operation? = some (op, places)) (registered : registry.entries[id]? = some e)
    (computes : e.op.Computes op) : Replaced registry s (.call id places)

variable {s s' : Step B} {op : Operation} {places : List Nat} {env : List (Tracked B)}

omit [Scalar F] [Base B F] in
private theorem arity_of_operation (operation : s.operation? = some (op, places)) :
    places.length = op.arity := by
  cases s <;> cases operation <;> rfl

private theorem record_of_operation (operation : s.operation? = some (op, places)) :
    s.record env = (liftM (gather env places) >>= op.record) := by
  funext r
  cases s with
  | unary op a =>
    cases operation
    simp only [record, gather, List.mapM_cons, List.mapM_nil]
    rw [run_bind, run_bind, run_lift, run_lift]
    cases pick env a <;> rfl
  | binary op a b =>
    cases operation
    simp only [record, gather, List.mapM_cons, List.mapM_nil]
    rw [run_bind, run_bind, run_lift, run_lift]
    cases pick env a with
    | error err => rfl
    | ok x =>
      simp only [ok_bind]
      rw [run_bind, run_lift]
      cases pick env b <;> rfl
  | bring | copy | compare | max | min | clip | builtIn | call => cases operation

private theorem Replaced.paired_record (replaced : Replaced known s s') :
    Paired (· = ·) (Recorder.Twin known) (· = ·) (s.record env) (s'.record env) := by
  cases replaced with
  | call operation registered computes =>
    rw [record_of_operation operation]
    refine .lift_bind fun args gathered => Operation.paired_call ?_ registered computes
    rw [length_of_mapM gathered, arity_of_operation operation]
  | same =>
    have operation {op : Operation} {places : List Nat}
        (operation : s.operation? = some (op, places)) :
        Paired (· = ·) (Recorder.Twin known) (· = ·) (s.record env) (s.record env) := by
      rw [record_of_operation operation]
      refine .lift_bind fun args gathered => op.paired_record ?_
      rw [length_of_mapM gathered, arity_of_operation operation]
    cases s with
    | bring x => exact .pure rfl
    | copy a => exact .lift_bind fun x _ => .pure rfl
    | unary | binary => exact operation rfl
    | compare | max | min =>
      exact .lift_bind fun x _ => .lift_bind fun y _ => .lift_bind fun z _ => .pure rfl
    | clip =>
      exact .lift_bind fun x _ => .lift_bind fun y _ => .lift_bind fun z _ =>
        .lift_bind fun w _ => .pure rfl
    | builtIn b args => exact .lift_bind fun xs _ => b.paired_record xs
    | call id args => exact .lift_bind fun xs _ => Tracked.paired_call id xs

private theorem Replaced.resolve (replaced : Replaced known s s') :
    Alike (· = ·) (fun _ _ => True) (s.resolve env) (s'.resolve env) := by
  cases replaced with
  | same => exact (Alike.refl _).mono fun _ _ _ => trivial
  | call operation =>
    cases s <;> cases operation <;> exact .ok trivial

end Step

namespace Program

theorem paired_record {steps steps' : List (Step B)}
    (replaced : List.Forall₂ (Step.Replaced known) steps steps') (env : List (Tracked B)) :
    Paired (· = ·) (Recorder.Twin known) (fun p p' => p'.1 = p.1) (record steps env)
      (record steps' env) := by
  induction replaced generalizing env with
  | nil => exact .pure rfl
  | @cons s s' steps steps' head _ ih =>
    refine (Paired.lift head.resolve).bind fun t t' _ => ?_
    refine head.paired_record.eq_bind fun results => ?_
    exact (ih (env ++ results)).bind fun p p' same => .pure same

end Program

end TaylorTape
