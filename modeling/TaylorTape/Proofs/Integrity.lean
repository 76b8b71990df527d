import Mathlib.Data.List.Induction
import TaylorTape.Proofs.Replay
import TaylorTape.Proofs.Steady

/-!
An open recording stays in order, whatever is done in it.

The operations on tracked values, the calls of atomics and the registration of new atomics may come in
any order and may fail; a tracked value may be a parameter, a variable, or left over from an ended
recording.  After each of them the tape is well-formed, it begins with what it was, and every tracked
value that is a variable of it has its value at an entry that is no parameter.  An operation that
fails has written nothing.
-/

set_option autoImplicit false
set_option relaxedAutoImplicit false

namespace TaylorTape

section States

variable {ε σ α β : Type}

/-- Where the computation fails from this state, it has left it as it was. -/
def Cautious (s : σ) (work : ExceptT ε (StateM σ) α) : Prop :=
  ∀ err t, work s = (.error err, t) → t = s

namespace Cautious

variable {s : σ}

private theorem pure (a : α) : Cautious s (Pure.pure a : ExceptT ε (StateM σ) α) :=
  nofun

private theorem get_bind {f : σ → ExceptT ε (StateM σ) β} (next : Cautious s (f s)) :
    Cautious s (get >>= f) := by
  intro err t failed
  rw [run_bind_ok (run_get s)] at failed
  exact next err t failed

private theorem throw (err : ε) : Cautious s (MonadExcept.throw err : ExceptT ε (StateM σ) α) :=
  fun _ _ failed => (Prod.mk.inj failed).2.symm

private theorem lift_bind {x : Except ε α} {f : α → ExceptT ε (StateM σ) β}
    (next : ∀ a, Cautious s (f a)) : Cautious s ((liftM x : ExceptT ε (StateM σ) α) >>= f) := by
  intro err t failed
  rw [run_bind, run_lift] at failed
  cases x with
  | error err' => exact (Prod.mk.inj failed).2.symm
  | ok a => exact next a err t failed

private theorem single {work : ExceptT ε (StateM σ) α} {f : α → β} (cautious : Cautious s work) :
    Cautious s (do return f (← work)) := by
  intro err t failed
  rw [run_bind] at failed
  rcases ran : work s with ⟨_ | a, u⟩
  · rw [ran] at failed
    obtain ⟨_, rfl⟩ := Prod.mk.inj failed
    exact cautious _ _ ran
  · rw [ran] at failed
    cases failed

end Cautious

end States

variable {B F : Type} [Scalar F] [Base B F]

namespace Tape

variable {tape next : Tape B} {t : Tracked B}

/-- A tracked value that is a variable of the tape has its value there, at an entry that is no
parameter. -/
def Shows (tape : Tape B) (t : Tracked B) : Prop :=
  ∀ j, t.indexOn tape.id = some j → ∃ e, tape.nodes[j]? = some ⟨e, t.value⟩ ∧ e ≠ .const

omit [Scalar F] [Base B F]

private theorem Shows.knows (shows_ : tape.Shows t) : tape.Knows t := fun j here =>
  (shows_ j here).imp fun _ both => both.1

private theorem shows_parameter (tape : Tape B) (v : B) : tape.Shows (.parameter v) := nofun

private theorem Shows.extends (shows_ : tape.Shows t) (extends_ : tape.Extends next) :
    next.Shows t := by
  intro j here
  rw [extends_.id] at here
  obtain ⟨e, found, real⟩ := shows_ j here
  exact ⟨e, extends_.nodes j _ found, real⟩

private theorem shows_pushed (tape : Tape B) {e : Entry} (real : e ≠ .const) (v : B) :
    (tape.push e v).2.Shows ⟨v, .onTape tape.id tape.size⟩ := by
  intro j here
  obtain rfl : tape.size = j := Option.some.inj ((Tracked.indexOn_variable v _ _).symm.trans here)
  exact ⟨e, Array.getElem?_push_size, real⟩

private theorem extends_embed (tape : Tape B) (t : Tracked B) : tape.Extends (tape.embed t).2 := by
  unfold embed
  split
  · exact .refl tape
  · exact extends_append tape [_]

private theorem extends_embedAll (tape : Tape B) (ts : List (Tracked B)) :
    tape.Extends (tape.embedAll ts).2 := by
  induction ts generalizing tape with
  | nil => exact .refl tape
  | cons t ts ih =>
    rw [embedAll_cons]
    exact (extends_embed tape t).trans (ih _)

private theorem length_embedAll (tape : Tape B) (ts : List (Tracked B)) :
    (tape.embedAll ts).1.length = ts.length := by
  induction ts generalizing tape with
  | nil => rfl
  | cons t ts ih => rw [embedAll_cons, List.length_cons, List.length_cons, ih]

theorem atomics_embedAll (tape : Tape B) (ts : List (Tracked B)) :
    (tape.embedAll ts).2.atomics = tape.atomics := by
  induction ts generalizing tape with
  | nil => rfl
  | cons t ts ih =>
    rw [embedAll_cons]
    refine (ih _).trans ?_
    unfold embed
    split <;> rfl

private theorem embedAll_parameters (tape : Tape B) (ts : List (Tracked B)) {i : Nat}
    (low : tape.size ≤ i) (high : i < (tape.embedAll ts).2.size) :
    (tape.embedAll ts).2.entry i = .ok .const := by
  induction ts generalizing tape with
  | nil => exact absurd high (Nat.not_lt.2 low)
  | cons t ts ih =>
    rw [embedAll_cons] at high ⊢
    cases here : t.indexOn tape.id with
    | some j =>
      have same : (tape.embed t).2 = tape := by rw [embed, here]
      rw [same] at high ⊢
      exact ih tape low high
    | none =>
      have pushed : (tape.embed t).2 = (tape.push .const t.value).2 := by rw [embed, here]
      have size : (tape.embed t).2.size = tape.size + 1 := by rw [pushed, push_eq, size_append]; rfl
      by_cases own : i = tape.size
      · refine (extends_embedAll _ ts).entry (entry_eq_ok.2 ⟨t.value, ?_⟩)
        rw [own, pushed]
        exact Array.getElem?_push_size
      · exact ih _ (by omega) high

/-- What a call of an atomic that is written down adds to a tape, from a position on: behind the
parameters among its arguments the call, which names the atomic, and an entry for each further
result.  A result that is a variable stands at its own entry. -/
structure Records (tape next : Tape B) (e : Registered B) (arity : Nat) (ys : List (Tracked B))
    (start : Nat) : Prop where
  extends_ : tape.Extends next
  after : tape.size ≤ start
  size : next.size = start + ys.length
  parameters : ∀ i, tape.size ≤ i → i < start → next.entry i = .ok .const
  call : ∃ place js, next.entry start = .ok (.call place js ys.length) ∧
    next.atomics[place]? = some e ∧ js.length = arity
  further : ∀ i, start < i → i < next.size → next.entry i = .ok (.result start)
  results : ∀ k y, ys[k]? = some y → next.value (start + k) = .ok y.value ∧
    (y.place = .inline ∨ y.place = .onTape tape.id (start + k))

/-- A call pushed behind the parameters among its arguments is written down. -/
private theorem records_pushCall {e : Registered B} {args ys : List (Tracked B)} {values : List B}
    (unique : ∀ (place : Nat) a, tape.atomics[place]? = some a → a.id = e.id → a = e)
    (atomics : (tape.embedAll args).2.atomics = tape.atomics) (positive : values ≠ [])
    (count : ys.length = values.length)
    (each : ∀ (k : Nat) (y : Tracked B), ys[k]? = some y → values[k]? = some y.value ∧
      (y.place = .inline ∨ y.place = .onTape tape.id ((tape.embedAll args).2.size + k))) :
    tape.Records ((tape.embedAll args).2.pushCall e (tape.embedAll args).1 values).2 e args.length
      ys (tape.embedAll args).2.size := by
  obtain ⟨v, vs, rfl⟩ := List.exists_cons_of_ne_nil positive
  have parameters : ∀ i, tape.size ≤ i → i < (tape.embedAll args).2.size →
      (tape.embedAll args).2.entry i = .ok .const := fun i => embedAll_parameters tape args
  have lengths := length_embedAll tape args
  have grown := extends_embedAll tape args
  generalize (tape.embedAll args).1 = js at lengths ⊢
  generalize (tape.embedAll args).2 = mid at *
  have unique' : ∀ (place : Nat) r, mid.atomics[place]? = some r → r.id = e.id → r = e :=
    atomics ▸ unique
  obtain ⟨found, extends_, nodes, _⟩ := intern_found unique'
  have size : (mid.intern e).2.size = mid.size := by rw [Tape.size, Tape.size, nodes]
  rw [pushCall_cons]
  set group : List (Node B) := ⟨.call (mid.intern e).1 js (vs.length + 1), v⟩ ::
    vs.map fun v => ⟨.result mid.size, v⟩ with shape
  have whole := extends_.trans (extends_append (mid.intern e).2 group)
  have many : group.length = ys.length := by simp [shape, count]
  have node : ∀ k, ((mid.intern e).2.append group).nodes[mid.size + k]? = group[k]? := by
    intro k
    rw [node_append, size, if_neg (by omega), Nat.add_sub_cancel_left]
  exact {
    extends_ := grown.trans whole
    after := grown.size_le
    size := by rw [size_append, size, many]
    parameters := fun i low high => whole.entry (parameters i low high)
    call := by
      refine ⟨(mid.intern e).1, js, entry_eq_ok.2 ⟨v, ?_⟩, found, lengths⟩
      rw [show ys.length = vs.length + 1 from count]
      exact node 0
    further := by
      intro i low high
      obtain ⟨k, rfl⟩ := Nat.exists_eq_add_of_lt low
      rw [size_append, size] at high
      have inside : k < vs.length := by
        have : group.length = vs.length + 1 := by simp [shape]
        omega
      refine entry_eq_ok.2 ⟨vs[k], ?_⟩
      rw [Nat.add_assoc, node, shape, List.getElem?_cons_succ, List.getElem?_map,
        List.getElem?_eq_getElem inside]
      rfl
    results := by
      intro k y there
      obtain ⟨value, place⟩ := each k y there
      refine ⟨?_, place⟩
      simp only [Tape.value, bind_eq_ok, pure_eq_ok, fetch_eq_ok_iff, node]
      cases k with
      | zero => exact ⟨_, rfl, Option.some.inj value⟩
      | succ k =>
        rw [List.getElem?_cons_succ] at value
        refine ⟨⟨.result mid.size, y.value⟩, ?_, rfl⟩
        rw [shape, List.getElem?_cons_succ, List.getElem?_map, value]
        rfl }

end Tape

namespace Tracked

variable {registry registry' : Registry B} {tape next : Tape B} {r : Recorder B}
  {t t' y : Tracked B} {args ys : List (Tracked B)}

private theorem cautious_unary (op : UnaryOp) (t : Tracked B) (r : Recorder B) :
    Cautious r (t.unary op) := by
  refine .get_bind ?_
  dsimp only
  split
  · exact nofun
  · exact .pure _

private theorem cautious_binary (op : BinaryOp) (t t' : Tracked B) (r : Recorder B) :
    Cautious r (t.binary op t') := by
  refine .get_bind (.lift_bind fun v => ?_)
  dsimp only
  split
  · exact .pure _
  · split
    · exact .pure _
    · exact nofun

private theorem cautious_call (id : Nat) (args : List (Tracked B)) (r : Recorder B) :
    Cautious r (call id args) := by
  refine .get_bind (.lift_bind fun e => ?_)
  dsimp only
  split
  · exact .throw _
  refine .lift_bind fun answer => ?_
  cases answer with
  | none => exact .throw _
  | some results =>
    refine .lift_bind fun values => ?_
    cases r.tape with
    | none => exact .pure _
    | some tape =>
      dsimp only
      split
      · exact nofun
      · exact .pure _

private theorem unary_shows {op : UnaryOp}
    (done : t.unary op ⟨some tape, registry⟩ = (.ok y, ⟨some next, registry'⟩)) : next.Shows y := by
  unfold unary at done
  rw [run_bind_ok (run_get _)] at done
  cases here : t.indexOn tape.id with
  | none =>
    simp only [Recorder.indexOf?, Option.bind_some, here] at done
    cases done
    exact Tape.shows_parameter tape _
  | some a =>
    simp only [Recorder.indexOf?, Option.bind_some, here] at done
    cases done
    exact Tape.shows_pushed tape (by simp) _

private theorem binary_shows {op : BinaryOp}
    (done : t.binary op t' ⟨some tape, registry⟩ = (.ok y, ⟨some next, registry'⟩)) :
    next.Shows y := by
  unfold binary at done
  rw [run_bind_ok (run_get _), run_lift_bind_eq_ok] at done
  obtain ⟨value, _, done⟩ := done
  by_cases away : (t.indexOn tape.id).isNone && (t'.indexOn tape.id).isNone
  · simp only [away, if_true] at done
    cases done
    exact Tape.shows_parameter tape _
  · simp only [away] at done
    cases done
    have pushed := Tape.shows_pushed ((tape.embed t).2.embed t').2
      (e := .binary op (tape.embed t).1 ((tape.embed t).2.embed t').1) nofun value
    rwa [Tape.id_embed, Tape.id_embed] at pushed

omit [Scalar F] in
private theorem shows_max (shows_ : tape.Shows t) (shows' : tape.Shows t')
    (done : t.max t' = .ok y) :
    tape.Shows y := by
  obtain ⟨larger, _, rfl⟩ := map_eq_ok.1 done
  split <;> assumption

omit [Scalar F] in
private theorem shows_min (shows_ : tape.Shows t) (shows' : tape.Shows t')
    (done : t.min t' = .ok y) :
    tape.Shows y := by
  obtain ⟨smaller, _, rfl⟩ := map_eq_ok.1 done
  split <;> assumption

theorem length_call {id : Nat} (done : call id args ⟨some tape, registry⟩ = (.ok ys, r)) :
    ∃ e, registry.entries[id]? = some e ∧ ys.length = e.op.numResults args.length := by
  obtain ⟨e, results, values, found, _, forward, constants, outcome⟩ := call_cases done
  have count : values.length = results.length := length_of_mapM constants
  have count' : results.length = e.op.numResults args.length := by
    simpa using Atomic.length_forward forward
  refine ⟨e, found, ?_⟩
  rcases outcome with ⟨_, _, rfl⟩ | ⟨_, _, rfl⟩
  · rw [length_recordedResults count, count, count']
  · rw [List.length_map, count, count']

private theorem call_records {id : Nat} (consistent : Consistent registry tape)
    (done : call id args ⟨some tape, registry⟩ = (.ok ys, r)) :
    ∃ e, registry.entries[id]? = some e ∧
      ((r = ⟨some tape, registry⟩ ∧ ∀ y ∈ ys, y.place = .inline) ∨
        ∃ next start, r = ⟨some next, registry⟩ ∧
          tape.Records next e args.length ys start) := by
  obtain ⟨e, results, values, found, positive, forward, constants, outcome⟩ := call_cases done
  refine ⟨e, found, ?_⟩
  rcases outcome with ⟨_, rfl, rfl⟩ | ⟨_, rfl, rfl⟩
  · have count : values.length = results.length := length_of_mapM constants
    have count' : results.length = e.op.numResults args.length := by
      simpa using Atomic.length_forward forward
    have positive' : values ≠ [] := by
      rintro rfl
      exact positive (count'.symm.trans count.symm)
    have start : ((tape.embedAll args).2.pushCall e (tape.embedAll args).1 values).1 =
        (tape.embedAll args).2.size := by
      obtain ⟨v, vs, rfl⟩ := List.exists_cons_of_ne_nil positive'
      rw [Tape.pushCall_cons]
    refine .inr ⟨_, (tape.embedAll args).2.size, rfl, Tape.records_pushCall ?_ ?_ positive'
      (length_recordedResults count) ?_⟩
    · intro place a there same
      have known := consistent.table place a there
      rw [same, consistent.numbered id e found] at known
      exact Option.some.inj (known.symm.trans found)
    · exact Tape.atomics_embedAll tape args
    · intro k y there
      have inside : k < values.length :=
        length_recordedResults count ▸ (List.getElem?_eq_some_iff.1 there).1
      rw [getElem?_recordedResults inside (count ▸ inside), start] at there
      obtain rfl := Option.some.inj there
      rw [List.getElem?_eq_getElem inside]
      split
      · exact ⟨rfl, .inr rfl⟩
      · exact ⟨rfl, .inl rfl⟩
  · refine .inl ⟨rfl, fun y member => ?_⟩
    obtain ⟨v, _, rfl⟩ := List.mem_map.1 member
    rfl

end Tracked

/-- Started on a tape that is being recorded, the computation leaves a tape that has grown, whatever
the outcome, and one that shows its results where it succeeds. -/
def Grows (registry : Registry B) (tape : Tape B) (work : Recording B (List (Tracked B))) : Prop :=
  ∃ next, Advances registry tape (work ⟨some tape, registry⟩).2 next [] ∧
    ∀ ys, (work ⟨some tape, registry⟩).1 = .ok ys → ∀ y ∈ ys, next.Shows y

namespace Grows

variable {registry : Registry B} {tape : Tape B} {ys : List (Tracked B)}

omit [Scalar F] [Base B F] in
private theorem pure (consistent : Consistent registry tape) (shows_ : ∀ y ∈ ys, tape.Shows y) :
    Grows registry tape (Pure.pure ys) :=
  ⟨tape, ⟨rfl, consistent, .refl tape, .refl registry, nofun⟩, fun _ done =>
    Except.ok.inj done ▸ shows_⟩

omit [Scalar F] [Base B F] in
private theorem lift_bind {α : Type} {x : Except Error α} {f : α → Recording B (List (Tracked B))}
    (consistent : Consistent registry tape) (next : ∀ a, x = .ok a → Grows registry tape (f a)) :
    Grows registry tape ((liftM x : Recording B α) >>= f) := by
  unfold Grows
  rw [run_bind, run_lift]
  cases x with
  | error err => exact ⟨tape, ⟨rfl, consistent, .refl tape, .refl registry, nofun⟩, nofun⟩
  | ok a => exact next a rfl

omit [Scalar F] [Base B F] in
private theorem of_ok {α : Type} {work : Recording B α} {f : α → List (Tracked B)}
    (consistent : Consistent registry tape) (cautious : Cautious ⟨some tape, registry⟩ work)
    (done : ∀ a r, work ⟨some tape, registry⟩ = (.ok a, r) →
      ∃ next, Advances registry tape r next [] ∧ ∀ y ∈ f a, next.Shows y) :
    Grows registry tape (do return f (← work)) := by
  unfold Grows
  rw [run_bind]
  rcases ran : work ⟨some tape, registry⟩ with ⟨err | a, r⟩
  · obtain rfl := cautious err r ran
    exact ⟨tape, ⟨rfl, consistent, .refl tape, .refl registry, nofun⟩, nofun⟩
  · obtain ⟨next, advances, shows_⟩ := done a r ran
    exact ⟨next, advances, fun ys same => Except.ok.inj same ▸ shows_⟩

omit [Scalar F] [Base B F] in
private theorem only {work : Recording B (List (Tracked B))} (grows : Grows registry tape work) :
    Grows registry tape (do return [← (do Tracked.only (← work) : Recording B (Tracked B))]) := by
  obtain ⟨next, advances, shows_⟩ := grows
  unfold Grows
  rw [run_bind, run_bind]
  rcases ran : work ⟨some tape, registry⟩ with ⟨err | ys, r⟩
  · rw [ran] at advances
    exact ⟨next, advances, nofun⟩
  · rw [ran] at advances shows_
    dsimp only
    rw [run_lift]
    cases picked : Tracked.only ys with
    | error err => exact ⟨next, advances, nofun⟩
    | ok y =>
      refine ⟨next, advances, fun zs same => ?_⟩
      obtain rfl := Except.ok.inj same
      unfold Tracked.only at picked
      split at picked
      · obtain rfl := Except.ok.inj picked
        exact shows_ _ rfl
      · cases picked

private theorem enter_bind {b : BuiltIn} {f : Nat → Recording B (List (Tracked B))}
    (consistent : Consistent registry tape)
    (next : ∀ id registry', Consistent registry' tape → Grows registry' tape (f id)) :
    Grows registry tape (b.enter >>= f) := by
  obtain ⟨id, registry', entered, numbered, extends_⟩ :=
    b.enter_numbered (r := ⟨some tape, registry⟩) consistent.numbered
  have consistent' : Consistent registry' tape := ⟨numbered, consistent.wellFormed,
    fun place e there => extends_ e.id e (consistent.table place e there)⟩
  obtain ⟨last, advances, shows_⟩ := next id registry' consistent'
  unfold Grows
  rw [run_bind_ok entered]
  exact ⟨last, ⟨advances.recording, advances.consistent, advances.extends_,
    extends_.trans advances.registers, nofun⟩, shows_⟩

end Grows

omit [Scalar F] [Base B F] in
private theorem Advances.state {registry : Registry B} {tape next : Tape B} {r : Recorder B}
    {ys : List (Tracked B)} (advances : Advances registry tape r next ys) :
    Advances registry tape r next [] :=
  ⟨advances.recording, advances.consistent, advances.extends_, advances.registers, nofun⟩

omit [Scalar F] [Base B F] in
private theorem Tape.Records.shows_ {tape next : Tape B} {e : Registered B} {ys : List (Tracked B)}
    {arity start : Nat} (records : tape.Records next e arity ys start) :
    ∀ y ∈ ys, next.Shows y := by
  intro y member j here
  obtain ⟨k, there⟩ := List.getElem?_of_mem member
  obtain ⟨value, place | place⟩ := records.results k y there
  · unfold Tracked.indexOn at here
    rw [place] at here
    cases here
  · unfold Tracked.indexOn at here
    rw [place, records.extends_.id] at here
    obtain rfl : start + k = j := by simpa using here
    obtain ⟨⟨entry, v⟩, found, rfl⟩ : ∃ node, next.nodes[start + k]? = some node ∧
        node.value = y.value := by
      simpa only [Tape.value, bind_eq_ok, pure_eq_ok, fetch_eq_ok_iff] using value
    refine ⟨entry, found, ?_⟩
    have own : next.entry (start + k) = .ok entry := Tape.entry_of_node found
    by_cases first : k = 0
    · subst first
      obtain ⟨_, _, call, _⟩ := records.call
      rw [own.symm.trans call |> Except.ok.inj]
      exact nofun
    · have inside : k < ys.length := (List.getElem?_eq_some_iff.1 there).1
      have further := records.further (start + k) (by omega) (by rw [records.size]; omega)
      rw [own.symm.trans further |> Except.ok.inj]
      exact nofun

namespace Tracked

variable {registry : Registry B} {tape : Tape B} {t t' : Tracked B} {args : List (Tracked B)}

private theorem grows_unary (consistent : Consistent registry tape) (shows_ : tape.Shows t)
    (op : UnaryOp) :
    Grows registry tape (do return [← t.unary op]) :=
  .of_ok consistent (cautious_unary op t _) fun y r done => by
    obtain ⟨next, advances, _⟩ := unary_advances consistent shows_.knows done
    obtain ⟨_, registry'⟩ := r
    obtain rfl := advances.recording
    exact ⟨next, advances.state, List.forall_mem_singleton.2 (unary_shows done)⟩

private theorem grows_binary (consistent : Consistent registry tape) (shows_ : tape.Shows t)
    (shows' : tape.Shows t') (op : BinaryOp) :
    Grows registry tape (do return [← t.binary op t']) :=
  .of_ok consistent (cautious_binary op t t' _) fun y r done => by
    obtain ⟨next, advances, _⟩ := binary_advances consistent shows_.knows shows'.knows done
    obtain ⟨_, registry'⟩ := r
    obtain rfl := advances.recording
    exact ⟨next, advances.state, List.forall_mem_singleton.2 (binary_shows done)⟩

private theorem grows_call (consistent : Consistent registry tape)
    (shows_ : ∀ x ∈ args, tape.Shows x) (id : Nat) : Grows registry tape (call id args) := by
  rw [← bind_pure (call id args)]
  refine .of_ok (f := fun ys => ys) consistent (cautious_call id args _) fun ys r done => ?_
  obtain ⟨e, next, _, advances, _⟩ :=
    call_advances consistent (fun x member => (shows_ x member).knows) done
  obtain ⟨e', _, ⟨rfl, inline⟩ | ⟨next', start, rfl, records⟩⟩ := call_records consistent done
  · refine ⟨next, advances.state, fun y member j here => ?_⟩
    unfold indexOn at here
    rw [inline y member] at here
    cases here
  · obtain rfl : next' = next := Option.some.inj advances.recording
    exact ⟨next', advances.state, records.shows_⟩

end Tracked

private theorem BuiltIn.grows_record {registry : Registry B} {tape : Tape B}
    {args : List (Tracked B)}
    (consistent : Consistent registry tape) (shows_ : ∀ x ∈ args, tape.Shows x) (b : BuiltIn) :
    Grows registry tape (b.record args) := by
  unfold record
  split
  · exact (Tracked.grows_call consistent shows_ _).only
  · exact (Tracked.grows_call consistent shows_ _).only
  · exact (Tracked.grows_call consistent shows_ _).only
  · exact (Tracked.grows_call consistent shows_ _).only
  · rename_i n x
    exact (Grows.enter_bind (b := .make n) consistent fun id _ consistent' =>
      Tracked.grows_call consistent' shows_ id).only
  · rename_i n x
    exact Grows.enter_bind (b := .unpack n) consistent fun id _ consistent' =>
      Tracked.grows_call consistent' shows_ id
  · exact .enter_bind consistent fun id _ consistent' => Tracked.grows_call consistent' shows_ id

namespace Step

variable {registry : Registry B} {tape : Tape B} {env : List (Tracked B)}

private theorem grows_record (consistent : Consistent registry tape)
    (shows_ : ∀ t ∈ env, tape.Shows t)
    {s : Step B} (foreign : s.Foreign tape.id) : Grows registry tape (s.record env) := by
  have given : ∀ {a t}, pick env a = .ok t → tape.Shows t := fun found =>
    shows_ _ (mem_of_pick found)
  cases s with
  | bring x =>
    refine .pure consistent (List.forall_mem_singleton.2 fun j here => ?_)
    rw [show x.indexOn tape.id = none from foreign] at here
    cases here
  | copy a =>
    exact .lift_bind consistent fun t found =>
      .pure consistent (List.forall_mem_singleton.2 (given found))
  | unary op a =>
    exact .lift_bind consistent fun t found => Tracked.grows_unary consistent (given found) op
  | binary op a b =>
    exact .lift_bind consistent fun t found => .lift_bind consistent fun t' found' =>
      Tracked.grows_binary consistent (given found) (given found') op
  | compare c a b =>
    exact .lift_bind consistent fun t _ => .lift_bind consistent fun t' _ =>
      .lift_bind consistent fun _ _ => .pure consistent nofun
  | max a b =>
    exact .lift_bind consistent fun t found => .lift_bind consistent fun t' found' =>
      .lift_bind consistent fun y chosen => .pure consistent (List.forall_mem_singleton.2
        (Tracked.shows_max (given found) (given found') chosen))
  | min a b =>
    exact .lift_bind consistent fun t found => .lift_bind consistent fun t' found' =>
      .lift_bind consistent fun y chosen => .pure consistent (List.forall_mem_singleton.2
        (Tracked.shows_min (given found) (given found') chosen))
  | clip a lo hi =>
    refine .lift_bind consistent fun t found => .lift_bind consistent fun low found' =>
      .lift_bind consistent fun high found'' => .lift_bind consistent fun y chosen =>
        .pure consistent (List.forall_mem_singleton.2 ?_)
    obtain ⟨z, larger, smaller⟩ := bind_eq_ok.1 chosen
    exact Tracked.shows_min (Tracked.shows_max (given found) (given found') larger) (given found'')
      smaller
  | builtIn b args =>
    exact .lift_bind consistent fun ts found =>
      b.grows_record consistent fun t member => shows_ t (mem_of_gather found t member)
  | call id args =>
    exact .lift_bind consistent fun ts found =>
      Tracked.grows_call consistent (fun t member => shows_ t (mem_of_gather found t member)) id

end Step

namespace BuiltIn

variable {registry : Registry B} {tape : Tape B} {r r' : Recorder B} {ts : List (Tracked B)}
  {err : Error}

omit [Scalar F] [Base B F] in
private theorem failed_of_only {work : Recording B (List (Tracked B))}
    (failed : (do return [← (do Tracked.only (← work) : Recording B (Tracked B))] :
      Recording B (List (Tracked B))) r = (.error err, r')) :
    work r = (.error err, r') ∨ ∃ ys, work r = (.ok ys, r') ∧ ys.length ≠ 1 := by
  rw [run_bind, run_bind] at failed
  rcases ran : work r with ⟨err' | ys, s⟩
  · rw [ran] at failed
    exact .inl failed
  · rw [ran] at failed
    dsimp only at failed
    rw [run_lift] at failed
    cases picked : Tracked.only ys with
    | ok y =>
      rw [picked] at failed
      cases failed
    | error err' =>
      rw [picked] at failed
      obtain ⟨_, rfl⟩ := Prod.mk.inj failed
      refine .inr ⟨ys, rfl, fun one => ?_⟩
      obtain ⟨y, rfl⟩ := List.length_eq_one_iff.1 one
      cases picked

/-- A built-in that fails has failed as the call of its id, or its only result is wanted and the call
has given another number of results. -/
theorem failed_of_record {b : BuiltIn} (failed : b.record ts r = (.error err, r')) :
    (b.enter >>= fun id => Tracked.call id ts) r = (.error err, r') ∨
      b.count = 1 ∧ ∃ ys, (b.enter >>= fun id => Tracked.call id ts) r = (.ok ys, r') ∧
        ys.length ≠ 1 := by
  unfold record at failed
  split at failed
  · exact (failed_of_only failed).imp_right (⟨rfl, ·⟩)
  · exact (failed_of_only failed).imp_right (⟨rfl, ·⟩)
  · exact (failed_of_only failed).imp_right (⟨rfl, ·⟩)
  · exact (failed_of_only failed).imp_right (⟨rfl, ·⟩)
  · rename_i n x
    have refused : ((make n).enter >>= fun id => Tracked.call id [x]) r = _ ∨ _ :=
      failed_of_only failed
    exact refused.imp_right (⟨rfl, ·⟩)
  · exact .inl failed
  · exact .inl failed

private theorem tape_of_failed {b : BuiltIn} (faithful : registry.Faithful)
    (consistent : Consistent registry tape)
    (failed : b.record ts ⟨some tape, registry⟩ = (.error err, r)) : r.tape = some tape := by
  obtain ⟨id, next, e, entered, faithful', extends_, found, same⟩ :=
    b.enter_faithful (r := ⟨some tape, registry⟩) faithful
  have consistent' : Consistent next tape := ⟨faithful'.numbered, consistent.wellFormed,
    fun place a there => extends_ a.id a (consistent.table place a there)⟩
  rcases failed_of_record failed with refused | ⟨one, ys, called, other⟩
  · rw [run_bind_ok entered] at refused
    rw [Tracked.cautious_call id ts _ err r refused]
  · rw [run_bind_ok entered] at called
    obtain ⟨e', found', count⟩ := Tracked.length_call called
    obtain rfl : e = e' := Option.some.inj (found.symm.trans found')
    rw [count, same, numResults_atomic] at other
    exact absurd one other

end BuiltIn

/-- The step is no function that calls a built-in. -/
def Step.IsOperation : Step B → Prop
  | .builtIn _ _ => False
  | _ => True

namespace Step

private theorem cautious_record (env : List (Tracked B)) {s : Step B} (operation : s.IsOperation)
    (r : Recorder B) : Cautious r (s.record env) := by
  cases s with
  | bring x => exact .pure _
  | copy a => exact .lift_bind fun t => .pure _
  | unary op a => exact .lift_bind fun t => (Tracked.cautious_unary op t r).single
  | binary op a b =>
    exact .lift_bind fun t => .lift_bind fun t' => (Tracked.cautious_binary op t t' r).single
  | compare c a b =>
    exact .lift_bind fun t => .lift_bind fun t' => .lift_bind fun _ => .pure _
  | max a b => exact .lift_bind fun t => .lift_bind fun t' => .lift_bind fun y => .pure _
  | min a b => exact .lift_bind fun t => .lift_bind fun t' => .lift_bind fun y => .pure _
  | clip a lo hi =>
    exact .lift_bind fun t => .lift_bind fun low => .lift_bind fun high => .lift_bind fun y =>
      .pure _
  | builtIn b args => exact operation.elim
  | call id args => exact .lift_bind fun ts => Tracked.cautious_call id ts r

end Step

/-- A recording in progress: the recorder, and all tracked values so far. -/
structure Progress (B : Type) where
  recorder : Recorder B
  values : List (Tracked B)

/-- What can be done while a recording is open. -/
inductive Deed (B : Type) where
  | step (s : Step B)
  | register (name : String) (op : Atomic B)

namespace Deed

/-- What is done leaves its results, where it succeeds. -/
def after (p : Progress B) : Deed B → Progress B
  | .step s =>
    match s.record p.values p.recorder with
    | (.ok ys, recorder) => ⟨recorder, p.values ++ ys⟩
    | (.error _, recorder) => ⟨recorder, p.values⟩
  | .register name op =>
    match p.recorder.registry.register name op with
    | .ok (_, registry) => ⟨{ p.recorder with registry }, p.values⟩
    | .error _ => p

/-- Nothing of the tape that is being recorded is brought in. -/
def Foreign (tape : Nat) : Deed B → Prop
  | .step s => s.Foreign tape
  | .register _ _ => True

end Deed

namespace Progress

/-- A new recording, with its inputs as the only tracked values. -/
def start (registry : Registry B) (id : Nat) (x : List B) : Progress B :=
  ⟨⟨some (.ofInputs id x), registry⟩, Program.inputs id x⟩

variable {p : Progress B} {tape : Tape B}

/-- The tape of a recording in progress and its tracked values are in order. -/
structure InOrder (p : Progress B) (tape : Tape B) : Prop where
  recording : p.recorder.tape = some tape
  consistent : Consistent p.recorder.registry tape
  /-- Every position has an entry and a value. -/
  paired : ∀ i < tape.size, ∃ e v, tape.entry i = .ok e ∧ tape.value i = .ok v
  /-- The further results of a call are just the entries behind it that it needs. -/
  further : ∀ i place args n, tape.entry i = .ok (.call place args n) →
    ∀ j, tape.entry j = .ok (.result i) ↔ i < j ∧ j < i + n
  shows_ : ∀ t ∈ p.values, tape.Shows t

/-- What may be done next in a recording leaves it in order. -/
structure Proceeds (p : Progress B) (tape : Tape B) : Prop where
  /-- The entries that are there stay. -/
  kept : ∀ d : Deed B, d.Foreign tape.id →
    ∃ next, (d.after p).recorder.tape = some next ∧ tape.Extends next
  /-- An operation that fails changes nothing. -/
  failed : ∀ (s : Step B) err r, s.IsOperation →
    s.record p.values p.recorder = (.error err, r) → r = p.recorder
  /-- A function that calls a built-in writes nothing where it fails, as long as the ids mean the
  built-ins. -/
  builtIns : ∀ (b : BuiltIn) args err r, p.recorder.registry.Faithful →
    (Step.builtIn b args).record p.values p.recorder = (.error err, r) → r.tape = some tape
  /-- A call that succeeds names the atomic that was called, where it is written down. -/
  called : ∀ id args ys r, (Step.call id args).record p.values p.recorder = (.ok ys, r) →
    ∃ e, p.recorder.registry.entries[id]? = some e ∧
      ((r = p.recorder ∧ ∀ y ∈ ys, y.place = .inline) ∨
        ∃ next start, r = { p.recorder with tape := some next } ∧
          tape.Records next e args.length ys start)

omit [Scalar F] [Base B F] in
private theorem InOrder.of_consistent (recording : p.recorder.tape = some tape)
    (consistent : Consistent p.recorder.registry tape) (shows_ : ∀ t ∈ p.values, tape.Shows t) :
    p.InOrder tape where
  recording := recording
  consistent := consistent
  paired i inside := by
    obtain ⟨⟨e, v⟩, found⟩ := Tape.exists_node inside
    refine ⟨e, v, Tape.entry_of_node found, ?_⟩
    simp only [Tape.value, bind_eq_ok, pure_eq_ok, fetch_eq_ok_iff]
    exact ⟨_, found, rfl⟩
  further i place args n found j := by
    have wf := consistent.wellFormed
    constructor
    · intro result
      obtain ⟨_, _, _, found', low, high⟩ := wf.results j i result
      cases found.symm.trans found'
      exact ⟨low, high⟩
    · rintro ⟨low, high⟩
      exact (wf.calls i place args n found).2 j low high
  shows_ := shows_

private theorem inOrder_start {registry : Registry B} (numbered : registry.Numbered) (id : Nat)
    (x : List B) : (start registry id x).InOrder (.ofInputs id x) := by
  refine .of_consistent rfl (Program.consistent_ofInputs id x numbered) fun t member j here => ?_
  obtain ⟨e, found⟩ := Program.knows_inputs id x t member j here
  obtain ⟨rfl, _⟩ := Program.entry_ofInputs id x (Tape.entry_of_node found)
  exact ⟨.input, found, nofun⟩

private theorem InOrder.after (inOrder : p.InOrder tape) {d : Deed B}
    (foreign : d.Foreign tape.id) :
    ∃ next, (d.after p).InOrder next ∧ tape.Extends next := by
  obtain ⟨⟨_, registry⟩, values⟩ := p
  obtain rfl := inOrder.recording
  have consistent : Consistent registry tape := inOrder.consistent
  have shows_ : ∀ t ∈ values, tape.Shows t := inOrder.shows_
  cases d with
  | step s =>
    obtain ⟨next, advances, results⟩ := Step.grows_record consistent shows_ foreign
    have kept : ∀ t ∈ values, next.Shows t := fun t member =>
      (shows_ t member).extends advances.extends_
    refine ⟨next, ?_, advances.extends_⟩
    unfold Deed.after
    dsimp only
    rcases ran : s.record values ⟨some tape, registry⟩ with ⟨err | ys, r⟩
    · rw [ran] at advances
      exact .of_consistent advances.recording advances.consistent kept
    · rw [ran] at advances results
      refine .of_consistent advances.recording advances.consistent fun t member => ?_
      rcases List.mem_append.1 member with old | new
      · exact kept t old
      · exact results ys rfl t new
  | register name op =>
    refine ⟨tape, ?_, .refl tape⟩
    unfold Deed.after
    dsimp only
    cases done : registry.register name op with
    | error err => exact inOrder
    | ok entered =>
      obtain ⟨numbered, extends_⟩ := Registry.register_numbered consistent.numbered done
      exact .of_consistent rfl ⟨numbered, consistent.wellFormed,
        fun place e there => extends_ e.id e (consistent.table place e there)⟩ shows_

private theorem InOrder.proceeds (inOrder : p.InOrder tape) : p.Proceeds tape where
  kept d foreign := by
    obtain ⟨next, inOrder', extends_⟩ := inOrder.after foreign
    exact ⟨next, inOrder'.recording, extends_⟩
  failed s err r operation failed := Step.cautious_record p.values operation p.recorder err r failed
  builtIns b args err r faithful failed := by
    obtain ⟨⟨_, registry⟩, values⟩ := p
    obtain rfl := inOrder.recording
    change ((liftM (Step.gather values args) : Recording B _) >>= fun ts => b.record ts) _ = _
      at failed
    rw [run_bind, run_lift] at failed
    cases gathered : Step.gather values args with
    | error err' =>
      rw [gathered] at failed
      obtain ⟨_, rfl⟩ := Prod.mk.inj failed
      rfl
    | ok ts =>
      rw [gathered] at failed
      exact BuiltIn.tape_of_failed faithful inOrder.consistent failed
  called id args ys r done := by
    obtain ⟨⟨_, registry⟩, values⟩ := p
    obtain rfl := inOrder.recording
    obtain ⟨ts, gathered, done⟩ := run_lift_bind_eq_ok.1 done
    rw [← length_of_mapM gathered]
    exact Tracked.call_records inOrder.consistent done

/-- Whatever has been done in an open recording, it is in order, and so is what may be done next. -/
theorem recording_in_order {registry : Registry B} (numbered : registry.Numbered) (id : Nat)
    (x : List B) {deeds : List (Deed B)} (foreign : ∀ d ∈ deeds, d.Foreign id) :
    let p := deeds.foldl Deed.after (start registry id x)
    ∃ tape, (Tape.ofInputs id x).Extends tape ∧ p.InOrder tape ∧ p.Proceeds tape := by
  obtain ⟨tape, extends_, inOrder⟩ : ∃ tape, (Tape.ofInputs id x).Extends tape ∧
      (deeds.foldl Deed.after (start registry id x)).InOrder tape := by
    induction deeds using List.reverseRecOn with
    | nil => exact ⟨_, .refl _, inOrder_start numbered id x⟩
    | append_singleton deeds d ih =>
      obtain ⟨tape, extends_, inOrder⟩ := ih fun d member => foreign d (List.mem_append_left _ member)
      obtain ⟨next, inOrder', extends'⟩ := inOrder.after (d := d) (by
        rw [extends_.id]
        exact foreign d (by simp))
      rw [List.foldl_append]
      exact ⟨next, extends_.trans extends', inOrder'⟩
  exact ⟨tape, extends_, inOrder, inOrder.proceeds⟩

/-- A product with a value left over from another tape, a sum of arrays that do not fit, a call under
an id that is not given out yet, and the same call once an atomic has been registered there. -/
theorem recording_in_order_leftover :
    let deeds : List (Deed (Value Float)) := [.step (.bring ⟨.array [4, 5, 6], .onTape 3 2⟩),
      .step (.binary .mul 0 1), .step (.binary .add 0 2), .step (.call 4 [0]),
      .register "total" Atomic.sum, .step (.call 4 [3])]
    let p := deeds.foldl Deed.after (start Registry.builtins 7 [.array [1, 2], .scalar 3])
    ∃ tape, (Tape.ofInputs 7 [.array [1, 2], .scalar 3]).Extends tape ∧ p.InOrder tape ∧
      p.Proceeds tape :=
  recording_in_order Registry.builtins_faithful.numbered 7 _
    (by simp [Deed.Foreign, Step.Foreign, Tracked.indexOn])

end Progress

end TaylorTape
