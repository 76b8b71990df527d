import TaylorTape.Proofs.Agreement
import TaylorTape.Proofs.Frozen
import TaylorTape.Evaluator.Derivatives

/-!
What an evaluator remembers of its history.

Every request comes down to calls for orders, of which the first that fails is the last.  An account
of a history writes down the seeds of each call that was accepted.  After any history the evaluator
agrees, in all its valid orders, with a fresh one to which only the seeds last accepted for these
orders have been given.  So from there on the two answer alike.
-/

set_option autoImplicit false
set_option relaxedAutoImplicit false

namespace TaylorTape

variable {B F : Type} [Scalar F] [Base B F]

namespace Evaluator

variable {e e₀ e' : Evaluator B}

private theorem rewind {rows answers : List (List (List B))} {q : Nat} (wf : e₀.WellFormed)
    (fresh : e₀.numOrders = 0) (done : forwardFrom 0 rows e₀ = (.ok answers, e))
    (low : q ≤ rows.length) :
    ∃ ys e', forwardFrom 0 (rows.take q) e₀ = (.ok ys, e') ∧ e'.WellFormed ∧ e'.numOrders = q ∧
      AgreeBelow q e e' := by
  have length : (rows.take q).length = q := List.length_take_of_le low
  rw [← List.take_append_drop q rows] at done
  generalize rows.take q = before at done length
  obtain ⟨ys, e', zs, first, rest, _⟩ := forwardFrom_append.1 done
  have ran := forwardFrom_zero wf first
  rw [Nat.zero_add] at rest
  have later := forwardFrom_sound ran.wellFormed ran.cached rest
  have orders : e'.numOrders = q := by
    by_cases none : before = []
    · rw [none] at first length
      obtain ⟨_, rfl⟩ := Prod.mk.inj first
      rw [fresh]
      exact length
    · rw [ran.orders none, length]
      exact Nat.zero_add q
  have cached := later.cached.orders
  rw [List.nil_append] at later
  rw [List.nil_append, List.length_append, length] at cached
  refine ⟨ys, e', first, ran.wellFormed, orders, AgreeBelow.symm ?_⟩
  refine ⟨later.tape, later.outputs, orders.ge, by omega, ?_, ?_⟩
  · intro higher
    exact later.same (by omega)
  · intro v var k below
    exact later.kept v var k (by omega)

end Evaluator

/-- A call for an order along some directions. -/
structure Ask (B : Type) where
  order : Nat
  directions : Nat
  seeds : List (List B)

/-- What can be asked of an evaluator. -/
inductive Request (B : Type) where
  | forward (q r : Nat) (seeds : List (List B))
  | reverse (q : Nat) (weights : List (List B))
  | forwardZero (x : List B)
  | forwardOne (dx : List B)
  | jacobian (x : List B)
  | jacobianForward (x : List B)
  | jacobianReverse (x : List B)
  | gradient (x : List B)
  | hessianVector (x v : List B)

namespace Request

/-- The evaluator that a request leaves, whether it is answered or not. -/
def after (e : Evaluator B) : Request B → Evaluator B
  | .forward q r seeds => (Evaluator.forward q r seeds e).2
  | .reverse _ _ => e
  | .forwardZero x => (Evaluator.forwardZero x e).2
  | .forwardOne dx => (Evaluator.forwardOne dx e).2
  | .jacobian x => (Evaluator.jacobian x e).2
  | .jacobianForward x => (Evaluator.jacobianForward x e).2
  | .jacobianReverse x => (Evaluator.jacobianReverse x e).2
  | .gradient x => (Evaluator.gradient x e).2
  | .hessianVector x v => (Evaluator.hessianVector x v e).2

/-- The calls that a Jacobian by forward sweeps makes. -/
def columns (e : Evaluator B) (x : List B) : List (Ask B) :=
  ⟨0, 1, [x]⟩ ::
    (List.range e.numInputs).map fun j => ⟨1, 1, [Evaluator.unit e.numInputs j]⟩

/-- The calls that a request makes, as long as they succeed. -/
def asks (e : Evaluator B) : Request B → List (Ask B)
  | .forward q r seeds => [⟨q, r, seeds⟩]
  | .reverse _ _ => []
  | .forwardZero x => [⟨0, 1, [x]⟩]
  | .forwardOne dx => [⟨1, 1, [dx]⟩]
  | .jacobian x => if e.numInputs ≤ e.numOutputs then columns e x else [⟨0, 1, [x]⟩]
  | .jacobianForward x => columns e x
  | .jacobianReverse x => [⟨0, 1, [x]⟩]
  | .gradient x => if e.numOutputs ≠ 1 then [] else [⟨0, 1, [x]⟩]
  | .hessianVector x v => if e.numOutputs ≠ 1 then [] else [⟨0, 1, [x]⟩, ⟨1, 1, [v]⟩]

end Request

/-- An evaluator with the seeds that it has accepted, each with its order, the last first. -/
structure Account (B : Type) where
  evaluator : Evaluator B
  accepted : List (Nat × List (List B))

namespace Account

/-- Calls made one after another until one fails. -/
def follow (s : Account B) : List (Ask B) → Account B
  | [] => s
  | a :: rest =>
    match Evaluator.forward a.order a.directions a.seeds s.evaluator with
    | (.ok _, e) => follow ⟨e, (a.order, a.seeds) :: s.accepted⟩ rest
    | (.error _, e) => ⟨e, s.accepted⟩

/-- A request served. -/
def serve (s : Account B) (request : Request B) : Account B :=
  s.follow (request.asks s.evaluator)

/-- The seeds last accepted for each of the valid orders. -/
def recent (s : Account B) : List (List (List B)) :=
  (List.range s.evaluator.numOrders).map fun k => (s.accepted.lookup k).getD []

end Account

namespace Evaluator

/-- Calls made one after another, their answers left out. -/
def perform (asks : List (Ask B)) : Evaluation B Unit :=
  asks.forM fun a => do
    let _ ← forward a.order a.directions a.seeds

/-- A computation succeeds, fails and changes the evaluator as some calls do. -/
def Traces {α : Type} (m : Evaluation B α) (asks : List (Ask B)) : Prop :=
  ∀ e, perform asks e = ((m e).1.map fun _ => (), (m e).2)

/-- A computation leaves the evaluator that some calls leave. -/
def Leaves {α : Type} (m : Evaluation B α) (asks : List (Ask B)) : Prop :=
  ∀ e, (m e).2 = (perform asks e).2

theorem perform_cons (a : Ask B) (asks : List (Ask B)) (e : Evaluator B) :
    perform (a :: asks) e = match forward a.order a.directions a.seeds e with
      | (.ok _, e') => perform asks e'
      | (.error err, e') => (.error err, e') := by
  show ((forward a.order a.directions a.seeds >>= fun _ => pure ()) >>= fun _ => perform asks) e = _
  rw [run_bind, run_bind]
  cases forward a.order a.directions a.seeds e with
  | mk outcome e' => cases outcome <;> rfl

private theorem perform_append (asks asks' : List (Ask B)) (e : Evaluator B) :
    perform (asks ++ asks') e = match perform asks e with
      | (.ok _, e') => perform asks' e'
      | (.error err, e') => (.error err, e') := by
  induction asks generalizing e with
  | nil => rfl
  | cons a asks ih =>
    rw [List.cons_append, perform_cons, perform_cons]
    cases forward a.order a.directions a.seeds e with
    | mk outcome e' =>
      cases outcome with
      | error err => rfl
      | ok _ => exact ih e'

namespace Traces

variable {α β : Type} {m : Evaluation B α} {f : α → Evaluation B β} {asks asks' : List (Ask B)}

private theorem bind (first : Traces m asks) (next : ∀ a, Traces (f a) asks') :
    Traces (m >>= f) (asks ++ asks') := by
  intro e
  rw [perform_append, first e, run_bind]
  cases m e with
  | mk outcome e' =>
    cases outcome with
    | error err => rfl
    | ok a => exact next a e'

private theorem bind_leaves (first : Traces m asks) (next : ∀ a, Leaves (f a) asks') :
    Leaves (m >>= f) (asks ++ asks') := by
  intro e
  rw [perform_append, first e, run_bind]
  cases m e with
  | mk outcome e' =>
    cases outcome with
    | error err => rfl
    | ok a => exact next a e'

private theorem leaves (traces : Traces m asks) : Leaves m asks := by
  intro e
  rw [traces e]

private theorem mapM {ι : Type} {g : ι → Evaluation B α} {ask : ι → Ask B} (xs : List ι)
    (each : ∀ x, Traces (g x) [ask x]) : Traces (xs.mapM g) (xs.map ask) := by
  induction xs with
  | nil =>
    intro e
    rfl
  | cons x xs ih =>
    rw [List.mapM_cons]
    refine bind (each x) fun y => ?_
    have silent : ∀ ys, Traces (pure (y :: ys) : Evaluation B (List α)) [] := fun _ _ => rfl
    have rest := ih.bind silent
    rwa [List.append_nil] at rest

end Traces

private theorem traces_forward (q r : Nat) (seeds : List (List B)) :
    Traces (forward q r seeds) [⟨q, r, seeds⟩] := by
  intro e
  rw [perform_cons]
  cases forward q r seeds e with
  | mk outcome e' => cases outcome <;> rfl

private theorem length_of_forward {e e' : Evaluator B} {q r : Nat} {seeds ys : List (List B)}
    (done : forward q r seeds e = (.ok ys, e')) : ys.length = r := by
  unfold forward at done
  rw [run_bind_ok (run_get e)] at done
  obtain ⟨_, _, _, swept⟩ := run_bind_eq_ok.1 done
  obtain ⟨_, e₁, _, answered⟩ := run_bind_eq_ok.1 swept
  rw [run_bind_ok (run_get e₁), run_lift] at answered
  rw [length_of_mapM (Prod.mk.inj answered).1, List.length_range]

private theorem traces_pick (q : Nat) (seed : List B) :
    Traces (do pick (← forward q 1 [seed]) 0) [⟨q, 1, [seed]⟩] := by
  intro e
  rw [traces_forward q 1 [seed] e, run_bind]
  cases done : forward q 1 [seed] e with
  | mk outcome e' =>
    cases outcome with
    | error err => rfl
    | ok ys =>
      obtain ⟨y, rfl⟩ := List.length_eq_one_iff.1 (length_of_forward done)
      rfl

private theorem traces_forwardZero (x : List B) : Traces (forwardZero x) [⟨0, 1, [x]⟩] :=
  traces_pick 0 x

private theorem traces_forwardOne (dx : List B) : Traces (forwardOne dx) [⟨1, 1, [dx]⟩] :=
  traces_pick 1 dx

private theorem jacobianForward_after (x : List B) (e : Evaluator B) :
    (jacobianForward x e).2 = (perform (Request.columns e x) e).2 := by
  unfold jacobianForward
  rw [run_bind_ok (run_get e)]
  apply (traces_forwardZero x).bind_leaves
  intro _
  rw [← List.append_nil (List.map _ _)]
  apply (Traces.mapM (List.range e.numInputs) fun j =>
    traces_forwardOne (unit e.numInputs j)).bind_leaves
  intro columns e'
  exact congrArg Prod.snd (run_lift _ e')

private theorem jacobianReverse_after (x : List B) (e : Evaluator B) :
    (jacobianReverse x e).2 = (perform [⟨0, 1, [x]⟩] e).2 := by
  unfold jacobianReverse
  have silent : Leaves (do (← get).reverseRows : Evaluation B (List (List B))) [] := by
    intro e'
    rw [run_bind_ok (run_get e'), run_lift]
    rfl
  exact (traces_forwardZero x).bind_leaves (fun _ => silent) e

private theorem leaves_lowest (q : Nat) (weights : List (List B)) :
    Leaves (do lowest (← (← get).reverse q weights)) [] := by
  intro e
  rw [run_bind_ok (run_get e), run_bind, run_lift]
  cases e.reverse q weights with
  | error err => rfl
  | ok px => exact congrArg Prod.snd (run_lift _ e)

private theorem gradient_after (x : List B) (e : Evaluator B) :
    (gradient x e).2 = (perform (if e.numOutputs ≠ 1 then [] else [⟨0, 1, [x]⟩]) e).2 := by
  unfold gradient
  rw [run_bind_ok (run_get e)]
  by_cases several : e.numOutputs ≠ 1
  · rw [if_pos several, if_pos several]
    rfl
  · rw [if_neg several, if_neg several]
    exact (traces_forwardZero x).bind_leaves (fun _ => leaves_lowest 1 [[Base.one]]) e

private theorem hessianVector_after (x v : List B) (e : Evaluator B) :
    (hessianVector x v e).2 =
      (perform (if e.numOutputs ≠ 1 then [] else [⟨0, 1, [x]⟩, ⟨1, 1, [v]⟩]) e).2 := by
  unfold hessianVector
  rw [run_bind_ok (run_get e)]
  by_cases several : e.numOutputs ≠ 1
  · rw [if_pos several, if_pos several]
    rfl
  · rw [if_neg several, if_neg several]
    exact (traces_forwardZero x).bind_leaves (fun _ => (traces_forwardOne v).bind_leaves
      fun _ => leaves_lowest 2 [[Base.zero, Base.one]]) e

/-- A request leaves the evaluator that its calls leave. -/
theorem after_eq (request : Request B) (e : Evaluator B) :
    request.after e = (perform (request.asks e) e).2 := by
  cases request with
  | forward q r seeds => exact (traces_forward q r seeds).leaves e
  | reverse q weights => rfl
  | forwardZero x => exact (traces_forwardZero x).leaves e
  | forwardOne dx => exact (traces_forwardOne dx).leaves e
  | jacobianForward x => exact jacobianForward_after x e
  | jacobianReverse x => exact jacobianReverse_after x e
  | gradient x => exact gradient_after x e
  | hessianVector x v => exact hessianVector_after x v e
  | jacobian x =>
    show (jacobian x e).2 = (perform (if e.numInputs ≤ e.numOutputs then _ else _) e).2
    unfold jacobian
    rw [run_bind_ok (run_get e)]
    by_cases few : e.numInputs ≤ e.numOutputs
    · rw [if_pos few, if_pos few]
      exact jacobianForward_after x e
    · rw [if_neg few, if_neg few]
      exact jacobianReverse_after x e

end Evaluator

namespace Account

variable {s : Account B} {e₀ : Evaluator B}

private theorem follow_evaluator (s : Account B) (asks : List (Ask B)) :
    (s.follow asks).evaluator = (Evaluator.perform asks s.evaluator).2 := by
  induction asks generalizing s with
  | nil => rfl
  | cons a asks ih =>
    rw [Evaluator.perform_cons]
    unfold follow
    cases Evaluator.forward a.order a.directions a.seeds s.evaluator with
    | mk outcome e =>
      cases outcome with
      | error err => rfl
      | ok _ => exact ih _

private theorem serve_evaluator (s : Account B) (request : Request B) :
    (s.serve request).evaluator = request.after s.evaluator := by
  rw [serve, follow_evaluator, Evaluator.after_eq]

omit [Scalar F] [Base B F] in
private theorem take_recent {accepted : List (Nat × List (List B))} {n q : Nat} (low : q ≤ n) :
    ((List.range n).map fun k => (accepted.lookup k).getD []).take q =
      (List.range q).map fun k => (accepted.lookup k).getD [] := by
  rw [← List.map_take, List.take_range, Nat.min_eq_left low]

private theorem recent_accepted {e : Evaluator B} {q : Nat} (seeds : List (List B))
    (accepted : List (Nat × List (List B))) (orders : e.numOrders = q + 1) :
    (⟨e, (q, seeds) :: accepted⟩ : Account B).recent =
      ((List.range q).map fun k => (accepted.lookup k).getD []) ++ [seeds] := by
  unfold recent
  rw [orders, List.range_succ, List.map_append]
  congr 1
  · apply List.map_congr_left
    intro k member
    have below := List.mem_range.1 member
    rw [List.lookup_cons, show (k == q) = false by simpa using by omega]
  · simp [List.lookup_cons]

/-- The evaluator of an account agrees with a fresh one to which the seeds last accepted have been
given. -/
structure Settled (e₀ : Evaluator B) (s : Account B) : Prop where
  wellFormed : s.evaluator.WellFormed
  builtIns : s.evaluator.tape.OnlyBuiltIns
  replay : ∃ answers e₁, Evaluator.forwardFrom 0 s.recent e₀ = (.ok answers, e₁) ∧
    e₁.WellFormed ∧ s.evaluator.Agree e₁

/-- The invariant after one call. -/
private theorem Settled.ask (settled : s.Settled e₀) (wf : e₀.WellFormed) (fresh : e₀.numOrders = 0)
    (q r : Nat) (seeds : List (List B)) :
    match Evaluator.forward q r seeds s.evaluator with
    | (.ok _, e) => Settled e₀ ⟨e, (q, seeds) :: s.accepted⟩
    | (.error _, e) => Settled e₀ ⟨e, s.accepted⟩ := by
  obtain ⟨answers, e₁, done, wf₁, agree⟩ := settled.replay
  have count : s.recent.length = s.evaluator.numOrders := by simp [recent]
  cases ran : Evaluator.forward q r seeds s.evaluator with
  | mk outcome e =>
    obtain ⟨wf', tape, -⟩ := Evaluator.forward_kept settled.wellFormed q r seeds
    rw [ran] at wf' tape
    cases outcome with
    | error err =>
      have kept := Evaluator.agreeBelow_of_failed settled.wellFormed ran
      have low : e.numOrders ≤ s.evaluator.numOrders := kept.orders
      obtain ⟨ys, e₂, first, wf₂, orders, below⟩ :=
        Evaluator.rewind wf fresh done (q := e.numOrders) (by omega)
      rw [recent, take_recent low] at first
      refine ⟨wf', tape ▸ settled.builtIns, ys, e₂, first, wf₂, orders, ?_⟩
      exact (kept.symm.trans (agree.below.mono low)).trans below
    | ok ys =>
      have advanced := Evaluator.forward_sound settled.wellFormed ran
      have accepts := advanced.accepted
      have low : q ≤ s.evaluator.numOrders := accepts.orders
      obtain ⟨zs, e₂, first, wf₂, orders, below⟩ :=
        Evaluator.rewind wf fresh done (q := q) (by omega)
      have both := (agree.below.mono low).trans below
      have accepts₂ : e₂.Accepts q r seeds := by
        refine ⟨accepts.positive, accepts.count, ?_, accepts.point, orders.ge, ?_⟩
        · intro seed member
          rw [accepts.lengths seed member]
          exact (congrArg Tape.numInputs both.tape).symm
        · intro higher
          rw [both.directions higher]
          exact accepts.directions higher
      obtain ⟨same, further⟩ :=
        both.forward settled.wellFormed wf₂ settled.builtIns accepts accepts₂
      rw [ran] at same further
      have agreed := further ys rfl
      cases ran₂ : Evaluator.forward q r seeds e₂ with
      | mk outcome₂ e₃ =>
        rw [ran₂] at same agreed
        obtain rfl : Except.ok ys = outcome₂ := same
        have advanced₂ := Evaluator.forward_sound wf₂ ran₂
        refine ⟨wf', tape ▸ settled.builtIns, zs ++ [ys], e₃, ?_, advanced₂.wellFormed, ?_, ?_⟩
        · rw [recent_accepted seeds s.accepted advanced.orders, Evaluator.forwardFrom_append]
          rw [recent, take_recent low] at first
          refine ⟨zs, e₂, [ys], first, Evaluator.forwardFrom_single ?_, rfl⟩
          rw [List.length_map, List.length_range, Nat.zero_add, accepts.count]
          exact ran₂
        · rw [advanced.orders, advanced₂.orders]
        · show Evaluator.AgreeBelow e.numOrders e e₃
          rw [advanced.orders]
          exact agreed

private theorem Settled.follow (settled : s.Settled e₀) (wf : e₀.WellFormed)
    (fresh : e₀.numOrders = 0) (asks : List (Ask B)) : (s.follow asks).Settled e₀ := by
  induction asks generalizing s with
  | nil => exact settled
  | cons a asks ih =>
    have next := settled.ask wf fresh a.order a.directions a.seeds
    unfold Account.follow
    cases ran : Evaluator.forward a.order a.directions a.seeds s.evaluator with
    | mk outcome e =>
      rw [ran] at next
      cases outcome with
      | error err => exact next
      | ok _ => exact ih next

private theorem Settled.serve (settled : s.Settled e₀) (wf : e₀.WellFormed)
    (fresh : e₀.numOrders = 0)
    (requests : List (Request B)) : (requests.foldl Account.serve s).Settled e₀ := by
  induction requests generalizing s with
  | nil => exact settled
  | cons request requests ih =>
    exact ih (settled.follow wf fresh (request.asks s.evaluator))

private theorem settled_of_fresh (wf : e₀.WellFormed) (builtIns : e₀.tape.OnlyBuiltIns)
    (fresh : e₀.numOrders = 0) : Settled e₀ ⟨e₀, []⟩ := by
  refine ⟨wf, builtIns, [], e₀, ?_, wf, rfl, .refl _⟩
  rw [recent, fresh]
  rfl

private theorem exists_settled (wf : e₀.WellFormed) (builtIns : e₀.tape.OnlyBuiltIns)
    (fresh : e₀.numOrders = 0) {e : Evaluator B} (later : e₀.Later e) :
    ∃ s : Account B, s.evaluator = e ∧ s.Settled e₀ := by
  induction later with
  | refl => exact ⟨_, rfl, settled_of_fresh wf builtIns fresh⟩
  | forward q r seeds _ ih =>
    obtain ⟨s, rfl, settled⟩ := ih
    have next := settled.ask wf fresh q r seeds
    cases ran : Evaluator.forward q r seeds s.evaluator with
    | mk outcome e =>
      rw [ran] at next
      cases outcome with
      | error err => exact ⟨_, rfl, next⟩
      | ok _ => exact ⟨_, rfl, next⟩

private theorem Settled.cached (settled : s.Settled e₀) (wf : e₀.WellFormed) :
    s.evaluator.Cached s.recent := by
  obtain ⟨answers, e₁, done, wf₁, agree⟩ := settled.replay
  exact agree.cached settled.wellFormed wf₁ (by simp [recent])
    (Evaluator.forwardFrom_zero wf done).cached

end Account

/-- A recorded evaluator stays one through a run of calls. -/
theorem Evaluator.RecordedOfBuiltIns.forwardFrom {e e' : Evaluator B}
    (recorded : e.RecordedOfBuiltIns) {k : Nat} {rows answers : List (List (List B))}
    (done : Evaluator.forwardFrom k rows e = (.ok answers, e')) : e'.RecordedOfBuiltIns := by
  induction rows generalizing e k answers with
  | nil =>
    obtain ⟨_, rfl⟩ := Prod.mk.inj done
    exact recorded
  | cons seeds rows ih =>
    obtain ⟨ys, e₁, first, rest⟩ := run_bind_eq_ok.1 done
    obtain ⟨zs, e₂, later, last⟩ := run_bind_eq_ok.1 rest
    obtain ⟨_, rfl⟩ := Prod.mk.inj last
    have kept := recorded.forward k seeds.length seeds
    rw [first] at kept
    exact ih kept later

theorem Evaluator.RecordedOfBuiltIns.exists_cached [LawfulBase B] {e : Evaluator B}
    (recorded : e.RecordedOfBuiltIns) : ∃ rows, rows.length = e.numOrders ∧ e.Cached rows := by
  obtain ⟨registry, id, x, steps, outputs, f, faithful, foreign, own, frozen, later⟩ := recorded
  obtain ⟨_, _, _, _, _, freezes, _, rest⟩ := Program.freeze_spec faithful.numbered foreign frozen
  obtain ⟨s, rfl, settled⟩ := Account.exists_settled freezes.wellFormed
    (freezes.builtIns (rest faithful own).1) freezes.fresh later
  exact ⟨s.recent, by simp [Account.recent], settled.cached freezes.wellFormed⟩

/-- What is cached along the first direction are the coefficients for some seeds. -/
theorem Evaluator.RecordedOfBuiltIns.exists_seeds [LawfulBase B] {e : Evaluator B}
    (recorded : e.RecordedOfBuiltIns) :
    ∃ rows : List (List B), rows.length = e.numOrders ∧ (∀ x ∈ rows, x.length = e.numInputs) ∧
      ∀ k < rows.length, ∀ i < e.tape.size,
        e.tape.Holds k ((rows[k]?).getD []) (e.table.along 0) i := by
  obtain ⟨rows, count, cached⟩ := recorded.exists_cached
  have first : 0 < e.numDirections := recorded.recorded.wellFormed.table.directions
  refine ⟨(List.range e.numOrders).map fun k => Evaluator.seedAt rows k 0, by simp, ?_, ?_⟩
  · intro seed member
    obtain ⟨k, among, rfl⟩ := List.mem_map.1 member
    exact cached.lengths k (count ▸ List.mem_range.1 among) 0 first
  · intro k below i inside
    rw [List.length_map, List.length_range] at below
    rw [List.getElem?_map, List.getElem?_range below]
    exact cached.holds k (count ▸ below) 0 first i inside

namespace Program

/-- After any requests a frozen program answers the next call, for an order or for partials, just as
a fresh copy does to which only the seeds last accepted for the valid orders have been given. -/
theorem history_forgotten [LawfulBase B] {registry : Registry B} {id : Nat} {x : List B}
    {steps : List (Step B)} {outputs : List Nat} {f : Frozen B} (faithful : registry.Faithful)
    (foreign : ∀ s ∈ steps, s.Foreign id) (own : ∀ s ∈ steps, s.CallsBuiltIns)
    (frozen : freeze registry id x steps outputs = .ok f) (requests : List (Request B)) :
    let e := requests.foldl (fun e request => request.after e) f.evaluator
    let account := requests.foldl Account.serve ⟨f.evaluator, []⟩
    account.evaluator = e ∧ ∃ answers e₁,
      Evaluator.forwardFrom 0 account.recent f.evaluator = (.ok answers, e₁) ∧
      e₁.numOrders = e.numOrders ∧
      (∀ q r seeds, (Evaluator.forward q r seeds e).1 = (Evaluator.forward q r seeds e₁).1) ∧
      ∀ q weights, e.reverse q weights = e₁.reverse q weights := by
  obtain ⟨final, tape, ys, _, _, freezes, _, rest⟩ :=
    freeze_spec faithful.numbered foreign frozen
  have builtIns := freezes.builtIns (rest faithful own).1
  have start := Account.settled_of_fresh freezes.wellFormed builtIns freezes.fresh
  have settled := start.serve freezes.wellFormed freezes.fresh requests
  have same : (requests.foldl Account.serve ⟨f.evaluator, []⟩).evaluator =
      requests.foldl (fun e request => request.after e) f.evaluator :=
    (List.foldl_hom Account.evaluator fun s request => (s.serve_evaluator request).symm).symm
  obtain ⟨answers, e₁, done, wf₁, agree⟩ := settled.replay
  have wf := settled.wellFormed
  have only := settled.builtIns
  rw [same] at wf only agree
  exact ⟨same, answers, e₁, done, agree.numOrders, agree.forward wf wf₁ only,
    agree.reverseWith wf wf₁ Base.isAllZero⟩

/-- The sine of a product, asked for at two points, along two directions and at an order that is not
there yet. -/
theorem history_forgotten_sin : ∃ f : Frozen (Value Float),
    freeze Registry.builtins 7 [.array [1, 2], .scalar 3]
      [.binary .mul 0 1, .unary .sin 2] [3] = .ok f ∧
    let requests := [.forwardZero [.array [4, 5], .scalar 2],
      .forward 1 2 [[.scalar 1, .scalar 0], [.scalar 0, .scalar 1]], .forward 3 1 [],
      .gradient [.array [1, 2, 3], .scalar 1]]
    let e := requests.foldl (fun e request => request.after e) f.evaluator
    let account := requests.foldl Account.serve ⟨f.evaluator, []⟩
    account.evaluator = e ∧ ∃ answers e₁,
      Evaluator.forwardFrom 0 account.recent f.evaluator = (.ok answers, e₁) ∧
      e₁.numOrders = e.numOrders ∧
      (∀ q r seeds, (Evaluator.forward q r seeds e).1 = (Evaluator.forward q r seeds e₁).1) ∧
      ∀ q weights, e.reverse q weights = e₁.reverse q weights := by
  obtain ⟨f, frozen⟩ : ∃ f : Frozen (Value Float), freeze Registry.builtins 7
      [.array [1, 2], .scalar 3] [.binary .mul 0 1, .unary .sin 2] [3] = .ok f := ⟨_, rfl⟩
  exact ⟨f, frozen, history_forgotten Registry.builtins_faithful (by simp [Step.Foreign])
    (by simp [Step.CallsBuiltIns]) frozen _⟩

end Program

end TaylorTape
