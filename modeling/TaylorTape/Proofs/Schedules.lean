import TaylorTape.Proofs.History
import TaylorTape.Evaluator.Batch

/-!
A batch has the same outcome however its points are shared out.

A Jacobian begins with a call for order zero, which makes all that its evaluator has computed before
invalid, and reads no order that it has not asked for itself.  So a copy that has served other points,
whether they succeeded or failed, answers like any other copy.  The workers take their points in any
order; what may come out of them is just what the points give one by one.
-/

set_option autoImplicit false
set_option relaxedAutoImplicit false

namespace TaylorTape

variable {B F : Type} [Scalar F] [Base B F]

namespace Evaluator

variable {α β : Type} {n m k : Nat} {e e' e₀ : Evaluator B}

/-- Two evaluators of a tape of built-ins, which agree below an order. -/
structure SettledBelow (n : Nat) (e e' : Evaluator B) : Prop where
  wellFormed : e.WellFormed
  wellFormed' : e'.WellFormed
  builtIns : e.tape.OnlyBuiltIns
  agree : AgreeBelow n e e'

namespace SettledBelow

private theorem numInputs (both : SettledBelow n e e') : e'.numInputs = e.numInputs :=
  congrArg Tape.numInputs both.agree.tape

private theorem numOutputs (both : SettledBelow n e e') : e'.numOutputs = e.numOutputs :=
  congrArg List.length both.agree.outputs

theorem mono (both : SettledBelow n e e') (less : m ≤ n) : SettledBelow m e e' :=
  ⟨both.wellFormed, both.wellFormed', both.builtIns, both.agree.mono less⟩

private theorem of_later (wf : e.WellFormed) (builtIns : e.tape.OnlyBuiltIns) (later : e.Later e') :
    SettledBelow 0 e e' := by
  obtain ⟨wf', tape, outputs⟩ := later.kept wf
  exact ⟨wf, wf', builtIns, tape, outputs, Nat.zero_le _, Nat.zero_le _, by simp,
    fun _ _ k low => absurd low k.not_lt_zero⟩

private theorem reverse_eq (both : SettledBelow n e e') {q : Nat} (low : q ≤ n)
    (weights : List (List B)) :
    e.reverse q weights = e'.reverse q weights :=
  both.agree.reverse_eq both.wellFormed both.wellFormed' low weights

end SettledBelow

/-- On evaluators that agree below order `n` the computation has the same outcome, and where it
succeeds they agree below order `m`. -/
def Settles (n m : Nat) (work : Evaluation B α) : Prop :=
  ∀ e e', SettledBelow n e e' →
    (work e).1 = (work e').1 ∧ ∀ a, (work e).1 = .ok a → SettledBelow m (work e).2 (work e').2

namespace Settles

private theorem bind {work : Evaluation B α} {f : α → Evaluation B β} (first : Settles n m work)
    (next : ∀ a, Settles m k (f a)) : Settles n k (work >>= f) := by
  intro e e' both
  obtain ⟨same, settled⟩ := first e e' both
  rw [run_bind, run_bind]
  rcases ran : work e with ⟨outcome, t⟩
  rcases ran' : work e' with ⟨outcome', t'⟩
  rw [ran, ran'] at same settled
  obtain rfl : outcome = outcome' := same
  cases outcome with
  | error err => exact ⟨rfl, nofun⟩
  | ok a => exact next a t t' (settled a rfl)

private theorem lift (x : Except Error α) : Settles n n (liftM x : Evaluation B α) := by
  intro e e' both
  rw [run_lift, run_lift]
  exact ⟨rfl, fun _ _ => both⟩

private theorem get_bind {f : Evaluator B → Evaluation B α}
    (same : ∀ e e', SettledBelow n e e' → f e' = f e)
    (each : ∀ e, Settles n m (f e)) : Settles n m (get >>= f) := by
  intro e e' both
  rw [run_bind_ok (run_get e), run_bind_ok (run_get e'), same e e' both]
  exact each e e e' both

theorem mono {work : Evaluation B α} (settles : Settles n m work) (less : k ≤ m) :
    Settles n k work := fun e e' both =>
  ⟨(settles e e' both).1, fun a done => ((settles e e' both).2 a done).mono less⟩

private theorem mapM {ι : Type} {f : ι → Evaluation B α} (each : ∀ x, Settles n n (f x))
    (xs : List ι) :
    Settles n n (xs.mapM f) := by
  induction xs with
  | nil => exact fun e e' both => ⟨rfl, fun _ _ => both⟩
  | cons x xs ih =>
    rw [List.mapM_cons]
    exact (each x).bind fun y => ih.bind fun ys => fun e e' both => ⟨rfl, fun _ _ => both⟩

end Settles

private theorem settles_forward {q : Nat} (low : q ≤ n) (r : Nat) (seeds : List (List B)) :
    Settles n (q + 1) (forward q r seeds : Evaluation B _) := by
  intro e e' both
  have check := both.agree.checkForward_eq low r seeds
  cases checked : e.checkForward q r seeds with
  | error err =>
    rw [forward_of_refused checked, forward_of_refused (check.trans checked)]
    exact ⟨rfl, nofun⟩
  | ok _ =>
    obtain ⟨same, settled⟩ := (both.agree.mono low).forward both.wellFormed both.wellFormed'
      both.builtIns (checkForward_eq_ok.1 checked) (checkForward_eq_ok.1 (check.trans checked))
    obtain ⟨wf, tape, _⟩ := forward_kept both.wellFormed q r seeds
    obtain ⟨wf', _, _⟩ := forward_kept both.wellFormed' q r seeds
    exact ⟨same, fun ys done => ⟨wf, wf', tape ▸ both.builtIns, settled ys done⟩⟩

private theorem settles_forwardZero (x : List B) : Settles n 1 (forwardZero x) :=
  (settles_forward n.zero_le 1 [x]).bind fun ys => .lift (pick ys 0)

private theorem settles_forwardOne (dx : List B) : Settles 1 1 (forwardOne dx) :=
  ((settles_forward le_rfl 1 [dx]).mono one_le_two).bind fun ys => .lift (pick ys 0)

private theorem SettledBelow.reverseRows_eq (both : SettledBelow 1 e e') :
    e'.reverseRows = e.reverseRows := by
  unfold reverseRows
  simp only [both.numOutputs, both.reverse_eq le_rfl]

private theorem settles_jacobianForward (x : List B) : Settles n 1 (jacobianForward x) := by
  refine .get_bind (fun e e' both => ?_) fun e => ?_
  · rw [both.numInputs, both.numOutputs]
  · exact (settles_forwardZero x).bind fun _ =>
      (Settles.mapM (fun j => settles_forwardOne (unit e.numInputs j)) _).bind fun columns =>
        .lift (rowsOfColumns e.numOutputs columns)

private theorem settles_jacobianReverse (x : List B) : Settles n 1 (jacobianReverse x) :=
  (settles_forwardZero x).bind fun _ =>
    .get_bind (fun _ _ both => congrArg liftM both.reverseRows_eq) fun e => .lift e.reverseRows

private theorem settles_jacobian (x : List B) : Settles n 1 (jacobian x) := by
  refine .get_bind (fun e e' both => ?_) fun e => ?_
  · rw [both.numInputs, both.numOutputs]
  · split
    · exact settles_jacobianForward x
    · exact settles_jacobianReverse x

private theorem later_perform {asks : List (Ask B)} (later : e₀.Later e) :
    e₀.Later (perform asks e).2 := by
  induction asks generalizing e with
  | nil => exact later
  | cons a asks ih =>
    have next := later.forward a.order a.directions a.seeds
    rw [perform_cons]
    rcases ran : forward a.order a.directions a.seeds e with ⟨_ | _, e'⟩
    · rwa [ran] at next
    · exact ih (by rwa [ran] at next)

theorem later_after (request : Request B) (later : e₀.Later e) : e₀.Later (request.after e) := by
  rw [after_eq]
  exact later_perform later

/-- A task at a point that no earlier task disturbs, and that disturbs no later one. -/
structure Undisturbed (task : List B → Evaluation B α) : Prop where
  settles : ∀ x, Settles 0 0 (task x)
  later : ∀ (e₀ e : Evaluator B) x, e₀.Later e → e₀.Later (task x e).2

private theorem undisturbed_jacobian : Undisturbed (jacobian : List B → Evaluation B _) where
  settles x := (settles_jacobian x).mono (Nat.zero_le 1)
  later _ _ x := later_after (.jacobian x)

private theorem undisturbed_forwardZero : Undisturbed (forwardZero : List B → Evaluation B _) where
  settles x := (settles_forwardZero x).mono (Nat.zero_le 1)
  later _ _ x := later_after (.forwardZero x)

private theorem Undisturbed.work_eq {task : List B → Evaluation B α}
    (undisturbed : Undisturbed task)
    (wf : e₀.WellFormed) (builtIns : e₀.tape.OnlyBuiltIns) (later : e₀.Later e)
    (points : List (List B)) : e.work task points = points.map fun x => (task x e₀).1 := by
  induction points generalizing e with
  | nil => rfl
  | cons x points ih =>
    have same := (undisturbed.settles x e₀ e (.of_later wf builtIns later)).1
    rw [List.map_cons, same, ← ih (undisturbed.later e₀ e x later)]
    rfl

/-- The answers of some workers, each with the number of its point.  Every worker has a copy of the
evaluator and serves its points on it in the order in which it has them. -/
def workAll (e : Evaluator B) (task : List B → Evaluation B α)
    (workers : List (List (List B × Nat))) : List (Except Error α × Nat) :=
  workers.flatMap fun mine => (e.work task (mine.map Prod.fst)).zip (mine.map Prod.snd)

/-- What can be made of the answers at some numbered points: all of them in the order of the points,
or one of the errors.  A worker that stops when an error has come up has given fewer answers, and
no other error. -/
inductive Collects (count : Nat) (answers : List (Except Error α × Nat)) :
    Except Error (List α) → Prop where
  | all {ys : List α} (length : ys.length = count)
    (each : ∀ a i, (a, i) ∈ answers → ∃ y, ys[i]? = some y ∧ a = .ok y) :
    Collects count answers (.ok ys)
  | failed {err : Error} {i : Nat} (among : (.error err, i) ∈ answers) :
    Collects count answers (.error err)

/-- What the points give one by one, each on a fresh copy: all answers in the order of the points, or
the error of one of the points that fail. -/
def Serial (e : Evaluator B) (task : List B → Evaluation B α) (points : List (List B)) :
    Except Error (List α) → Prop
  | .ok ys => List.Forall₂ (fun x y => (task x e).1 = .ok y) points ys
  | .error err => ∃ x ∈ points, (task x e).1 = .error err

section Workers

variable {task : List B → Evaluation B α} {points : List (List B)}
  {workers : List (List (List B × Nat))} {outcome : Except Error (List α)}

private theorem Undisturbed.mem_workAll (undisturbed : Undisturbed task) (wf : e₀.WellFormed)
    (builtIns : e₀.tape.OnlyBuiltIns) (later : e₀.Later e)
    (shared : workers.flatten.Perm points.zipIdx) {a : Except Error α} {i : Nat} :
    (a, i) ∈ e.workAll task workers ↔ ∃ x, points[i]? = some x ∧ (task x e₀).1 = a := by
  have each : ∀ mine : List (List B × Nat),
      (e.work task (mine.map Prod.fst)).zip (mine.map Prod.snd) =
        mine.map fun p => ((task p.1 e₀).1, p.2) := by
    intro mine
    rw [undisturbed.work_eq wf builtIns later, List.map_map, List.zip_map']
    rfl
  have all : e.workAll task workers =
      workers.flatten.map fun p => ((task p.1 e₀).1, p.2) := by
    unfold workAll
    rw [funext each, List.map_flatten, List.flatMap_def]
  rw [all, List.mem_map]
  constructor
  · rintro ⟨⟨x, j⟩, member, same⟩
    obtain ⟨rfl, rfl⟩ := Prod.mk.inj same
    exact ⟨x, List.mk_mem_zipIdx_iff_getElem?.1 (shared.mem_iff.1 member), rfl⟩
  · rintro ⟨x, there, rfl⟩
    exact ⟨(x, i), shared.mem_iff.2 (List.mk_mem_zipIdx_iff_getElem?.2 there), rfl⟩

private theorem Undisturbed.collects_iff (undisturbed : Undisturbed task) (wf : e₀.WellFormed)
    (builtIns : e₀.tape.OnlyBuiltIns) (later : e₀.Later e)
    (shared : workers.flatten.Perm points.zipIdx) :
    Collects points.length (e.workAll task workers) outcome ↔ e₀.Serial task points outcome := by
  have answers : ∀ {a i}, (a, i) ∈ e.workAll task workers ↔ _ :=
    undisturbed.mem_workAll wf builtIns later shared
  cases outcome with
  | ok ys =>
    show _ ↔ List.Forall₂ _ points ys
    rw [List.forall₂_iff_get]
    constructor
    · rintro ⟨length, each⟩
      refine ⟨length.symm, fun i inside inside' => ?_⟩
      obtain ⟨y, there, done⟩ := each _ i (answers.2 ⟨_, List.getElem?_eq_getElem inside, rfl⟩)
      rw [List.getElem?_eq_getElem inside'] at there
      rw [List.get_eq_getElem, List.get_eq_getElem, done, Option.some.inj there]
    · rintro ⟨length, each⟩
      refine .all length.symm fun a i member => ?_
      obtain ⟨x, there, rfl⟩ := answers.1 member
      obtain ⟨inside, rfl⟩ := List.getElem?_eq_some_iff.1 there
      exact ⟨_, List.getElem?_eq_getElem (length ▸ inside), each i inside (length ▸ inside)⟩
  | error err =>
    constructor
    · rintro (_ | ⟨among⟩)
      obtain ⟨x, there, failed⟩ := answers.1 among
      exact ⟨x, List.mem_of_getElem? there, failed⟩
    · rintro ⟨x, member, failed⟩
      obtain ⟨i, there⟩ := List.getElem?_of_mem member
      exact .failed (answers.2 ⟨x, there, failed⟩)

private theorem Undisturbed.serial_eq (undisturbed : Undisturbed task) (wf : e₀.WellFormed)
    (builtIns : e₀.tape.OnlyBuiltIns) (later : e₀.Later e) :
    e.Serial task points = e₀.Serial task points := by
  have same : ∀ x, (task x e₀).1 = (task x e).1 := fun x =>
    (undisturbed.settles x e₀ e (.of_later wf builtIns later)).1
  funext outcome
  cases outcome <;> simp only [Serial, same]

private theorem Undisturbed.serial_batch (undisturbed : Undisturbed task) (wf : e₀.WellFormed)
    (builtIns : e₀.tape.OnlyBuiltIns) (later : e₀.Later e) (points : List (List B)) :
    e₀.Serial task points (e.batch task points) := by
  unfold batch
  rw [undisturbed.work_eq wf builtIns later, List.mapM_map]
  cases collected : points.mapM (id ∘ fun x => (task x e₀).1) with
  | ok ys => exact mapM_eq_ok.1 collected
  | error err => exact exists_of_mapM_error collected

end Workers

/-- However the points of a batch are shared out among workers, what may come out is what the points
give one by one on fresh copies, in their order, or the error of a point that fails there.  It does not
matter what the evaluator has served before, nor what the copies that it is compared with have served;
one worker that takes the points in their order is one of the ways. -/
theorem batch_any_schedule [LawfulBase B] (recorded : e₀.RecordedOfBuiltIns) (later : e₀.Later e)
    {copy : Evaluator B} (fresh : e₀.Later copy) (points : List (List B))
    {workers : List (List (List B × Nat))} (shared : workers.flatten.Perm points.zipIdx) :
    (∀ outcome, Collects points.length (e.workAll jacobian workers) outcome ↔
      copy.Serial jacobian points outcome) ∧
    (∀ outcome, Collects points.length (e.workAll forwardZero workers) outcome ↔
      copy.Serial forwardZero points outcome) ∧
    copy.Serial jacobian points (e.jacobianBatch points) ∧
    copy.Serial forwardZero points (e.forwardZeroBatch points) := by
  have wf := recorded.recorded.wellFormed
  have builtIns := recorded.onlyBuiltIns
  rw [undisturbed_jacobian.serial_eq wf builtIns fresh,
    undisturbed_forwardZero.serial_eq wf builtIns fresh]
  exact ⟨fun _ => undisturbed_jacobian.collects_iff wf builtIns later shared,
    fun _ => undisturbed_forwardZero.collects_iff wf builtIns later shared,
    undisturbed_jacobian.serial_batch wf builtIns later points,
    undisturbed_forwardZero.serial_batch wf builtIns later points⟩

/-- The sine of a product at three points, one of them too short, after a call for order zero: one
worker takes the last two in reverse, another the first. -/
theorem batch_any_schedule_sin : ∃ f : Program.Frozen (Value Float),
    Program.freeze Registry.builtins 7 [.array [1, 2], .scalar 3]
      [.binary .mul 0 1, .unary .sin 2] [3] = .ok f ∧
    let e := (Request.forwardZero [.scalar 1, .scalar 2]).after f.evaluator
    let points := [[.scalar 1, .scalar 2], [.scalar 3], [.array [4, 5], .scalar 2]]
    let workers := [[([.array [4, 5], .scalar 2], 2), ([.scalar 3], 1)],
      [([.scalar 1, .scalar 2], 0)]]
    (∀ outcome, Collects points.length (e.workAll jacobian workers) outcome ↔
      f.evaluator.Serial jacobian points outcome) ∧
    (∀ outcome, Collects points.length (e.workAll forwardZero workers) outcome ↔
      f.evaluator.Serial forwardZero points outcome) ∧
    f.evaluator.Serial jacobian points (e.jacobianBatch points) ∧
    f.evaluator.Serial forwardZero points (e.forwardZeroBatch points) := by
  obtain ⟨f, frozen⟩ : ∃ f : Program.Frozen (Value Float), Program.freeze Registry.builtins 7
      [.array [1, 2], .scalar 3] [.binary .mul 0 1, .unary .sin 2] [3] = .ok f := ⟨_, rfl⟩
  have recorded : f.evaluator.RecordedOfBuiltIns :=
    ⟨_, _, _, _, _, f, Registry.builtins_faithful, by simp [Step.Foreign],
      by simp [Step.CallsBuiltIns], frozen, .refl⟩
  have shared : ∀ p₀ p₁ p₂ : List (Value Float) × Nat,
      [[p₂, p₁], [p₀]].flatten.Perm [p₀, p₁, p₂] := fun _ _ _ => List.reverse_perm [_, _, _]
  exact ⟨f, frozen, batch_any_schedule recorded (later_after _ .refl) .refl _ (shared _ _ _)⟩

end Evaluator

end TaylorTape
