import TaylorTape.Proofs.Exchange
import TaylorTape.Proofs.Replaced

/-!
Nothing that can be asked of a function tells whether its operations are calls.

A program and one in which operations have become calls of atomics that compute them write down the
same values in the same places, or fail with the same error.  They are frozen alike, and the two
evaluators answer alike whatever is asked of them, in any order.  Only the errors of an operation and
of a call differ, in that each gives its own name.
-/

set_option autoImplicit false
set_option relaxedAutoImplicit false

namespace TaylorTape

variable {B F : Type} [Scalar F] [Base B F]

/-- Two evaluators with the same values in the same places that answer alike, whatever calls for
orders have come before. -/
structure Evaluator.Interchangeable (e e' : Evaluator B) : Prop where
  size : e'.tape.size = e.tape.size
  values : ∀ i, e'.tape.value i = e.tape.value i
  forward : ∀ asks q r seeds, Alike SameCause (· = ·)
    (Evaluator.forward q r seeds (e.afterAll asks)).1
    (Evaluator.forward q r seeds (e'.afterAll asks)).1
  reverse : ∀ asks q weights, Alike SameCause (· = ·) ((e.afterAll asks).reverse q weights)
    ((e'.afterAll asks).reverse q weights)
  forwardSparsity : ∃ p, e.forwardSparsity = .ok p ∧ e'.forwardSparsity = .ok p
  reverseSparsity : ∃ p, e.reverseSparsity = .ok p ∧ e'.reverseSparsity = .ok p

private theorem Evaluator.Twin.interchangeable {e e' : Evaluator B} (twin : e.Twin e')
    (wf : e.WellFormed) : e.Interchangeable e' where
  size := twin.tape.size_eq
  values := twin.tape.value_eq
  forward asks q r seeds := by
    obtain ⟨twin', wf'⟩ := twin.afterAll wf asks
    exact (twin'.forward wf' q r seeds).1
  reverse asks q weights := by
    obtain ⟨twin', wf'⟩ := twin.afterAll wf asks
    exact twin'.reverse wf' q weights
  forwardSparsity := twin.forwardSparsity wf
  reverseSparsity := twin.reverseSparsity wf

/-- Two recordings of equally many entries with the same values in the same places. -/
def Recorder.SameValues (r r' : Recorder B) : Prop :=
  ∃ tape tape', r.tape = some tape ∧ r'.tape = some tape' ∧ tape'.size = tape.size ∧
    ∀ i, tape'.value i = tape.value i

private theorem Recorder.Twin.sameValues {known : Registry B} {r r' : Recorder B}
    (twin : r.Twin known r') :
    r.SameValues r' := by
  obtain ⟨tape, tape', here, here', twins, _⟩ := twin.tapes
  exact ⟨tape, tape', here, here', twins.size_eq, twins.value_eq⟩

namespace Program

variable {registry : Registry B} {steps steps' : List (Step B)}

private theorem twin_start (numbered : registry.Numbered) (id : Nat) (x : List B) :
    Recorder.Twin registry ⟨some (.ofInputs id x), registry⟩ ⟨some (.ofInputs id x), registry⟩ := by
  have start := consistent_ofInputs id x numbered
  have known : ∀ i place args n, (Tape.ofInputs id x).entry i = .ok (.call place args n) →
      ∃ r, (Tape.ofInputs id x).atomics[place]? = some r := fun i place args n found =>
    (start.wellFormed.atomics i place args n found).imp fun _ => And.left
  exact ⟨rfl, numbered, .refl registry, _, _, rfl, rfl, .refl _ known, start.table, start.table⟩

private theorem twin_freeze (numbered : registry.Numbered)
    (replaced : List.Forall₂ (Step.Replaced registry) steps steps') (id : Nat) (x : List B)
    (outputs : List Nat) : Alike (· = ·)
      (fun f f' => f'.values = f.values ∧ f.evaluator.Twin f'.evaluator)
      (freeze registry id x steps outputs) (freeze registry id x steps' outputs) := by
  have both := paired_record replaced (inputs id x) _ _ (twin_start numbered id x)
  unfold freeze
  cases ran : record steps (inputs id x) ⟨some (.ofInputs id x), registry⟩ with
  | mk outcome r =>
    cases ran' : record steps' (inputs id x) ⟨some (.ofInputs id x), registry⟩ with
    | mk outcome' r' =>
      rw [ran, ran'] at both
      obtain ⟨alike, twin⟩ := both
      obtain ⟨_, registry₁⟩ := r
      obtain ⟨_, registry₁'⟩ := r'
      obtain ⟨tape, tape', rfl, rfl, twins, _⟩ := twin.tapes
      cases alike with
      | error same => exact .error same
      | @ok p p' same =>
        obtain ⟨_, resolved⟩ := p
        obtain ⟨final, resolved'⟩ := p'
        obtain rfl := same
        refine (Alike.refl (Step.gather final outputs)).bind fun ys _ same => ?_
        obtain rfl := same
        exact (twins.freeze ys).bind fun e e' twin => .ok ⟨rfl, twin⟩

/-- Operations of a program may be replaced by calls of atomics that compute them.  Both programs give
the same values or fail with the same error, write the same values in the same places, and freeze to
interchangeable evaluators. -/
theorem replaced_interchangeable [LawfulBase B] (numbered : registry.Numbered)
    (replaced : List.Forall₂ (Step.Replaced registry) steps steps') (id : Nat) (x : List B)
    (foreign : ∀ s ∈ steps, s.Foreign id) :
    let run := record steps (inputs id x) ⟨some (.ofInputs id x), registry⟩
    let run' := record steps' (inputs id x) ⟨some (.ofInputs id x), registry⟩
    Alike (· = ·) (fun p p' => p'.1 = p.1) run.1 run'.1 ∧ run.2.SameValues run'.2 ∧
      ∀ outputs, Alike (· = ·)
        (fun f f' => f'.values = f.values ∧ f.evaluator.Interchangeable f'.evaluator)
        (freeze registry id x steps outputs) (freeze registry id x steps' outputs) := by
  have both := paired_record replaced (inputs id x) _ _ (twin_start numbered id x)
  refine ⟨both.1, both.2.sameValues, fun outputs => ?_⟩
  refine (twin_freeze numbered replaced id x outputs).known.mono fun f f' frozen => ?_
  obtain ⟨done, values, twin⟩ := frozen
  obtain ⟨_, _, _, _, _, freezes, _⟩ := freeze_spec numbered foreign done
  exact ⟨values, twin.interchangeable freezes.wellFormed⟩

/-- The first of two products is a call of an atomic that has been registered under the name times. -/
theorem replaced_interchangeable_mul :
    let registry : Registry (Value Float) :=
      (Registry.builtins.append "times" (Operation.binary .mul).atomic).2
    let x : List (Value Float) := [.array [1, 2], .scalar 3]
    ∃ f f', freeze registry 7 x [.binary .mul 0 1, .unary .sin 2, .binary .mul 2 3] [4] = .ok f ∧
      freeze registry 7 x [.call 4 [0, 1], .unary .sin 2, .binary .mul 2 3] [4] = .ok f' ∧
      f'.evaluator.tape.entry 2 = .ok (.call 0 [0, 1] 1) ∧ f'.values = f.values ∧
      f.evaluator.Interchangeable f'.evaluator := by
  intro registry x
  have numbered : registry.Numbered := Registry.builtins_faithful.numbered.append _ _
  have replaced : List.Forall₂ (Step.Replaced registry)
      [.binary .mul 0 1, .unary .sin 2, .binary .mul 2 3]
      [.call 4 [0, 1], .unary .sin 2, .binary .mul 2 3] :=
    .cons (.call rfl rfl (Operation.atomic_computes (.binary .mul)))
      (.cons (.same _) (.cons (.same _) .nil))
  obtain ⟨_, _, frozen⟩ := replaced_interchangeable numbered replaced 7 x (by simp [Step.Foreign])
  have both := frozen [4]
  have called : (fun f => f.evaluator.tape.entry 2) <$>
      freeze registry 7 x [.call 4 [0, 1], .unary .sin 2, .binary .mul 2 3] [4] =
        .ok (.ok (.call 0 [0, 1] 1)) := by
    decide +kernel
  obtain ⟨f', done', entry⟩ := map_eq_ok.1 called
  rw [done'] at both
  cases done : freeze registry 7 x [.binary .mul 0 1, .unary .sin 2, .binary .mul 2 3] [4] with
  | error err =>
    rw [done] at both
    cases both
  | ok f =>
    rw [done] at both
    cases both with
    | ok same => exact ⟨f, f', rfl, done', entry, same⟩

end Program

end TaylorTape
