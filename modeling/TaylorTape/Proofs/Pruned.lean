import TaylorTape.Proofs.History
import TaylorTape.Proofs.Needed
import TaylorTape.Proofs.Reals
import TaylorTape.Proofs.Reflection
import TaylorTape.Proofs.Sparsity
import TaylorTape.Proofs.Zeros

/-!
Nothing that can be asked of a function tells whether its tape has been pruned.

The entries that pruning leaves are embedded into the tape.  So from the start the table of the
pruned tape mirrors that of the whole one, and the calls for orders that succeed on the whole tape
keep it so.  A call that fails on the whole tape may succeed on the pruned one, because the entry at
which it failed may be gone; with built-ins only, the pruned tape is then ahead, but still has what
the whole one has.
-/

set_option autoImplicit false
set_option relaxedAutoImplicit false

namespace TaylorTape

variable {B F : Type} [Scalar F] [Base B F]

namespace Evaluator

/-- Calls for orders made one after another, with their answers. -/
def askAll (asks : List (Ask B)) : Evaluation B (List (List (List B))) :=
  asks.mapM fun a => forward a.order a.directions a.seeds

/-- The evaluator that calls for orders leave, whatever their outcomes. -/
def afterAll (e : Evaluator B) (asks : List (Ask B)) : Evaluator B :=
  asks.foldl (fun e a => (forward a.order a.directions a.seeds e).2) e

/-- The first evaluator answers whatever the second one answers, and in the same way. -/
structure Simulates (e' e : Evaluator B) : Prop where
  /-- Calls that succeed have the same answers, and the partials are the same afterwards. -/
  calls : ∀ asks ys t, askAll asks e = (.ok ys, t) → ∃ t', askAll asks e' = (.ok ys, t') ∧
    ∀ q weights px, t.reverse q weights = .ok px ↔ t'.reverse q weights = .ok px
  /-- With built-ins only, this is so whichever calls have failed before. -/
  anyCalls : e.tape.OnlyBuiltIns → ∀ asks,
    (∀ q r seeds ys, (forward q r seeds (e.afterAll asks)).1 = .ok ys →
      (forward q r seeds (e'.afterAll asks)).1 = .ok ys) ∧
    ∀ q ≤ (e.afterAll asks).numOrders, ∀ weights px,
      (e.afterAll asks).reverse q weights = .ok px ↔ (e'.afterAll asks).reverse q weights = .ok px
  forwardSparsity : ∃ p, e.forwardSparsity = .ok p ∧ e'.forwardSparsity = .ok p
  reverseSparsity : ∃ p, e.reverseSparsity = .ok p ∧ e'.reverseSparsity = .ok p

variable {e e' : Evaluator B} {g : Nat → Nat}

private theorem Mirrors.askAll (mirrors : e'.Mirrors e g) {asks : List (Ask B)}
    {ys : List (List (List B))} {t : Evaluator B} (done : Evaluator.askAll asks e = (.ok ys, t)) :
    ∃ t', Evaluator.askAll asks e' = (.ok ys, t') ∧ t'.Mirrors t g := by
  induction asks generalizing e e' ys with
  | nil =>
    obtain ⟨same, rfl⟩ := Prod.mk.inj done
    exact ⟨e', Prod.ext same rfl, mirrors⟩
  | cons a asks ih =>
    unfold Evaluator.askAll at done ih ⊢
    rw [List.mapM_cons] at done ⊢
    obtain ⟨zs, u, first, done⟩ := run_bind_eq_ok.1 done
    obtain ⟨rest, v, later, last⟩ := run_bind_eq_ok.1 done
    obtain ⟨u', first', mirrors'⟩ := mirrors.forward first
    obtain ⟨same, rfl⟩ := Prod.mk.inj last
    obtain ⟨v', later', mirrors''⟩ := ih mirrors' later
    refine ⟨v', ?_, mirrors''⟩
    rw [run_bind_ok first', run_bind_ok later']
    exact Prod.ext same rfl

private theorem Reflects.afterAll (reflects : e'.Reflects e.numOrders e g)
    (builtIns : e.tape.OnlyBuiltIns) (asks : List (Ask B)) :
    (e'.afterAll asks).Reflects (e.afterAll asks).numOrders (e.afterAll asks) g ∧
      (e.afterAll asks).tape.OnlyBuiltIns := by
  induction asks generalizing e e' with
  | nil => exact ⟨reflects, builtIns⟩
  | cons a asks ih =>
    have kept := forward_kept reflects.wellFormed a.order a.directions a.seeds
    exact ih (reflects.forward builtIns a.seeds).1 (kept.2.1.symm ▸ builtIns)

private theorem Mirrors.simulates [LawfulZero B] (mirrors : e'.Mirrors e g) : e'.Simulates e where
  calls asks ys t done := by
    obtain ⟨t', done', mirrors'⟩ := mirrors.askAll done
    refine ⟨t', done', fun q weights px => ?_⟩
    by_cases low : q ≤ t.numOrders
    · exact (mirrors'.reflects.reverseWith_concur low LawfulZero.zero weights).ok_iff
    · have orders : t'.numOrders = t.numOrders := mirrors'.table.orders
      exact iff_of_false (fun done => low (acceptsReverse_of_ok done).orders)
        fun done => low (orders ▸ (acceptsReverse_of_ok done).orders)
  anyCalls builtIns asks := by
    obtain ⟨reflects, builtIns'⟩ := mirrors.reflects.afterAll builtIns asks
    exact ⟨fun q r seeds => (reflects.forward builtIns' seeds).2, fun q low weights px =>
      (reflects.reverseWith_concur low LawfulZero.zero weights).ok_iff⟩
  forwardSparsity := mirrors.forwardSparsity_concur.exists_same
  reverseSparsity := mirrors.reverseSparsity_concur.exists_same

private theorem mirrors_of_prunes {tape : Tape B} {outputs places : List Nat}
    {pruned : Tape.Pruned B} (wf : tape.WellFormed) (inside : ∀ y ∈ outputs, y < tape.size)
    (prunes : tape.Prunes outputs pruned places) :
    (ofTape pruned.tape pruned.outputs).Mirrors (ofTape tape outputs) (places.getD · 0) where
  wellFormed := ⟨wf, inside, Coefficients.empty_wellFormed _, rfl⟩
  wellFormed' := ⟨prunes.embeds.wellFormed wf, prunes.inside, Coefficients.empty_wellFormed _, rfl⟩
  tape := prunes.embeds
  outputs := prunes.outputs
  table := {
    wellFormed := Coefficients.empty_wellFormed _
    wellFormed' := Coefficients.empty_wellFormed _
    inside := fun _ below => prunes.embeds.inside below
    capacity := rfl
    orders := rfl
    directions := rfl
    values := fun v k d _ =>
      (Coefficients.value_empty _ v k d).trans (Coefficients.value_empty _ _ k d).symm }

end Evaluator

namespace Program

/-- Pruning a recorded tape leaves the inputs and what the outputs need, in their order.  What it
leaves is well-formed, and cannot be pruned further; it is what freezing makes a function of, and that
function simulates the one of the whole tape. -/
theorem prune_preserves [LawfulBase B] [LawfulZero B] {registry registry' : Registry B} {id : Nat}
    {x : List B} {steps resolved : List (Step B)} {final ys : List (Tracked B)} {tape full : Tape B}
    {outputs : List Nat} (numbered : registry.Numbered) (foreign : ∀ s ∈ steps, s.Foreign id)
    (recorded : record steps (inputs id x) ⟨some (.ofInputs id x), registry⟩ =
      (.ok (final, resolved), ⟨some tape, registry'⟩))
    (own : ∀ y ∈ ys, y ∈ final) (placed : tape.outputs ys = .ok (full, outputs)) :
    ∃ pruned places, full.prune outputs = .ok pruned ∧ full.Prunes outputs pruned places ∧
      pruned.tape.WellFormed ∧
      pruned.tape.prune pruned.outputs = .ok ⟨pruned.tape, pruned.outputs, 0⟩ ∧
      tape.freeze ys = .ok (.ofTape pruned.tape pruned.outputs) ∧
      (Evaluator.ofTape pruned.tape pruned.outputs).Simulates (.ofTape full outputs) := by
  obtain ⟨next, advances, _⟩ := record_advances foreign
    (consistent_ofInputs id x numbered) (knows_inputs id x) recorded
  obtain rfl := Option.some.inj advances.recording
  obtain ⟨js, next, embedded, grown, standing, _⟩ :=
    Tape.embedAll_grown advances.consistent.wellFormed fun y member =>
      advances.knows y (own y member)
  obtain ⟨rfl, rfl⟩ := Prod.mk.inj ((Tape.embedAll_of_outputs placed).symm.trans embedded)
  have wf := grown.wellFormed
  have inside : ∀ y ∈ outputs, y < full.size := by
    intro y member
    obtain ⟨_, _, e, there⟩ := exists_of_mem_forall₂ standing.flip member
    exact Tape.lt_size_of_entry (Tape.entry_of_node there)
  obtain ⟨pruned, places, done, prunes⟩ := Tape.exists_prune wf inside
  refine ⟨pruned, places, done, prunes, prunes.embeds.wellFormed wf, prunes.prune_again wf, ?_,
    (Evaluator.mirrors_of_prunes wf inside prunes).simulates⟩
  exact bind_eq_ok.2 ⟨_, placed, bind_eq_ok.2 ⟨_, done, rfl⟩⟩

/-- A product and a parameter are the outputs of a recording, in which a sine was taken that nothing
reads. -/
theorem prune_preserves_unused_sin :
    let full : Tape (Value ℝ) := {
      id := 7
      nodes := #[⟨.input, .array [1, 2]⟩, ⟨.input, .scalar 3⟩, ⟨.unary .sin 1, .scalar (Real.sin 3)⟩,
        ⟨.binary .mul 0 1, .array [1 * 3, 2 * 3]⟩, ⟨.const, .scalar 5⟩]
      numInputs := 2
      atomics := #[] }
    ∃ pruned, full.prune [3, 4] = .ok pruned ∧ pruned.outputs = [2, 3] ∧ pruned.removed = 1 ∧
      (Evaluator.ofTape pruned.tape pruned.outputs).Simulates (.ofTape full [3, 4]) := by
  intro full
  let tape : Tape (Value ℝ) := { full with nodes := full.nodes.pop }
  let small : Tape (Value ℝ) := {
    full with nodes := #[⟨.input, .array [1, 2]⟩, ⟨.input, .scalar 3⟩,
      ⟨.binary .mul 0 1, .array [1 * 3, 2 * 3]⟩, ⟨.const, .scalar 5⟩] }
  let product : Tracked (Value ℝ) := ⟨.array [1 * 3, 2 * 3], .onTape 7 3⟩
  let steps : List (Step (Value ℝ)) :=
    [.unary .sin 1, .binary .mul 0 1, .bring (.parameter (.scalar 5))]
  have recorded : record steps (inputs 7 [.array [1, 2], .scalar 3])
      ⟨some (.ofInputs 7 [.array [1, 2], .scalar 3]), Registry.builtins⟩ =
        (.ok ([⟨.array [1, 2], .onTape 7 0⟩, ⟨.scalar 3, .onTape 7 1⟩,
            ⟨.scalar (Real.sin 3), .onTape 7 2⟩, product, .parameter (.scalar 5)], steps),
          ⟨some tape, Registry.builtins⟩) := rfl
  have placed : tape.outputs [product, .parameter (.scalar 5)] = .ok (full, [3, 4]) := rfl
  obtain ⟨pruned, places, done, _, _, _, _, simulates⟩ := prune_preserves
    Registry.builtins_faithful.numbered (by simp [steps, Step.Foreign, Tracked.indexOn,
      Tracked.parameter]) recorded (by simp) placed
  have known : full.prune [3, 4] = .ok ⟨small, [2, 3], 1⟩ := rfl
  obtain rfl := Except.ok.inj (done.symm.trans known)
  exact ⟨_, done, rfl, rfl, simulates⟩

end Program

end TaylorTape
