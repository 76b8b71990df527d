import TaylorTape.Proofs.Exact
import TaylorTape.Proofs.Run

/-!
Sweeps over elements cannot fail.

Where there are no arrays nothing can fail to fit.  A call takes one element and gives it back, or
it could not have been recorded; so whatever order is accepted is answered, on any tape whose calls
are of that kind.
-/

set_option autoImplicit false
set_option relaxedAutoImplicit false

namespace TaylorTape

namespace BuiltIn

variable {F : Type} [Scalar F]

theorem passes_of_atomic_eq {b b' : BuiltIn} (same : (b.atomic : Atomic F) = b'.atomic)
    (passes : b.Passes) : b'.Passes := by
  have stepped : b.step [0] [0] = .ok [(0 : F)] := step_of_passes passes 0 0
  exact (step_scalar (step_of_atomic_eq same rfl stepped)).1

end BuiltIn

namespace Tape

section Scalars

variable {F : Type} [Scalar F] {tape : Tape F} {q i : Nat} {seed : List F} {c : Nat → Nat → F}

/-- Every call on the tape takes one element and gives it back. -/
def Passing (tape : Tape F) : Prop :=
  ∀ i place args n, tape.entry i = .ok (.call place args n) →
    ∃ (r : Registered F) (b : BuiltIn) (a : Nat), tape.atomics[place]? = some r ∧
      r.op = b.atomic ∧ b.Passes ∧ args = [a] ∧ n = 1

theorem Passing.onlyBuiltIns (passing : tape.Passing) : tape.OnlyBuiltIns := by
  intro i place args n found
  obtain ⟨r, b, _, there, op, _⟩ := passing i place args n found
  exact ⟨r, there, b, op⟩

/-- A tape that coefficients hold on has such calls only. -/
theorem passing_of_holds (builtIns : tape.OnlyBuiltIns)
    (holds : ∀ i < tape.size, tape.Holds q seed c i) : tape.Passing := by
  intro i place args n found
  obtain ⟨r, there, builtIn⟩ := builtIns i place args n found
  obtain ⟨b, a, op, passes, args, one, _⟩ :=
    (holds i (lt_size_of_entry found)).call found there builtIn
  exact ⟨r, b, a, there, op, passes, args, one⟩

/-- A tape without calls is one of them. -/
theorem passing_of_no_call
    (plain : ∀ node ∈ tape.nodes, ∀ place args n, node.entry ≠ .call place args n) :
    tape.Passing := by
  intro i place args n found
  obtain ⟨v, node⟩ := entry_eq_ok.1 found
  exact absurd rfl (plain _ (Array.mem_of_getElem? node) place args n)

/-- There are no further results on such a tape. -/
theorem Passing.not_result (wf : tape.WellFormed) (passing : tape.Passing) (owner : Nat) :
    tape.entry i ≠ .ok (.result owner) := by
  intro found
  obtain ⟨place, args, n, call, low, high⟩ := wf.results i owner found
  obtain ⟨_, _, _, _, _, _, _, one⟩ := passing owner place args n call
  omega

end Scalars

section Elements

variable {F : Type} [RingScalar F] {tape : Tape F}

private theorem Passing.yields (wf : tape.WellFormed) (passing : tape.Passing) {q i : Nat}
    {seed : List F}
    (enough : tape.numInputs ≤ seed.length) (c : Nat → Nat → F) (inside : i < tape.size) :
    ∃ xs, tape.Yields q seed c i xs := by
  obtain ⟨⟨e, v⟩, node⟩ := exists_node inside
  have found := entry_of_node node
  cases e with
  | input =>
    have early : i < tape.numInputs := (wf.inputs i _ found).1 rfl
    exact ⟨_, _, node, _, List.getElem?_eq_getElem (by omega), rfl⟩
  | const => exact ⟨_, _, node, rfl⟩
  | unary op a => exact ⟨_, _, node, _, next_unary_of op (c a) (c i) q, rfl⟩
  | binary op a b => exact ⟨_, _, node, _, next_binary_of op (c a) (c b) (c i) q, rfl⟩
  | call place args n =>
    obtain ⟨r, b, a, there, op, passes, rfl, _⟩ := passing i place args n found
    refine ⟨[c a q], _, node, fun r' there' _ => ⟨b, ?_, b.step_of_passes passes _ _⟩⟩
    obtain rfl : r = r' := Option.some.inj (there.symm.trans there')
    exact op
  | result owner => exact ⟨_, _, node, rfl⟩

end Elements

end Tape

namespace Evaluator

variable {F : Type} [RingScalar F]

theorem forward_scalar {e : Evaluator F} {q r : Nat} {seeds : List (List F)} (wf : e.WellFormed)
    (passing : e.tape.Passing) (accepts : e.Accepts q r seeds) :
    ∃ ys e', forward q r seeds e = (.ok ys, e') ∧ e.Advanced q r seeds ys e' := by
  obtain ⟨ys, e', done, advanced, _⟩ := forward_total wf passing.onlyBuiltIns accepts
    (fun _ _ _ => True) fun d seed found i inside c' _ _ => by
      have count := accepts.lengths seed (List.mem_of_getElem? found)
      obtain ⟨xs, yields⟩ := passing.yields wf.tape (le_of_eq count.symm) c' inside
      exact ⟨xs, yields, fun _ _ _ => trivial⟩
  exact ⟨ys, e', done, advanced⟩

/-- A run along one direction succeeds where it may begin. -/
theorem forwardFrom_scalar {e : Evaluator F} {k : Nat} {rows : List (List F)} (wf : e.WellFormed)
    (passing : e.tape.Passing) (lengths : ∀ seed ∈ rows, seed.length = e.numInputs)
    (orders : k ≤ e.numOrders) (directions : 1 < k → e.numDirections = 1) :
    ∃ answers e', forwardFrom k (rows.map ([·])) e = (.ok answers, e') := by
  induction rows generalizing e k with
  | nil => exact ⟨[], e, rfl⟩
  | cons seed rows ih =>
    have accepts : e.Accepts k 1 [seed] := {
      positive := Nat.one_ne_zero
      count := rfl
      lengths := fun s member => by
        obtain rfl := List.mem_singleton.1 member
        exact lengths s List.mem_cons_self
      point := fun _ => rfl
      orders := orders
      directions := fun higher => (directions higher).symm }
    obtain ⟨ys, e₁, first, advanced⟩ := forward_scalar wf passing accepts
    have inputs : e₁.numInputs = e.numInputs := congrArg Tape.numInputs advanced.tape
    obtain ⟨zs, e₂, later⟩ := ih (k := k + 1) advanced.wellFormed (advanced.tape ▸ passing)
      (fun s member => (lengths s (List.mem_cons_of_mem _ member)).trans inputs.symm)
      (le_of_eq advanced.orders.symm)
      (fun _ => by rw [advanced.directions, if_neg (by omega)])
    refine ⟨ys :: zs, e₂, ?_⟩
    exact run_bind_eq_ok.2 ⟨ys, e₁, first, run_bind_eq_ok.2 ⟨zs, e₂, later, rfl⟩⟩

end Evaluator

end TaylorTape
