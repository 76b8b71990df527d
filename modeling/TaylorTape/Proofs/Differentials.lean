import TaylorTape.Proofs.Duals
import TaylorTape.Proofs.Elements

/-!
Runs over dual numbers.

When a tape over elements has been swept through some orders, the same entries over dual numbers can
be swept through the same orders, from the same seeds with perturbations beside them.  The real parts
of what is found there are the coefficients over elements, and the infinitesimal parts are their
differentials.
-/

set_option autoImplicit false
set_option relaxedAutoImplicit false

namespace TaylorTape

open TrivSqZeroExt (inl)

namespace Tape

section Lifts

variable {F : Type} [RingScalar F] {tape : Tape F} {lifted : Tape (DualNumber F)}

/-- A tape has the same entries over dual numbers: its parameters do not vary, and its calls are of
the same built-ins. -/
structure Lifts (tape : Tape F) (lifted : Tape (DualNumber F)) : Prop where
  inputs : lifted.numInputs = tape.numInputs
  nodes : lifted.nodes = tape.nodes.map fun node => ⟨node.entry, inl node.value⟩
  atomics : ∀ i place args n, tape.entry i = .ok (.call place args n) →
    ∃ (r : Registered F) (r' : Registered (DualNumber F)) (b : BuiltIn),
      tape.atomics[place]? = some r ∧ lifted.atomics[place]? = some r' ∧
      r.op = b.atomic ∧ r'.op = b.atomic

/-- Every tape whose calls are of built-ins has its entries over dual numbers. -/
theorem exists_lifts (builtIns : tape.OnlyBuiltIns) : ∃ lifted, tape.Lifts lifted := by
  have named : ∀ r : Registered F, ∃ b : BuiltIn, r.IsBuiltIn → r.op = b.atomic := by
    intro r
    by_cases builtIn : r.IsBuiltIn
    · obtain ⟨b, op⟩ := builtIn
      exact ⟨b, fun _ => op⟩
    · exact ⟨.pack, fun known => absurd known builtIn⟩
  choose builtIn op using named
  refine ⟨⟨tape.id, tape.nodes.map fun node => ⟨node.entry, inl node.value⟩, tape.numInputs,
    tape.atomics.map fun r => ⟨r.id, r.name, (builtIn r).atomic⟩⟩, rfl, rfl, ?_⟩
  intro i place args n found
  obtain ⟨r, there, known⟩ := builtIns i place args n found
  refine ⟨r, ⟨r.id, r.name, (builtIn r).atomic⟩, builtIn r, there, ?_, op r known, rfl⟩
  rw [Array.getElem?_map, there]
  rfl

theorem Lifts.size (lifts : tape.Lifts lifted) : lifted.size = tape.size := by
  unfold Tape.size
  rw [lifts.nodes, Array.size_map]

theorem Lifts.node (lifts : tape.Lifts lifted) {i : Nat} {e : Entry} {v : F}
    (node : tape.nodes[i]? = some ⟨e, v⟩) : lifted.nodes[i]? = some ⟨e, inl v⟩ := by
  rw [lifts.nodes, Array.getElem?_map, node]
  rfl

theorem Lifts.entry (lifts : tape.Lifts lifted) (i : Nat) : lifted.entry i = tape.entry i := by
  unfold Tape.entry fetch
  rw [lifts.nodes, Array.getElem?_map, Array.size_map]
  cases tape.nodes[i]? <;> rfl

theorem Lifts.wellFormed (lifts : tape.Lifts lifted) (wf : tape.WellFormed) :
    lifted.WellFormed where
  inputs_le := by
    rw [lifts.inputs, lifts.size]
    exact wf.inputs_le
  inputs i e found := by
    rw [lifts.entry] at found
    rw [lifts.inputs]
    exact wf.inputs i e found
  operands i e found := wf.operands i e (lifts.entry i ▸ found)
  atomics i place args n found := by
    rw [lifts.entry] at found
    obtain ⟨r, r', b, there, there', op, op'⟩ := lifts.atomics i place args n found
    obtain ⟨r₁, there₁, many⟩ := wf.atomics i place args n found
    obtain rfl : r = r₁ := Option.some.inj (there.symm.trans there₁)
    refine ⟨r', there', ?_⟩
    rw [op', BuiltIn.numResults_atomic, ← many, op, BuiltIn.numResults_atomic]
  calls i place args n found := by
    simp only [lifts.entry] at found ⊢
    exact wf.calls i place args n found
  results j owner found := by
    simp only [lifts.entry] at found ⊢
    exact wf.results j owner found

theorem Lifts.passing (lifts : tape.Lifts lifted) (passing : tape.Passing) : lifted.Passing := by
  intro i place args n found
  rw [lifts.entry] at found
  obtain ⟨r, r', b, there, there', op, op'⟩ := lifts.atomics i place args n found
  obtain ⟨r₁, b₁, a, there₁, op₁, passes, args, one⟩ := passing i place args n found
  obtain rfl : r = r₁ := Option.some.inj (there.symm.trans there₁)
  exact ⟨r', b, a, there', op', BuiltIn.passes_of_atomic_eq (op₁.symm.trans op) passes, args, one⟩

end Lifts

section Parts

variable {F : Type} [RingScalar F] {tape : Tape F} {lifted : Tape (DualNumber F)}
  {seed : Nat → List F} {seed' : Nat → List (DualNumber F)} {c : Nat → Nat → F}
  {c' : Nat → Nat → DualNumber F} {n : Nat}

/-- The real parts of coefficients over dual numbers are those over elements, where the real parts
of the seeds are the seeds. -/
theorem Lifts.fst_eq (lifts : tape.Lifts lifted) (wf : tape.WellFormed) (passing : tape.Passing)
    (seeds : ∀ k < n, (seed' k).map TrivSqZeroExt.fst = seed k)
    (holds : ∀ k < n, ∀ i < tape.size, tape.Holds k (seed k) c i)
    (holds' : ∀ k < n, ∀ i < tape.size, lifted.Holds k (seed' k) c' i) :
    ∀ k < n, ∀ i < tape.size, (c' i k).fst = c i k := by
  intro k
  induction k using Nat.strong_induction_on with
  | _ k lower =>
  intro below i
  induction i using Nat.strong_induction_on with
  | _ i before =>
  intro inside
  obtain ⟨⟨e, v⟩, node⟩ := exists_node inside
  have found := entry_of_node node
  have found' : lifted.entry i = .ok e := (lifts.entry i).trans found
  have holds := holds k below i inside
  have holds' := holds' k below i inside
  -- an operand is known at all orders up to this one
  have operand : ∀ a ∈ e.operands, ∀ j ≤ k, (c' a j).fst = c a j := by
    intro a reads j low
    have earlier := wf.operands i e found a reads
    rcases Nat.lt_or_eq_of_le low with less | rfl
    · exact lower j less (by omega) a (by omega)
    · exact before a earlier (by omega)
  have own : ∀ j < k, (c' i j).fst = c i j := fun j less => lower j less (by omega) i inside
  cases e with
  | input =>
    have read := holds.input found
    have read' := holds'.input found'
    rw [← seeds k below, List.getElem?_map, read'] at read
    exact Option.some.inj read
  | const =>
    rw [holds.const node, holds'.const (lifts.node node)]
    by_cases zero : k = 0
    · rw [if_pos zero, if_pos zero]
      rfl
    · rw [if_neg zero, if_neg zero]
      rfl
  | unary op a =>
    rw [holds.unary found, holds'.unary found', Duals.fst_unary]
    exact op.coefficient_congr (operand a (by simp [Entry.operands])) own
  | binary op a b =>
    rw [holds.binary found, holds'.binary found', Duals.fst_binary]
    exact op.coefficient_congr (operand a (by simp [Entry.operands]))
      (operand b (by simp [Entry.operands])) own
  | call place args m =>
    obtain ⟨r, b, a, there, op, passes, rfl, _⟩ := passing i place args m found
    obtain ⟨r', b', a', there', op', _, args', _⟩ := lifts.passing passing i place _ m found'
    obtain ⟨_, a₁, _, _, args₁, _, same⟩ := holds.call found there ⟨b, op⟩
    obtain ⟨_, a₂, _, _, args₂, _, same'⟩ := holds'.call found' there' ⟨b', op'⟩
    obtain rfl : a = a₁ := List.head_eq_of_cons_eq args₁
    obtain rfl : a = a₂ := List.head_eq_of_cons_eq args₂
    rw [same, same']
    exact operand a (by simp [Entry.operands]) k le_rfl
  | result owner => exact absurd found (passing.not_result wf owner)

end Parts

end Tape

namespace Evaluator

variable {F : Type} [RingScalar F]

/-- Seeds with perturbations beside them. -/
def perturbed (rows shifts : List (List F)) : List (List (DualNumber F)) :=
  List.zipWith (List.zipWith Duals.perturb) rows shifts

omit [RingScalar F] in
theorem getElem?_perturbed {rows shifts : List (List F)}
    (shapes : List.Forall₂ (fun x dx => x.length = dx.length) rows shifts) {k : Nat}
    (below : k < rows.length) : ∃ x dx, rows[k]? = some x ∧ shifts[k]? = some dx ∧
      x.length = dx.length ∧ (perturbed rows shifts)[k]? = some (List.zipWith Duals.perturb x dx) := by
  have below' : k < shifts.length := shapes.length_eq ▸ below
  have found : rows[k]? = some rows[k] := List.getElem?_eq_getElem below
  have found' : shifts[k]? = some shifts[k] := List.getElem?_eq_getElem below'
  refine ⟨rows[k], shifts[k], found, found', (List.forall₂_iff_get.1 shapes).2 k below below', ?_⟩
  rw [perturbed, List.getElem?_zipWith, found, found']

omit [RingScalar F] in
private theorem map_fst_zipWith_perturb {x dx : List F} (shape : x.length = dx.length) :
    (List.zipWith Duals.perturb x dx).map TrivSqZeroExt.fst = x := by
  rw [List.map_zipWith]
  refine List.ext_getElem (by simp [shape]) fun j _ _ => ?_
  rw [List.getElem_zipWith, Duals.fst_perturb]

/-- Coefficients over dual numbers whose real parts are those of an evaluator. -/
structure Varies (e : Evaluator F) (q : Nat) (lifted : Tape (DualNumber F))
    (seed : Nat → List (DualNumber F)) (c : Nat → Nat → DualNumber F) : Prop where
  wellFormed : e.WellFormed
  orders : q ≤ e.numOrders
  lifts : e.tape.Lifts lifted
  passing : e.tape.Passing
  holds : ∀ k < q, ∀ i < e.tape.size, lifted.Holds k (seed k) c i
  reals : ∀ k < q, ∀ i < e.tape.size, (c i k).fst = e.table.along 0 i k

theorem Varies.mono {e : Evaluator F} {q m : Nat} {lifted : Tape (DualNumber F)}
    {seed : Nat → List (DualNumber F)} {c : Nat → Nat → DualNumber F}
    (varies : e.Varies q lifted seed c) (low : m ≤ q) : e.Varies m lifted seed c where
  wellFormed := varies.wellFormed
  orders := low.trans varies.orders
  lifts := varies.lifts
  passing := varies.passing
  holds k below := varies.holds k (by omega)
  reals k below := varies.reals k (by omega)

/-- Orders that hold along one direction can be computed over dual numbers, whatever the
perturbations of their seeds; the real parts are the coefficients over elements. -/
theorem exists_lifted_run {e : Evaluator F} {rows shifts : List (List F)} {c : Nat → Nat → F}
    {lifted : Tape (DualNumber F)} (wf : e.WellFormed) (passing : e.tape.Passing)
    (lengths : ∀ x ∈ rows, x.length = e.numInputs)
    (holds : ∀ k < rows.length, ∀ i < e.tape.size, e.tape.Holds k ((rows[k]?).getD []) c i)
    (lifts : e.tape.Lifts lifted)
    (shapes : List.Forall₂ (fun x dx => x.length = dx.length) rows shifts) :
    ∃ ys e'', forwardFrom 0 ((perturbed rows shifts).map ([·])) (.ofTape lifted e.outputs) =
        (.ok ys, e'') ∧
      (Evaluator.ofTape lifted e.outputs).Ran [] ((perturbed rows shifts).map ([·])) ys e'' ∧
      (∀ k < rows.length, ∀ i < e.tape.size,
        lifted.Holds k (((perturbed rows shifts)[k]?).getD []) (e''.table.along 0) i) ∧
      ∀ k < rows.length, ∀ i < e.tape.size, (e''.table.along 0 i k).fst = c i k := by
  have length : (perturbed rows shifts).length = rows.length := by
    simp [perturbed, shapes.length_eq]
  have wf' : (Evaluator.ofTape lifted e.outputs).WellFormed :=
    ⟨lifts.wellFormed wf.tape, fun y member => lifts.size ▸ wf.outputs y member,
      Coefficients.empty_wellFormed _, rfl⟩
  obtain ⟨ys, e'', done'⟩ := forwardFrom_scalar (k := 0) wf'
    (lifts.passing passing) (show ∀ seed ∈ perturbed rows shifts, _ from fun seed member => by
      obtain ⟨k, below, rfl⟩ := List.getElem_of_mem member
      obtain ⟨x, dx, found, _, shape, found'⟩ := getElem?_perturbed shapes (length ▸ below)
      obtain ⟨_, same⟩ := List.getElem?_eq_some_iff.1 found'
      rw [same, List.length_zipWith, ← shape, Nat.min_self]
      exact (lengths x (List.mem_of_getElem? found)).trans lifts.inputs.symm)
    (Nat.zero_le _) (by omega)
  have ran' := forwardFrom_zero wf' done'
  have holds' : ∀ k < rows.length, ∀ i < e.tape.size,
      lifted.Holds k (((perturbed rows shifts)[k]?).getD []) (e''.table.along 0) i :=
    fun k below i inside => ran'.holds k (length ▸ below) i (lifts.size ▸ inside)
  refine ⟨ys, e'', done', ran', holds', lifts.fst_eq wf.tape passing (fun k below => ?_) holds holds'⟩
  obtain ⟨x, dx, found, _, shape, found'⟩ := getElem?_perturbed shapes below
  rw [found, found', Option.getD_some, Option.getD_some, map_fst_zipWith_perturb shape]

/-- A run over elements along one direction can be repeated over dual numbers. -/
theorem forwardFrom_lifted {e e' : Evaluator F} {rows shifts : List (List F)}
    {answers : List (List (List F))} {lifted : Tape (DualNumber F)} (wf : e.WellFormed)
    (builtIns : e.tape.OnlyBuiltIns) (positive : rows ≠ [])
    (ran : e.Ran [] (rows.map ([·])) answers e') (lifts : e.tape.Lifts lifted)
    (shapes : List.Forall₂ (fun x dx => x.length = dx.length) rows shifts) :
    ∃ ys e'', forwardFrom 0 ((perturbed rows shifts).map ([·])) (.ofTape lifted e.outputs) =
        (.ok ys, e'') ∧
      (Evaluator.ofTape lifted e.outputs).Ran [] ((perturbed rows shifts).map ([·])) ys e'' ∧
      e'.Varies rows.length lifted (fun k => ((perturbed rows shifts)[k]?).getD [])
        (e''.table.along 0) := by
  have passing := Tape.passing_of_holds builtIns (ran.holds 0 (List.length_pos_iff.2 positive))
  obtain ⟨ys, e'', done', ran', holds', reals⟩ :=
    exists_lifted_run wf passing ran.lengths ran.holds lifts shapes
  have orders := ran.cached.orders
  rw [List.nil_append, List.length_map] at orders
  refine ⟨ys, e'', done', ran', ran.wellFormed, orders, ran.tape ▸ lifts, ran.tape ▸ passing,
    ran.tape ▸ holds', ?_⟩
  rw [ran.tape]
  exact reals

end Evaluator

end TaylorTape
