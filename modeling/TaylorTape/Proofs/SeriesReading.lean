import TaylorTape.Proofs.Partials
import TaylorTape.Proofs.Readings

/-!
Tapes of elements, read in Taylor series of dual numbers.

An operation makes one series of its arguments' series, each coefficient of it from those below; and
it makes a constant of constants.  So a tape can be read in series, and what it is read as holds of
every entry at every order.  A run finds these coefficients, and the infinitesimal parts are their
differentials.
-/

set_option autoImplicit false
set_option relaxedAutoImplicit false

namespace TaylorTape

open TrivSqZeroExt (inl)
open Duals

section Series

variable {F : Type} [RingScalar F] {a b z : Nat → F} {k : Nat}

/-- The series that an operation of one argument makes of a series. -/
def UnaryOp.series (op : UnaryOp) (a : Nat → F) (k : Nat) : F :=
  op.coefficient a (fun j => if _ : j < k then op.series a j else 0) k

/-- The series that an operation of two arguments makes of two series. -/
def BinaryOp.series (op : BinaryOp) (a b : Nat → F) (k : Nat) : F :=
  op.coefficient a b (fun j => if _ : j < k then op.series a b j else 0) k

theorem UnaryOp.series_eq (op : UnaryOp) (a : Nat → F) (k : Nat) :
    op.series a k = op.coefficient a (op.series a) k := by
  rw [series]
  exact op.coefficient_congr (fun _ _ => rfl) fun j below => dif_pos below

theorem BinaryOp.series_eq (op : BinaryOp) (a b : Nat → F) (k : Nat) :
    op.series a b k = op.coefficient a b (op.series a b) k := by
  rw [series]
  exact op.coefficient_congr (fun _ _ => rfl) (fun _ _ => rfl) fun j below => dif_pos below

/-- The series of a constant. -/
def constantly (x : F) (k : Nat) : F :=
  if k = 0 then x else 0

private theorem constantly_of_pos (x : F) (positive : 0 < k) : constantly x k = 0 :=
  if_neg (Nat.ne_of_gt positive)

private theorem sinCosTerm_constantly (x : F) (positive : 0 < k) :
    sinCosTerm (constantly x) k = (0, 0) := by
  have flat : ∀ f : Nat → F,
      ∑ j ∈ Finset.Ico 1 (k + 1), constantly x j * Scalar.ratio j k * f j = 0 := fun f =>
    Finset.sum_eq_zero fun j among => by
      rw [constantly_of_pos x (Finset.mem_Ico.1 among).1, zero_mul, zero_mul]
  rw [sinCosTerm_of_pos _ positive, flat, flat, neg_zero]

private theorem UnaryOp.coefficient_constantly (op : UnaryOp) {x : F}
    (zero_div : ∀ y : F, 0 / y = 0) (positive : 0 < k) (own : ∀ j < k, 0 < j → z j = 0) :
    op.coefficient (constantly x) z k = 0 := by
  have flat : ∀ j, 0 < j → constantly x j = 0 := fun j => constantly_of_pos x
  unfold coefficient
  rw [if_neg (Nat.ne_of_gt positive)]
  cases op with
  | neg => exact neg_eq_zero.2 (flat k positive)
  | abs => exact mul_eq_zero_of_right _ (flat k positive)
  | exp =>
    refine Finset.sum_eq_zero fun j among => ?_
    rw [flat j (Finset.mem_Ico.1 among).1, zero_mul, zero_mul]
  | ln =>
    have lower : ∑ j ∈ Finset.Ico 1 k, z j * constantly x (k - j) * Scalar.ratio j k = 0 :=
      Finset.sum_eq_zero fun j among => by
        rw [flat (k - j) (Nat.sub_pos_of_lt (Finset.mem_Ico.1 among).2), mul_zero, zero_mul]
    show (constantly x k - _) / _ = 0
    rw [flat k positive, lower, sub_zero, zero_div]
  | sqrt =>
    have lower : ∑ j ∈ Finset.Ico 1 k, z j * z (k - j) = 0 :=
      Finset.sum_eq_zero fun j among => by
        rw [own j (Finset.mem_Ico.1 among).2 (Finset.mem_Ico.1 among).1, zero_mul]
    show (constantly x k - _) / _ = 0
    rw [flat k positive, lower, sub_zero, zero_div]
  | sin => exact congrArg Prod.fst (sinCosTerm_constantly x positive)
  | cos => exact congrArg Prod.snd (sinCosTerm_constantly x positive)

private theorem BinaryOp.coefficient_constantly (op : BinaryOp) {x y : F}
    (zero_div : ∀ y : F, 0 / y = 0)
    (positive : 0 < k) : op.coefficient (constantly x) (constantly y) z k = 0 := by
  have flat : ∀ (x : F) j, 0 < j → constantly x j = 0 := fun x j => constantly_of_pos x
  cases op with
  | add => simp [coefficient, flat _ k positive]
  | sub => simp [coefficient, flat _ k positive]
  | mul =>
    refine Finset.sum_eq_zero fun j _ => ?_
    rcases Nat.eq_zero_or_pos j with rfl | later
    · rw [Nat.sub_zero, flat y k positive, mul_zero]
    · rw [flat x j later, zero_mul]
  | div =>
    rw [coefficient, flat x k positive, Finset.sum_eq_zero, sub_zero, zero_div]
    intro j among
    rw [flat y j (Finset.mem_Ico.1 among).1, zero_mul]

end Series

section Duals

variable {F : Type} [ExactScalar F]

namespace Duals

private theorem zero_div_dual (x : DualNumber F) : 0 / x = 0 :=
  TrivSqZeroExt.ext (by simp) (by simp)

private theorem onElem_inl (op : UnaryOp) (x : F) :
    op.onElem (inl x : DualNumber F) = inl (op.onElem x) := by
  refine TrivSqZeroExt.ext (fst_onElem op (inl x)) ?_
  cases op with
  | neg => exact neg_zero
  | exp | sin | abs => exact mul_zero _
  | ln | sqrt => exact zero_div _
  | cos => exact neg_eq_zero.2 (mul_zero _)

private theorem div_inl (x y : F) : (inl x / inl y : DualNumber F) = inl (x / y) :=
  TrivSqZeroExt.ext (by simp) (by simp)

/-- Elements as constant series. -/
def reading : Reading F (Nat → DualNumber F) where
  const x := constantly (inl x)
  unary := UnaryOp.series
  binary := BinaryOp.series
  unary_const op x := by
    funext k
    induction k using Nat.strong_induction_on with
    | h k ih =>
      rw [op.series_eq]
      rcases Nat.eq_zero_or_pos k with rfl | positive
      · exact onElem_inl op x
      · rw [constantly_of_pos _ positive]
        refine op.coefficient_constantly zero_div_dual positive fun j below later => ?_
        rw [ih j below, constantly_of_pos _ later]
  binary_const op x y z done := by
    funext k
    rw [op.series_eq]
    rcases Nat.eq_zero_or_pos k with rfl | positive
    · cases op with
      | add =>
        obtain rfl := Except.ok.inj done
        exact (TrivSqZeroExt.inl_add F x y).symm
      | sub =>
        obtain rfl := Except.ok.inj done
        exact (TrivSqZeroExt.inl_sub F x y).symm
      | mul =>
        obtain rfl := Except.ok.inj done
        exact (Finset.sum_range_one _).trans (TrivSqZeroExt.inl_mul F x y).symm
      | div =>
        obtain rfl := Except.ok.inj done
        show (inl x - 0) / inl y = (inl (x / y) : DualNumber F)
        rw [sub_zero, div_inl]
    · rw [op.coefficient_constantly zero_div_dual positive, constantly_of_pos _ positive]

end Duals

end Duals

section Runs

variable {F : Type} [ExactScalar F] {c : Nat → Nat → DualNumber F}

/-- What a tape is read as holds of every entry at every order. -/
private theorem Tape.Lifts.holds {tape : Tape F} {lifted : Tape (DualNumber F)}
    (lifts : tape.Lifts lifted)
    (wf : tape.WellFormed) (passing : tape.Passing) (reads : tape.Reads Duals.reading c) {k i : Nat}
    {seed : List (DualNumber F)} (seeds : (List.range tape.numInputs).map (c · k) = seed)
    (inside : i < tape.size) : lifted.Holds k seed c i := by
  obtain ⟨⟨e, v⟩, node⟩ := Tape.exists_node inside
  have found := Tape.entry_of_node node
  have told := reads i e v node
  have node' := lifts.node node
  refine ⟨e, Tape.entry_of_node node', ⟨e, inl v⟩, node', ?_⟩
  cases e with
  | input =>
    have early : i < tape.numInputs := (wf.inputs i _ found).1 rfl
    refine ⟨c i k, ?_, rfl⟩
    rw [← seeds, List.getElem?_map, List.getElem?_range early]
    rfl
  | const =>
    show [c i k] = [_]
    rw [show c i = constantly (inl v) from told]
    rfl
  | unary op a =>
    refine ⟨c i k, ?_, rfl⟩
    have own : c i k = op.coefficient (c a) (c i) k := by
      rw [show c i = op.series (c a) from told]
      exact op.series_eq _ k
    rw [next_unary_of, ← own]
  | binary op a b =>
    refine ⟨c i k, ?_, rfl⟩
    have own : c i k = op.coefficient (c a) (c b) (c i) k := by
      rw [show c i = op.series (c a) (c b) from told]
      exact op.series_eq _ _ k
    rw [next_binary_of, ← own]
  | call place args n =>
    obtain ⟨r, b, a, there, op, passes, rfl, rfl⟩ :=
      lifts.passing passing i place args n (Tape.entry_of_node node')
    intro r' there' _
    obtain rfl : r = r' := Option.some.inj (there.symm.trans there')
    refine ⟨b, op, ?_⟩
    show b.step [c a 0] [c a k] = .ok [c i k]
    rw [told a List.mem_cons_self]
    exact b.step_of_passes passes _ _
  | result owner => exact absurd found (passing.not_result wf owner)

namespace Evaluator

variable {e e' : Evaluator F} {rows answers : List (List (List F))} {lifted : Tape (DualNumber F)}

/-- A run finds along each direction the real parts of what the tape is read as. -/
theorem Ran.reals (ran : e.Ran [] rows answers e') (wf : e.WellFormed) (passing : e.tape.Passing)
    (lifts : e.tape.Lifts lifted) (reads : e.tape.Reads Duals.reading c) {d : Nat}
    (along : d < e'.numDirections)
    (seeds : ∀ k < rows.length, (List.range e.numInputs).map (fun j => (c j k).fst) =
      seedAt rows k d) :
    ∀ k < rows.length, ∀ i < e.tape.size, (c i k).fst = e'.table.value i k d := by
  have given : ∀ k < rows.length, ((List.range e.numInputs).map (c · k)).map TrivSqZeroExt.fst =
      seedAt rows k d := fun k below => by
    rw [List.map_map]
    exact seeds k below
  have found : ∀ k < rows.length, ∀ i < e.tape.size,
      e.tape.Holds k (seedAt rows k d) (e'.table.along d) i := fun k below i inside => by
    rw [← ran.tape]
    exact ran.cached.holds k below d along i (ran.tape ▸ inside)
  exact lifts.fst_eq wf.tape passing given found fun k _ i inside =>
    lifts.holds wf.tape passing reads rfl inside

/-- After a run the table varies with the infinitesimal parts. -/
theorem Ran.varies (ran : e.Ran [] rows answers e') (wf : e.WellFormed) (passing : e.tape.Passing)
    (lifts : e.tape.Lifts lifted) (reads : e.tape.Reads Duals.reading c) {q : Nat}
    (orders : q ≤ rows.length)
    (seeds : ∀ k < rows.length, (List.range e.numInputs).map (fun j => (c j k).fst) =
      seedAt rows k 0) :
    e'.Varies q lifted (fun k => (List.range e.numInputs).map (c · k)) c where
  wellFormed := ran.wellFormed
  orders := orders.trans ran.cached.orders
  lifts := ran.tape ▸ lifts
  passing := ran.tape ▸ passing
  holds _ _ _ inside := lifts.holds wf.tape passing reads rfl (ran.tape ▸ inside)
  reals k below i inside := ran.reals wf passing lifts reads ran.wellFormed.table.directions seeds k
    (below.trans_le orders) i (ran.tape ▸ inside)

end Evaluator

end Runs

end TaylorTape
