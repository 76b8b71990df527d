import TaylorTape.Proofs.Adjoint
import TaylorTape.Proofs.Differentials
import TaylorTape.Proofs.Frozen
import TaylorTape.Proofs.Pullback
import TaylorTape.Proofs.Reals

/-!
A reverse sweep over elements computes partial derivatives of every order.

After a run along one direction the table holds the first coefficients of every variable.  Run over
dual numbers, from perturbed seeds, the same tape also yields their differentials.  A series of
partials is paired with the differentials of the orders of its variable.  Every rule of a reverse
sweep keeps this pairing, so that the partials of the inputs, paired with the perturbations of the
seeds, are the weights of the outputs paired with the differentials of the outputs.
-/

set_option autoImplicit false
set_option relaxedAutoImplicit false

namespace TaylorTape

open Series Duals

namespace BuiltIn

variable {F : Type} [ExactScalar F]

private theorem reverse_of_passes {b : BuiltIn} (passes : b.Passes) (x p : Nat → F)
    (ys : List (Series F))
    (q : Nat) : (b.atomic : Atomic F).reverse q [.of x (q + 1)] ys [.of p (q + 1)] =
      .ok (some [.of p (q + 1)]) := by
  have each (k : Nat) (_ : k < q + 1) : b.back ([x].map (· 0)) ([p].map (· k)) = .ok [p k] := by
    cases b with
    | sum | flip | pack => rfl
    | concat => cases passes
    | make n =>
      obtain rfl : n = 1 := passes
      show Except.ok [p k * Scalar.ratio 1 1] = _
      rw [ratio_eq, Nat.cast_one, div_one, mul_one]
    | unpack n =>
      show Except.ok [0 + p k] = _
      rw [zero_add]
  have count : [p].length = b.count := by
    cases b with
    | unpack n => exact passes.symm
    | sum | concat | flip | pack | make => rfl
  exact reverse_eq [x] count each ys

end BuiltIn

namespace Evaluator

variable {F : Type} [ExactScalar F] {e : Evaluator F} {q : Nat} {lifted : Tape (DualNumber F)}
  {seed : Nat → List (DualNumber F)} {c : Nat → Nat → DualNumber F}

/-- Divisors, arguments of logarithms and results of square roots do not vanish at order zero. -/
def Regular (e : Evaluator F) : Prop :=
  ∀ i entry, e.tape.entry i = .ok entry →
    match entry with
    | .unary op a => op.Regular (e.table.value a 0 0) (e.table.value i 0 0)
    | .binary op _ b => op.Regular (e.table.value b 0 0)
    | .input | .const | .call _ _ _ | .result _ => True

namespace Varies

private theorem series (varies : e.Varies q lifted seed c) {i : Nat} (inside : i < e.tape.size) :
    e.table.series i q 0 = .ok (.of (Duals.reals (c i)) q) := by
  rw [varies.wellFormed.series inside varies.orders]
  exact congrArg Except.ok (Series.of_congr fun k below => (varies.reals k below i inside).symm)

private theorem coeff (varies : e.Varies q lifted seed c) (positive : 0 < q) {i : Nat}
    (inside : i < e.tape.size) : e.table.coeff i 0 0 = .ok (Duals.reals (c i) 0) := by
  rw [varies.wellFormed.coeff inside]
  exact congrArg Except.ok (varies.reals 0 positive i inside).symm

theorem still (varies : e.Varies q lifted seed c) {i k : Nat}
    (found : e.tape.entry i = .ok .const) (below : k < q) : (c i k).snd = 0 := by
  obtain ⟨value, node⟩ := Tape.entry_eq_ok.1 found
  rw [(varies.holds k below i (Tape.lt_size_of_entry found)).const (varies.lifts.node node)]
  split <;> rfl

theorem constant (varies : e.Varies q lifted seed c) {i k : Nat}
    (found : e.tape.entry i = .ok .const) (positive : 0 < k) (below : k < q) : c i k = 0 := by
  obtain ⟨value, node⟩ := Tape.entry_eq_ok.1 found
  rw [(varies.holds k below i (Tape.lt_size_of_entry found)).const (varies.lifts.node node),
    if_neg (Nat.ne_of_gt positive)]
  rfl

theorem unary (varies : e.Varies q lifted seed c) {i k a : Nat} {op : UnaryOp}
    (found : e.tape.entry i = .ok (.unary op a)) (below : k < q) :
    c i k = op.coefficient (c a) (c i) k :=
  (varies.holds k below i (Tape.lt_size_of_entry found)).unary ((varies.lifts.entry i).trans found)

theorem binary (varies : e.Varies q lifted seed c) {i k a b : Nat} {op : BinaryOp}
    (found : e.tape.entry i = .ok (.binary op a b)) (below : k < q) :
    c i k = op.coefficient (c a) (c b) (c i) k :=
  (varies.holds k below i (Tape.lt_size_of_entry found)).binary ((varies.lifts.entry i).trans found)

theorem call (varies : e.Varies q lifted seed c) {i k place a n : Nat}
    (found : e.tape.entry i = .ok (.call place [a] n)) (below : k < q) : c i k = c a k := by
  have found' : lifted.entry i = .ok (.call place [a] n) := (varies.lifts.entry i).trans found
  obtain ⟨r, b, _, there, op, _⟩ := varies.lifts.passing varies.passing i place _ _ found'
  obtain ⟨_, _, _, _, args, _, same⟩ :=
    (varies.holds k below i (Tape.lt_size_of_entry found)).call found' there ⟨b, op⟩
  obtain rfl := List.head_eq_of_cons_eq args
  exact same

theorem regular_unary (varies : e.Varies q lifted seed c) (positive : 0 < q) (regular : e.Regular)
    {i a : Nat} {op : UnaryOp} (found : e.tape.entry i = .ok (.unary op a)) :
    op.Regular (Duals.reals (c a) 0) (Duals.reals (c i) 0) := by
  have inside := Tape.lt_size_of_entry found
  have below : a < e.tape.size :=
    varies.wellFormed.tape.operand_lt found (by simp [Entry.operands])
  rw [Duals.reals, Duals.reals, varies.reals 0 positive a below, varies.reals 0 positive i inside]
  exact regular i _ found

theorem regular_binary (varies : e.Varies q lifted seed c) (positive : 0 < q) (regular : e.Regular)
    {i a b : Nat} {op : BinaryOp} (found : e.tape.entry i = .ok (.binary op a b)) :
    op.Regular (Duals.reals (c b) 0) := by
  have below : b < e.tape.size :=
    varies.wellFormed.tape.operand_lt found (by simp [Entry.operands])
  rw [Duals.reals, varies.reals 0 positive b below]
  exact regular i _ found

end Varies

/-- The partials of a variable, paired with the differentials of its coefficients. -/
def pairedWith (q : Nat) (c : Nat → Nat → DualNumber F) (v : Nat) (p : Series F) : F :=
  pairing q (fun k => (p[k]?).getD 0) (shifts (c v))

private theorem pairedWith_of (v : Nat) (p : Nat → F) :
    pairedWith q c v (.of p q) = pairing q p (shifts (c v)) :=
  pairing_congr fun k below => by rw [Series.getElem?_of, if_pos below, Option.getD_some]

omit [ExactScalar F] in
private theorem exists_of_size [Zero F] {p : Series F} (size : p.size = q) : ∃ f, p = .of f q :=
  ⟨_, eq_of_size size 0⟩

/-- Every step of a reverse sweep keeps the pairing with the differentials, where the operations
pass on what they are given. -/
theorem Varies.adjoint (varies : e.Varies q lifted seed c) (positive : 0 < q)
    (unary : ∀ i op a, e.tape.entry i = .ok (.unary op a) → op.Balances (c a) (c i) q)
    (binary : ∀ i op a b, e.tape.entry i = .ok (.binary op a b) →
      op.Balances (c a) (c b) (c i) q) :
    e.Adjoint Base.isAllZero q (fun _ p => p.size = q) (fun _ p => p.size = q)
      (pairedWith q c) where
  zeros v _ := by
    rw [zeros_eq_of]
    exact ⟨Series.size_of _ _, by rw [pairedWith_of, pairing_zero]⟩
  gather v inside p s valid share := by
    obtain ⟨f, rfl⟩ := exists_of_size valid
    obtain ⟨g, rfl⟩ := exists_of_size share
    unfold gathered
    rw [varies.coeff positive inside, ok_bind, Series.size_of, List.range_eq_range']
    obtain ⟨_, done, r, rfl, sum⟩ := foldlM_bump (f := fun s k => do
        s.addAt k (Base.reduceLike (← (Series.of g q).coeff k) (Duals.reals (c v) 0)))
      (a := 0) (b := q) (n := q) q (shifts (c v)) (fun j => j) g
      (fun r j _ stop _ => by
        have below : j < q := by omega
        rw [coeff_of below, ok_bind]
        exact addAt_of below r (g j))
      (fun j _ stop => by omega) fun r _ sum => sum
    refine ⟨_, done, Series.size_of _ _, ?_⟩
    rw [pairedWith_of, pairedWith_of, pairedWith_of, sum, Nat.zero_add, ← Finset.range_eq_Ico]
    rfl
  const v p found := by
    unfold pairedWith pairing
    refine Finset.sum_eq_zero fun k member => ?_
    rw [shifts, varies.still found (Finset.mem_range.1 member), mul_zero]
  skip v inside p valid all := by
    unfold pairedWith pairing
    refine Finset.sum_eq_zero fun k member => ?_
    have below : k < p.size := valid ▸ Finset.mem_range.1 member
    have zero : p[k] = 0 := by
      have test := Array.all_eq_true.1 all k below
      simpa [Base.isAllZero, Base.toList, ExactScalar.beq_iff] using test
    show (p[k]?).getD 0 * _ = 0
    rw [Array.getElem?_eq_getElem below, Option.getD_some, zero, zero_mul]
  unary i op a pz found valid _ := by
    have inside := Tape.lt_size_of_entry found
    have below : a < e.tape.size :=
      varies.wellFormed.tape.operand_lt found (by simp [Entry.operands])
    obtain ⟨f, rfl⟩ := exists_of_size valid
    obtain ⟨pa, done, sum⟩ := unary i op a found f
    refine ⟨_, _, _, varies.series below, varies.series inside, done, Series.size_of _ _, ?_⟩
    rw [pairedWith_of, pairedWith_of, sum]
  binary i op a b pz found valid _ := by
    have inside := Tape.lt_size_of_entry found
    have below : a < e.tape.size :=
      varies.wellFormed.tape.operand_lt found (by simp [Entry.operands])
    have below' : b < e.tape.size :=
      varies.wellFormed.tape.operand_lt found (by simp [Entry.operands])
    obtain ⟨f, rfl⟩ := exists_of_size valid
    obtain ⟨_, done, pa, pb, rfl, sum⟩ := binary i op a b found f
    refine ⟨_, _, _, _, _, varies.series below, varies.series below', varies.series inside, done,
      Series.size_of _ _, Series.size_of _ _, ?_⟩
    rw [pairedWith_of, pairedWith_of, pairedWith_of, sum]
  call i place args n adjoints found valid _ := by
    have inside := Tape.lt_size_of_entry found
    obtain ⟨r, b, a, there, op, passes, rfl, rfl⟩ := varies.passing i place args n found
    have below : a < e.tape.size :=
      varies.wellFormed.tape.operand_lt found (by simp [Entry.operands])
    obtain ⟨w, rfl⟩ : ∃ w, adjoints = [w] := List.length_eq_one_iff.1 valid.length_eq.symm
    have size : w.size = q := (List.forall₂_cons.1 valid).1
    obtain ⟨f, rfl⟩ := exists_of_size size
    have pulled := BuiltIn.reverse_of_passes passes (Duals.reals (c a)) f
      [.of (Duals.reals (c i)) q] (q - 1)
    rw [Nat.sub_add_cancel positive] at pulled
    refine ⟨r, [.of (Duals.reals (c a)) q], [.of (Duals.reals (c i)) q], [.of f q],
      fetch_eq_ok_iff.2 there, ?_, ?_, op ▸ pulled, .cons (Series.size_of _ _) .nil, ?_⟩
    · exact mapM_eq_ok.2 (.cons (varies.series below) .nil)
    · exact mapM_eq_ok.2 (.cons (varies.series inside) .nil)
    · show pairedWith q c a (.of f q) + 0 = pairedWith q c i (.of f q) + 0
      rw [pairedWith_of, pairedWith_of]
      refine congrArg (· + 0) (Finset.sum_congr rfl fun k member => ?_)
      rw [shifts, shifts, varies.call found (Finset.mem_range.1 member)]

/-- The element at two positions, and zero where there is none. -/
def cell {A : Type} [Zero A] (rows : List (List A)) (i k : Nat) : A :=
  (((rows[i]?).getD [])[k]?).getD 0

theorem cell_eq {A : Type} [Zero A] {rows : List (List A)} {row : List A} {i k : Nat} {x : A}
    (found : rows[i]? = some row) (found' : row[k]? = some x) : cell rows i k = x := by
  rw [cell, found, Option.getD_some, found', Option.getD_some]

omit [ExactScalar F] in
theorem sum_zipWith {A B M : Type} [AddCommMonoid M] {xs : List A} {ys : List B}
    (f : A → B → M) (x : A) (y : B) (same : xs.length = ys.length) :
    (List.zipWith f xs ys).sum =
      ∑ i ∈ Finset.range xs.length, f ((xs[i]?).getD x) ((ys[i]?).getD y) := by
  induction xs generalizing ys with
  | nil => simp
  | cons a xs ih =>
    cases ys with
    | nil => cases same
    | cons b ys =>
      rw [List.zipWith_cons_cons, List.sum_cons, List.length_cons, Finset.sum_range_succ', add_comm,
        ih (Nat.succ.inj same)]
      rfl

/-- A reverse sweep that keeps the pairing succeeds with a partial of each order for each input, and
these pair as the weights do. -/
theorem Varies.reverse_of (varies : e.Varies q lifted seed c)
    (adjoint : e.Adjoint Base.isAllZero q (fun _ p => p.size = q) (fun _ p => p.size = q)
      (pairedWith q c))
    {weights : List (List F)} (accepts : e.AcceptsReverse q weights) :
    ∃ partials, e.reverse q weights = .ok partials ∧
      (partials.length = e.numInputs ∧ ∀ p ∈ partials, p.length = q) ∧
      ∑ i ∈ Finset.range e.numOutputs, ∑ k ∈ Finset.range q,
          cell weights i k * (c ((e.outputs[i]?).getD 0) k).snd =
        ∑ j ∈ Finset.range e.numInputs, ∑ k ∈ Finset.range q, cell partials j k * (c j k).snd := by
  have positive := Nat.pos_of_ne_zero accepts.positive
  have count : e.outputs.length = weights.length := accepts.count.symm
  obtain ⟨found, done, carries, sum⟩ := reverseWith_spec varies.wellFormed
    adjoint accepts (List.forall₂_iff_get.2 ⟨count, fun i _ inside =>
      List.size_toArray.trans (accepts.lengths _ (List.getElem_mem inside))⟩)
  have inputs := varies.wellFormed.tape.inputs_le
  have there : ∀ j < e.numInputs, found[j]? = some ((found[j]?).getD #[]) := by
    intro j below
    have inside : j < found.size := by
      rw [carries.size]
      exact lt_of_lt_of_le below inputs
    rw [Array.getElem?_eq_getElem inside]
    rfl
  refine ⟨(List.range e.numInputs).map fun j => ((found[j]?).getD #[]).toList, ?_, ⟨?_, ?_⟩, ?_⟩
  · refine done.trans (mapM_eq_map fun j member => ?_)
    have below := List.mem_range.1 member
    rw [varies.coeff positive (lt_of_lt_of_le below inputs), ok_bind,
      fetch_eq_ok_iff.2 (there j below), ok_bind]
    exact (mapM_eq_map (g := id) fun _ _ => rfl).trans (congrArg _ (List.map_id _))
  · rw [List.length_map, List.length_range]
  · intro p member
    obtain ⟨j, among, rfl⟩ := List.mem_map.1 member
    exact Array.length_toList.trans (carries.valid j _ (there j (List.mem_range.1 among)))
  · rw [sum_zipWith _ 0 [] count] at sum
    refine (Eq.trans ?_ sum.symm).trans ?_
    · refine Finset.sum_congr rfl fun i _ => Finset.sum_congr rfl fun k _ => ?_
      show cell weights i k * _ = (((weights[i]?).getD []).toArray[k]?).getD 0 * _
      rw [List.getElem?_toArray]
      rfl
    · refine Finset.sum_congr rfl fun j member => ?_
      unfold pairedWith pairing
      refine Finset.sum_congr rfl fun k _ => ?_
      have row : ((List.range e.numInputs).map fun j => ((found[j]?).getD #[]).toList)[j]? =
          some ((found[j]?).getD #[]).toList := by
        rw [List.getElem?_map, List.getElem?_range (Finset.mem_range.1 member)]
        rfl
      show (((found[j]?).getD #[])[k]?).getD 0 * _ = cell _ j k * _
      rw [cell, row, Option.getD_some, Array.getElem?_toList]

theorem Varies.reverse_shaped (varies : e.Varies q lifted seed c) (regular : e.Regular)
    {weights : List (List F)} (accepts : e.AcceptsReverse q weights) :
    ∃ partials, e.reverse q weights = .ok partials ∧
      (partials.length = e.numInputs ∧ ∀ p ∈ partials, p.length = q) ∧
      ∑ i ∈ Finset.range e.numOutputs, ∑ k ∈ Finset.range q,
          cell weights i k * (c ((e.outputs[i]?).getD 0) k).snd =
        ∑ j ∈ Finset.range e.numInputs, ∑ k ∈ Finset.range q, cell partials j k * (c j k).snd := by
  have positive := Nat.pos_of_ne_zero accepts.positive
  refine varies.reverse_of (varies.adjoint positive (fun i op a found => ?_)
    fun i op a b found => ?_) accepts
  · exact op.pullback_of positive (fun k low => varies.unary found low)
      fun _ => varies.regular_unary positive regular found
  · exact op.pullback_of positive (fun k low => varies.binary found low)
      (varies.regular_binary positive regular found)

theorem Varies.reverse (varies : e.Varies q lifted seed c) (regular : e.Regular)
    {weights : List (List F)} (accepts : e.AcceptsReverse q weights) :
    ∃ partials, e.reverse q weights = .ok partials ∧
      ∑ i ∈ Finset.range e.numOutputs, ∑ k ∈ Finset.range q,
          cell weights i k * (c ((e.outputs[i]?).getD 0) k).snd =
        ∑ j ∈ Finset.range e.numInputs, ∑ k ∈ Finset.range q, cell partials j k * (c j k).snd := by
  obtain ⟨partials, done, _, same⟩ := varies.reverse_shaped regular accepts
  exact ⟨partials, done, same⟩

/-- The differential of a seed is its perturbation. -/
theorem Varies.snd_input {rows shifts : List (List F)}
    (varies : e.Varies q lifted (fun k => ((perturbed rows shifts)[k]?).getD []) c)
    (shapes : List.Forall₂ (fun x dx => x.length = dx.length) rows shifts)
    (orders : q ≤ rows.length) {j k : Nat} (input : j < e.numInputs) (below : k < q) :
    (c j k).snd = cell shifts k j := by
  have inside : j < e.tape.size := lt_of_lt_of_le input varies.wellFormed.tape.inputs_le
  obtain ⟨entry, found⟩ := Tape.exists_entry inside
  obtain rfl := (varies.wellFormed.tape.inputs j entry found).2 input
  have read := (varies.holds k below j inside).input ((varies.lifts.entry j).trans found)
  obtain ⟨x, dx, _, there, _, seeds⟩ := getElem?_perturbed shapes (lt_of_lt_of_le below orders)
  rw [seeds, Option.getD_some, List.getElem?_zipWith] at read
  cases left : x[j]? with
  | none => rw [left] at read; cases read
  | some u =>
    cases right : dx[j]? with
    | none => rw [left, right] at read; cases read
    | some du =>
      rw [left, right] at read
      rw [← Option.some.inj read, cell_eq there right]
      rfl

/-- After a run along one direction a reverse sweep through all its orders succeeds.  Whatever the
perturbations of the seeds, the same run over dual numbers, on a tape with the same entries,
succeeds as well and gives the same answers with their differentials; and the weights paired with
the differentials of the outputs are the partials paired with the perturbations. -/
theorem reverse_paired {e e' : Evaluator F} {rows weights : List (List F)}
    {answers : List (List (List F))} (recorded : e.RecordedOfBuiltIns) (positive : rows ≠ [])
    (done : forwardFrom 0 (rows.map ([·])) e = (.ok answers, e')) (regular : e'.Regular)
    (count : weights.length = e'.numOutputs) (orders : ∀ w ∈ weights, w.length = rows.length) :
    (∃ lifted, e.tape.Lifts lifted) ∧
    ∃ partials, e'.reverse rows.length weights = .ok partials ∧
      ∀ shifts lifted, List.Forall₂ (fun x dx => x.length = dx.length) rows shifts →
        e.tape.Lifts lifted →
        ∃ (ys : List (List (DualNumber F))) (e'' : Evaluator (DualNumber F)),
          forwardFrom 0 ((perturbed rows shifts).map ([·])) (.ofTape lifted e.outputs) =
            (.ok (ys.map ([·])), e'') ∧
          answers = ys.map (fun y => [y.map TrivSqZeroExt.fst]) ∧
          ∑ i ∈ Finset.range e'.numOutputs, ∑ k ∈ Finset.range rows.length,
              cell weights i k * (cell ys k i).snd =
            ∑ j ∈ Finset.range e'.numInputs, ∑ k ∈ Finset.range rows.length,
              cell partials j k * cell shifts k j := by
  have wf := recorded.recorded.wellFormed
  have builtIns := recorded.onlyBuiltIns
  have ran := forwardFrom_zero wf done
  have along : 1 < rows.length → e'.numDirections = 1 := by
    intro higher
    exact (ran.directions 1 [rows[1]] (by simp) (by simp [higher])).symm
  have accepts : e'.AcceptsReverse rows.length weights := {
    positive := fun none => positive (List.length_eq_zero_iff.1 none)
    orders := by simpa using ran.cached.orders
    directions := along
    count := count
    lengths := orders }
  -- some perturbations, to see that the sweep succeeds; its outcome does not depend on them
  obtain ⟨lifted, lifts⟩ := Tape.exists_lifts builtIns
  obtain ⟨_, _, _, _, varies⟩ := forwardFrom_lifted wf builtIns positive ran lifts
    (List.forall₂_same.2 fun x _ => rfl :
      List.Forall₂ (fun x dx => x.length = dx.length) rows rows)
  obtain ⟨partials, swept, _⟩ := varies.reverse regular accepts
  refine ⟨⟨lifted, lifts⟩, partials, swept, fun shifts lifted shapes lifts => ?_⟩
  obtain ⟨found, e'', done', ran', varies⟩ :=
    forwardFrom_lifted wf builtIns positive ran lifts shapes
  obtain ⟨partials', swept', paired⟩ := varies.reverse regular accepts
  obtain rfl : partials = partials' := Except.ok.inj (swept.symm.trans swept')
  have length : (perturbed rows shifts).length = rows.length := by
    simp [perturbed, shapes.length_eq]
  refine ⟨(List.range rows.length).map fun k => e.outputs.map fun y => e''.table.value y k 0, e'',
    ?_, ?_, ?_⟩
  · rw [done', ran'.answers_eq, length, List.map_map]
    rfl
  · rw [ran.answers_eq, List.map_map]
    refine List.map_congr_left fun k member => congrArg (fun y => [y]) ?_
    rw [List.map_map]
    refine List.map_congr_left fun y among => ?_
    exact (varies.reals k (List.mem_range.1 member) y (ran.tape ▸ wf.outputs y among)).symm
  · refine (Finset.sum_congr rfl fun i among => Finset.sum_congr rfl fun k member => ?_).trans
      (paired.trans
        (Finset.sum_congr rfl fun j among => Finset.sum_congr rfl fun k member => ?_))
    · have inside : i < e.outputs.length := ran.outputs ▸ Finset.mem_range.1 among
      rw [cell_eq (i := k) (k := i) (by
          rw [List.getElem?_map, List.getElem?_range (Finset.mem_range.1 member)]
          rfl) (by
          rw [List.getElem?_map, List.getElem?_eq_getElem inside]
          rfl), ran.outputs, List.getElem?_eq_getElem inside]
      rfl
    · rw [varies.snd_input shapes le_rfl (Finset.mem_range.1 among) (Finset.mem_range.1 member)]

/-- The logarithm at two, through order one. -/
theorem reverse_paired_ln :
    ∃ (f : Program.Frozen ℝ) (answers : List (List (List ℝ))) (e' : Evaluator ℝ),
      Program.freeze Registry.builtins 7 [2] [.unary .ln 0] [1] = .ok f ∧
      forwardFrom 0 [[[2]], [[1]]] f.evaluator = (.ok answers, e') ∧
      ∃ partials, e'.reverse 2 [[0, 1]] = .ok partials ∧
        ∀ lifted, f.evaluator.tape.Lifts lifted →
          ∃ (ys : List (List (DualNumber ℝ))) (e'' : Evaluator (DualNumber ℝ)),
            forwardFrom 0 [[[perturb 2 3]], [[perturb 1 5]]] (.ofTape lifted [1]) =
              (.ok (ys.map ([·])), e'') ∧
            (cell ys 1 0).snd = cell partials 0 0 * 3 + cell partials 0 1 * 5 := by
  let tape : Tape ℝ := {
    id := 7
    nodes := #[⟨.input, 2⟩, ⟨.unary .ln 0, Real.log 2⟩]
    numInputs := 1
    atomics := #[] }
  have frozen : Program.freeze Registry.builtins 7 [2] [.unary .ln 0] [1] =
      .ok ⟨[Real.log 2], [.unary .ln 0], .ofTape tape [1]⟩ := rfl
  have recorded : (Evaluator.ofTape tape [1]).RecordedOfBuiltIns :=
    ⟨_, 7, [2], _, [1], _, Registry.builtins_faithful, by simp [Step.Foreign],
      by simp [Step.CallsBuiltIns], frozen, .refl⟩
  have passing : tape.Passing := Tape.passing_of_no_call (by simp [tape])
  obtain ⟨answers, e', done⟩ := forwardFrom_scalar (k := 0)
    recorded.recorded.wellFormed passing
    (show ∀ seed ∈ [[2], [1]], _ by simp [numInputs, ofTape, tape]) (Nat.zero_le _)
    (by omega)
  have ran := forwardFrom_zero recorded.recorded.wellFormed done
  have input : some (2 : ℝ) = some (e'.table.value 0 0 0) :=
    (ran.holds 0 (by simp) 0 (by simp [ofTape, tape, Tape.size])).input rfl
  have regular : e'.Regular := by
    rw [Regular, ran.tape]
    intro i entry found
    obtain ⟨v, node⟩ := Tape.entry_eq_ok.1 found
    rcases i with _ | _ | i
    · obtain ⟨rfl, _⟩ := Node.mk.inj (Option.some.inj node)
      trivial
    · obtain ⟨rfl, _⟩ := Node.mk.inj (Option.some.inj node)
      show e'.table.value 0 0 0 ≠ 0
      rw [← Option.some.inj input]
      exact two_ne_zero
    · cases node
  obtain ⟨_, partials, swept, paired⟩ := reverse_paired recorded (by simp)
    done regular (show [[0, 1]].length = _ from (congrArg List.length ran.outputs).symm) (by simp)
  refine ⟨_, answers, e', frozen, done, partials, swept, fun lifted lifts => ?_⟩
  obtain ⟨ys, e'', done', _, sum⟩ := paired [[3], [5]] lifted (by simp) lifts
  refine ⟨ys, e'', done', ?_⟩
  have outputs : e'.numOutputs = 1 := congrArg List.length ran.outputs
  have inputs : e'.numInputs = 1 := congrArg Tape.numInputs ran.tape
  rw [outputs, inputs] at sum
  simpa [Finset.sum_range_succ, cell] using sum

end Evaluator

end TaylorTape
