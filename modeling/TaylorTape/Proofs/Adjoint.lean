import Mathlib.Algebra.BigOperators.Ring.Finset
import Mathlib.Algebra.BigOperators.Intervals
import TaylorTape.Proofs.Forward
import TaylorTape.Evaluator.Reverse

/-!
A reverse sweep keeps a pairing.

Every variable has a way to pair its partials with a perturbation of its coefficients.  If each entry
passes on as much as it has been given, in this pairing, then what the variables on the frontier
carry stays the same through the sweep: at its start they carry the weights of the outputs, and at
its end only the inputs are left.
-/

set_option autoImplicit false
set_option relaxedAutoImplicit false

namespace TaylorTape

variable {B F : Type} [Scalar F] [Base B F]

namespace Tape

variable {tape : Tape B} {i v : Nat} {e : Entry}

open Classical in
/-- The variables whose partials are still of use in front of a position: those that are produced
before it, and the inputs. -/
noncomputable def frontier (tape : Tape B) (i : Nat) : Finset Nat :=
  (Finset.range tape.size).filter fun v => v < tape.numInputs ∨ tape.Produced i v

omit [Scalar F] [Base B F] in
private theorem mem_frontier : v ∈ tape.frontier i ↔
    v < tape.size ∧ (v < tape.numInputs ∨ tape.Produced i v) := by
  simp [frontier]

omit [Scalar F] [Base B F] in
private theorem frontier_zero (wf : tape.WellFormed) :
    tape.frontier 0 = Finset.range tape.numInputs := by
  ext v
  have := wf.inputs_le
  rw [mem_frontier, Finset.mem_range]
  constructor
  · rintro ⟨_, input | made⟩
    · exact input
    · exact absurd made (not_produced_zero tape v)
  · intro input
    exact ⟨by omega, .inl input⟩

omit [Scalar F] [Base B F] in
private theorem frontier_size (wf : tape.WellFormed) :
    tape.frontier tape.size = Finset.range tape.size := by
  ext v
  rw [mem_frontier, Finset.mem_range]
  exact ⟨fun both => both.1, fun inside => ⟨inside, .inr (wf.produced_of_lt le_rfl inside)⟩⟩

omit [Scalar F] [Base B F] in
private theorem operand_mem_frontier (wf : tape.WellFormed) (found : tape.entry i = .ok e) {a : Nat}
    (reads : a ∈ e.operands) : a ∈ tape.frontier i := by
  have made := wf.produced_operand found reads
  exact mem_frontier.2 ⟨wf.lt_of_produced made, .inr made⟩

omit [Scalar F] [Base B F] in
private theorem frontier_succ_input (wf : tape.WellFormed) (found : tape.entry i = .ok .input) :
    tape.frontier (i + 1) = tape.frontier i := by
  ext v
  have input := (wf.inputs i _ found).1 rfl
  rw [mem_frontier, mem_frontier, produced_succ found]
  constructor
  · rintro ⟨inside, low | made | ⟨low, high⟩⟩
    · exact ⟨inside, .inl low⟩
    · exact ⟨inside, .inr made⟩
    · have : v < i + 1 := high
      exact ⟨inside, .inl (by omega)⟩
  · rintro ⟨inside, low | made⟩
    · exact ⟨inside, .inl low⟩
    · exact ⟨inside, .inr (.inl made)⟩

omit [Scalar F] [Base B F] in
private theorem sum_frontier_succ {M : Type} [AddCommMonoid M] (wf : tape.WellFormed)
    (found : tape.entry i = .ok e) (other : e ≠ .input) (f : Nat → M) :
    ∑ v ∈ tape.frontier (i + 1), f v =
      ∑ v ∈ tape.frontier i, f v + ((List.range' i e.span).map f).sum := by
  have late : tape.numInputs ≤ i := by
    by_contra early
    exact other ((wf.inputs i e found).2 (by omega))
  have room := wf.span_le found
  have split : tape.frontier (i + 1) = tape.frontier i ∪ Finset.Ico i (i + e.span) := by
    ext v
    rw [Finset.mem_union, mem_frontier, mem_frontier, Finset.mem_Ico, produced_succ found]
    constructor
    · rintro ⟨inside, low | made | own⟩
      · exact .inl ⟨inside, .inl low⟩
      · exact .inl ⟨inside, .inr made⟩
      · exact .inr own
    · rintro (⟨inside, low | made⟩ | own)
      · exact ⟨inside, .inl low⟩
      · exact ⟨inside, .inr (.inl made)⟩
      · exact ⟨by omega, .inr (.inr own)⟩
  have apart : Disjoint (tape.frontier i) (Finset.Ico i (i + e.span)) := by
    rw [Finset.disjoint_left]
    intro v before own
    obtain ⟨low, high⟩ := Finset.mem_Ico.1 own
    rcases (mem_frontier.1 before).2 with input | made
    · omega
    · exact wf.not_produced found low high made
  rw [split, Finset.sum_union apart]
  refine congrArg _ ?_
  rw [Finset.sum_Ico_eq_sum_range, Nat.add_sub_cancel_left]
  generalize e.span = n
  induction n with
  | zero => simp
  | succ n ih => rw [Finset.sum_range_succ, ih, List.range'_concat]; simp

end Tape

namespace Evaluator

/-- The shares that an entry passes on to its operands, given the partials of what it produces. -/
def passed (e : Evaluator B) (q i : Nat) (entry : Entry) (own : List (Series B)) :
    Except Error (List (Series B)) :=
  match entry, own with
  | .unary op a, [pz] => do
    let sa ← e.table.series a q 0
    let z ← e.table.series i q 0
    let pa ← (op.pullback sa z pz (Series.zeros q)).mapError (.op i op.name)
    return [pa]
  | .binary op a b, [pz] => do
    let sa ← e.table.series a q 0
    let sb ← e.table.series b q 0
    let z ← e.table.series i q 0
    let (pa, pb) ←
      (op.pullback sa sb z pz (Series.zeros q) (Series.zeros q)).mapError (.op i op.name)
    return [pa, pb]
  | .call place args n, own => do
    let callee ← fetch e.tape.atomics place
    let xs ← args.mapM fun a => e.table.series a q 0
    let ys ← (List.range' i n).mapM fun j => e.table.series j q 0
    Tape.answered callee i (q - 1) (callee.op.reverse (q - 1) xs ys own)
  | _, _ => return []

/-- A step of a sweep adds the shares to the operands, unless the entry is left out. -/
theorem retreat_eq {e : Evaluator B} {idle : B → Bool} {q i : Nat} {ps : Array (Series B)}
    {entry : Entry} {own : List (Series B)} (found : e.tape.entry i = .ok entry)
    (read : (List.range' i entry.span).mapM (fetch ps) = .ok own) :
    e.retreat idle q ps i =
      if own.all (·.all idle) then .ok ps
      else e.passed q i entry own >>= fun shares =>
        (entry.operands.zip shares).foldlM (fun ps (v, x) => e.accumulate ps v x) ps := by
  have single : entry.span = 1 → ∃ pz, own = [pz] ∧ fetch ps i = .ok pz := by
    intro one
    rw [one, List.range'_one] at read
    obtain ⟨pz, here, rest⟩ := bind_eq_ok.1 read
    exact ⟨pz, (pure_eq_ok.1 rest).symm, here⟩
  unfold retreat
  rw [found, ok_bind]
  cases entry with
  | input | const | result owner => exact (ite_self _).symm
  | unary op a =>
    obtain ⟨pz, rfl, here⟩ := single rfl
    simp only [here, ok_bind, List.all_cons, List.all_nil, Bool.and_true]
    refine if_congr Iff.rfl rfl ?_
    simp [passed, Entry.operands]
  | binary op a b =>
    obtain ⟨pz, rfl, here⟩ := single rfl
    simp only [here, ok_bind, List.all_cons, List.all_nil, Bool.and_true]
    refine if_congr Iff.rfl rfl ?_
    simp [passed, Entry.operands]
  | call place args n =>
    have read : (List.range' i n).mapM (fetch ps) = .ok own := read
    simp only [read, ok_bind]
    refine if_congr Iff.rfl rfl ?_
    simp [passed, Entry.operands]

variable {M : Type} [AddCommMonoid M]

/-- The partials of a variable with a share added. -/
def gathered (e : Evaluator B) (v : Nat) (p share : Series B) : Except Error (Series B) := do
  let shape ← e.table.coeff v 0 0
  (List.range share.size).foldlM
    (fun s k => do s.addAt k (Base.reduceLike (← share.coeff k) shape)) p

/-- Adding a share changes the partials of its variable only, and not even those of a parameter. -/
theorem accumulate_eq {e : Evaluator B} {ps : Array (Series B)} {v : Nat} {entry : Entry}
    {p x : Series B} (found : e.tape.entry v = .ok entry) (there : ps[v]? = some p) :
    e.accumulate ps v x = if entry = .const then .ok ps else e.gathered v p x >>= store ps v := by
  unfold accumulate gathered
  rw [found, ok_bind]
  refine if_congr Iff.rfl rfl ?_
  cases e.table.coeff v 0 0 with
  | error err => rfl
  | ok shape => rw [ok_bind, ok_bind, fetch_eq_ok_iff.2 there, ok_bind]

/-- A way to pair partials with perturbations that every step of a reverse sweep keeps.  `Valid`
says what the partials of a variable can be, and `Share` what can be passed on to it. -/
structure Adjoint (e : Evaluator B) (idle : B → Bool) (q : Nat)
    (Valid Share : Nat → Series B → Prop) (φ : Nat → Series B → M) : Prop where
  zeros : ∀ v < e.tape.size, Valid v (Series.zeros q) ∧ φ v (Series.zeros q) = 0
  /-- What is gathered adds up. -/
  gather : ∀ v < e.tape.size, ∀ p s, Valid v p → Share v s →
    ∃ p', e.gathered v p s = .ok p' ∧ Valid v p' ∧ φ v p' = φ v p + φ v s
  /-- A parameter is not perturbed. -/
  const : ∀ v p, e.tape.entry v = .ok .const → φ v p = 0
  /-- What is left out carries nothing. -/
  skip : ∀ v < e.tape.size, ∀ p, Valid v p → p.all idle = true → φ v p = 0
  unary : ∀ i op a pz, e.tape.entry i = .ok (.unary op a) → Valid i pz → pz.all idle = false →
    ∃ x z pa, e.table.series a q 0 = .ok x ∧ e.table.series i q 0 = .ok z ∧
      op.pullback x z pz (Series.zeros q) = .ok pa ∧ Share a pa ∧ φ a pa = φ i pz
  binary : ∀ i op a b pz, e.tape.entry i = .ok (.binary op a b) → Valid i pz →
    pz.all idle = false →
    ∃ x y z pa pb, e.table.series a q 0 = .ok x ∧ e.table.series b q 0 = .ok y ∧
      e.table.series i q 0 = .ok z ∧
      op.pullback x y z pz (Series.zeros q) (Series.zeros q) = .ok (pa, pb) ∧
      Share a pa ∧ Share b pb ∧ φ a pa + φ b pb = φ i pz
  call : ∀ i place args n adjoints, e.tape.entry i = .ok (.call place args n) →
    List.Forall₂ Valid (List.range' i n) adjoints → adjoints.all (·.all idle) = false →
    ∃ callee xs ys shares, fetch e.tape.atomics place = .ok callee ∧
      args.mapM (fun a => e.table.series a q 0) = .ok xs ∧
      (List.range' i n).mapM (fun j => e.table.series j q 0) = .ok ys ∧
      callee.op.reverse (q - 1) xs ys adjoints = .ok (some shares) ∧
      List.Forall₂ Share args shares ∧
      (List.zipWith φ args shares).sum = (List.zipWith φ (List.range' i n) adjoints).sum

/-- The partials of a sweep: one valid series for each variable. -/
structure Carries (e : Evaluator B) (Valid : Nat → Series B → Prop) (partials : Array (Series B)) :
    Prop where
  size : partials.size = e.tape.size
  valid : ∀ (v : Nat) p, partials[v]? = some p → Valid v p

/-- What some variables carry. -/
def carried (φ : Nat → Series B → M) (partials : Array (Series B)) (vs : Finset Nat) : M :=
  ∑ v ∈ vs, φ v ((partials[v]?).getD #[])

variable {e : Evaluator B} {idle : B → Bool} {q : Nat} {Valid Share : Nat → Series B → Prop}
  {φ : Nat → Series B → M} {partials : Array (Series B)}

theorem Carries.exists_partials (carries : e.Carries Valid partials) {v : Nat}
    (inside : v < e.tape.size) : ∃ p, partials[v]? = some p ∧ Valid v p := by
  have room : v < partials.size := carries.size ▸ inside
  have there : partials[v]? = some partials[v] := Array.getElem?_eq_getElem room
  exact ⟨_, there, carries.valid v _ there⟩

private theorem accumulate_spec (adj : e.Adjoint idle q Valid Share φ)
    (carries : e.Carries Valid partials)
    {v : Nat} (inside : v < e.tape.size) {s : Series B} (share : Share v s) :
    ∃ next, e.accumulate partials v s = .ok next ∧ e.Carries Valid next ∧
      ∀ vs : Finset Nat, v ∈ vs → carried φ next vs = carried φ partials vs + φ v s := by
  obtain ⟨entry, found⟩ := Tape.exists_entry inside
  obtain ⟨p, there, former⟩ := carries.exists_partials inside
  obtain ⟨p', done, valid, sum⟩ := adj.gather v inside p s former share
  rw [accumulate_eq found there]
  by_cases const : entry = .const
  · subst const
    refine ⟨partials, if_pos rfl, carries, fun vs _ => ?_⟩
    rw [adj.const v s found, add_zero]
  · refine ⟨partials.set v p' (carries.size ▸ inside), ?_, ?_, fun vs member => ?_⟩
    · rw [if_neg const, done, ok_bind]
      exact store_eq_ok_iff.2 ⟨_, rfl⟩
    · refine ⟨by rw [Array.size_set, carries.size], fun u p here => ?_⟩
      rw [Array.getElem?_set] at here
      split at here
      · rename_i same
        subst same
        obtain rfl := Option.some.inj here
        exact valid
      · exact carries.valid u p here
    · unfold carried
      rw [← Finset.add_sum_erase vs _ member, ← Finset.add_sum_erase vs _ member]
      have others : ∀ u ∈ vs.erase v, φ u (((partials.set v p' (carries.size ▸ inside))[u]?).getD #[]) =
          φ u ((partials[u]?).getD #[]) := by
        intro u member'
        rw [Array.getElem?_set, if_neg (Ne.symm (Finset.ne_of_mem_erase member'))]
      rw [Finset.sum_congr rfl others, Array.getElem?_set_self, there, Option.getD_some,
        Option.getD_some, sum, add_right_comm]

private theorem foldlM_accumulate (adj : e.Adjoint idle q Valid Share φ) {targets : List Nat}
    {shares : List (Series B)} (inside : ∀ v ∈ targets, v < e.tape.size)
    (all : List.Forall₂ Share targets shares) (carries : e.Carries Valid partials) :
    ∃ next, (targets.zip shares).foldlM (fun partials (v, s) => e.accumulate partials v s) partials =
        .ok next ∧ e.Carries Valid next ∧
      ∀ vs : Finset Nat, (∀ v ∈ targets, v ∈ vs) →
        carried φ next vs = carried φ partials vs + (List.zipWith φ targets shares).sum := by
  induction all generalizing partials with
  | nil => exact ⟨partials, rfl, carries, fun vs _ => by simp⟩
  | cons first rest ih =>
    rename_i v s targets shares
    obtain ⟨mid, done, carries₁, sum₁⟩ :=
      accumulate_spec adj carries (inside v List.mem_cons_self) first
    obtain ⟨next, done', carries₂, sum₂⟩ :=
      ih (fun u member => inside u (List.mem_cons_of_mem _ member)) carries₁
    refine ⟨next, ?_, carries₂, fun vs among => ?_⟩
    · rw [List.zip_cons_cons, List.foldlM_cons]
      exact bind_eq_ok.2 ⟨mid, done, done'⟩
    · rw [sum₂ vs fun u member => among u (List.mem_cons_of_mem _ member),
        sum₁ vs (among v List.mem_cons_self), List.zipWith_cons_cons, List.sum_cons, add_assoc]

/-- An entry passes on as much as it has been given. -/
private theorem passed_spec (adj : e.Adjoint idle q Valid Share φ) {i : Nat} {entry : Entry}
    (found : e.tape.entry i = .ok entry) (other : entry ≠ .input) {own : List (Series B)}
    (valid : List.Forall₂ Valid (List.range' i entry.span) own)
    (busy : own.all (·.all idle) = false) :
    ∃ shares, e.passed q i entry own = .ok shares ∧
      List.Forall₂ Share entry.operands shares ∧
      (List.zipWith φ entry.operands shares).sum =
        (List.zipWith φ (List.range' i entry.span) own).sum := by
  have single : entry.span = 1 → ∃ pz, own = [pz] ∧ Valid i pz ∧ pz.all idle = false := by
    intro one
    rw [one, List.range'_one] at valid
    cases valid with
    | cons head tail =>
      cases tail
      exact ⟨_, rfl, head, by simpa using busy⟩
  cases entry with
  | input => exact absurd rfl other
  | const =>
    obtain ⟨pz, rfl, _, _⟩ := single rfl
    refine ⟨[], rfl, .nil, ?_⟩
    simp [Entry.operands, Entry.span, adj.const i pz found]
  | result owner =>
    cases valid
    cases busy
  | unary op a =>
    obtain ⟨pz, rfl, held, idles⟩ := single rfl
    obtain ⟨x, z, pa, left, known, pulled, share, same⟩ := adj.unary i op a pz found held idles
    refine ⟨[pa], ?_, .cons share .nil, ?_⟩
    · simp only [passed, left, known, pulled, Except.mapError, ok_bind]
      rfl
    · simpa [Entry.operands, Entry.span] using same
  | binary op a b =>
    obtain ⟨pz, rfl, held, idles⟩ := single rfl
    obtain ⟨x, y, z, pa, pb, left, right, known, pulled, share, share', same⟩ :=
      adj.binary i op a b pz found held idles
    refine ⟨[pa, pb], ?_, .cons share (.cons share' .nil), ?_⟩
    · simp only [passed, left, right, known, pulled, Except.mapError, ok_bind]
      rfl
    · simpa [Entry.operands, Entry.span] using same
  | call place args n =>
    obtain ⟨callee, xs, ys, shares, table, left, right, pulled, all, same⟩ :=
      adj.call i place args n own found valid busy
    refine ⟨shares, ?_, all, same⟩
    simp only [passed, table, left, right, pulled, Tape.answered, ok_bind]

/-- A step of a reverse sweep keeps what the frontier carries. -/
private theorem retreat_spec (wf : e.WellFormed) (adj : e.Adjoint idle q Valid Share φ)
    (carries : e.Carries Valid partials) {i : Nat} (inside : i < e.tape.size) :
    ∃ next, e.retreat idle q partials i = .ok next ∧ e.Carries Valid next ∧
      carried φ next (e.tape.frontier i) = carried φ partials (e.tape.frontier (i + 1)) := by
  obtain ⟨entry, found⟩ := Tape.exists_entry inside
  by_cases input : entry = .input
  · subst input
    refine ⟨partials, ?_, carries, by rw [Tape.frontier_succ_input wf.tape found]⟩
    unfold retreat
    rw [found, ok_bind]
    rfl
  have room : i + entry.span ≤ e.tape.size := wf.tape.span_le found
  have each : ∀ j ∈ List.range' i entry.span,
      j < e.tape.size ∧ partials[j]? = some ((partials[j]?).getD #[]) := by
    intro j member
    obtain ⟨low, high⟩ := List.mem_range'_1.1 member
    have below : j < partials.size := by
      rw [carries.size]
      omega
    exact ⟨by omega, by rw [Array.getElem?_eq_getElem below]; rfl⟩
  set own := (List.range' i entry.span).map fun j => (partials[j]?).getD #[] with ownEq
  have read : (List.range' i entry.span).mapM (fetch partials) = .ok own :=
    mapM_eq_map fun j member => fetch_eq_ok_iff.2 (each j member).2
  have valid : List.Forall₂ Valid (List.range' i entry.span) own := by
    rw [ownEq, List.forall₂_map_right_iff, List.forall₂_same]
    exact fun j member => carries.valid j _ (each j member).2
  -- what the entry produces leaves the frontier
  have whole : carried φ partials (e.tape.frontier (i + 1)) =
      carried φ partials (e.tape.frontier i) +
        (List.zipWith φ (List.range' i entry.span) own).sum := by
    unfold carried
    rw [Tape.sum_frontier_succ wf.tape found input, ownEq, List.zipWith_map_right,
      List.zipWith_self]
  rw [retreat_eq found read]
  cases idles : own.all (·.all idle) with
  | true =>
    refine ⟨partials, rfl, carries, ?_⟩
    have nothing : (List.zipWith φ (List.range' i entry.span) own).sum = 0 := by
      rw [ownEq, List.zipWith_map_right, List.zipWith_self]
      refine List.sum_eq_zero fun m member => ?_
      obtain ⟨j, among, rfl⟩ := List.mem_map.1 member
      exact adj.skip j (each j among).1 _ (carries.valid j _ (each j among).2)
        (List.all_eq_true.1 idles _ (List.mem_map_of_mem among))
    rw [whole, nothing, add_zero]
  | false =>
    obtain ⟨shares, done, all, same⟩ := passed_spec adj found input valid idles
    have operand : ∀ a ∈ entry.operands, a ∈ e.tape.frontier i := fun a reads =>
      Tape.operand_mem_frontier wf.tape found reads
    obtain ⟨next, added, carries', sum⟩ := foldlM_accumulate adj
      (fun a reads => (Tape.mem_frontier.1 (operand a reads)).1) all carries
    refine ⟨next, ?_, carries', ?_⟩
    · rw [done]
      exact added
    · rw [sum _ operand, same, whole]

/-- The requests for a reverse sweep that are accepted. -/
structure AcceptsReverse (e : Evaluator B) (q : Nat) (weights : List (List B)) : Prop where
  positive : q ≠ 0
  orders : q ≤ e.numOrders
  directions : 1 < q → e.numDirections = 1
  count : weights.length = e.numOutputs
  lengths : ∀ w ∈ weights, w.length = q

omit [Scalar F] [Base B F] in
theorem checkReverse_eq_ok {weights : List (List B)} :
    e.checkReverse q weights = .ok () ↔ e.AcceptsReverse q weights := by
  have scan : weights.find? (·.length != q) = none ↔ ∀ w ∈ weights, w.length = q := by
    simp
  unfold checkReverse
  rw [refuse_eq_ok, refuse_eq_ok, refuse_eq_ok, refuse_eq_ok]
  cases odd : weights.find? (·.length != q) with
  | some w =>
    have no : ¬ ∀ w ∈ weights, w.length = q := fun all => by
      rw [scan.2 all] at odd
      cases odd
    constructor
    · intro ⟨_, _, _, _, done⟩
      cases done
    · intro accepts
      exact absurd accepts.lengths no
  | none =>
    constructor
    · rintro ⟨positive, orders, directions, count, _⟩
      exact ⟨positive, by omega, by omega, by omega, scan.1 odd⟩
    · rintro ⟨positive, orders, directions, count, lengths⟩
      exact ⟨positive, by omega, by omega, by omega, rfl⟩

theorem acceptsReverse_of_ok {weights px : List (List B)}
    (done : e.reverseWith idle q weights = .ok px) : e.AcceptsReverse q weights := by
  obtain ⟨_, checked, _⟩ := bind_eq_ok.1 done
  exact checkReverse_eq_ok.1 checked

/-- What the inputs receive from partials, in their shapes. -/
def received (e : Evaluator B) (partials : Array (Series B)) : Except Error (List (List B)) :=
  (List.range e.numInputs).mapM fun j => do
    let x0 ← e.table.coeff j 0 0
    (← fetch partials j).toList.mapM fun p => Base.broadcastLike (Base.reduceLike p x0) x0

/-- The partials at the end of a walk back over the tape with given steps, which starts with the
weights of the outputs. -/
def swept (e : Evaluator B)
    (step : Array (Series B) → Nat → Except Error (Array (Series B))) (q : Nat)
    (weights : List (List B)) : Except Error (Array (Series B)) := do
  let weighted ← (e.outputs.zip (weights.map List.toArray)).foldlM
    (fun partials (v, share) => e.accumulate partials v share)
    (Array.replicate e.size (Series.zeros q))
  (List.range e.size).reverse.foldlM step weighted

/-- A reverse sweep checks the request, walks back and delivers. -/
theorem reverseWith_eq (e : Evaluator B) (idle : B → Bool) (q : Nat) (weights : List (List B)) :
    e.reverseWith idle q weights = (do
      e.checkReverse q weights
      e.received (← e.swept (e.retreat idle q) q weights)) := by
  unfold reverseWith swept
  rw [List.zip_map_right, List.foldlM_map]
  simp only [bind_assoc]
  rfl

/-- A reverse sweep leaves with the inputs what the weights of the outputs carry. -/
theorem reverseWith_spec (wf : e.WellFormed) (adj : e.Adjoint idle q Valid Share φ)
    {weights : List (List B)} (accepts : e.AcceptsReverse q weights)
    (shares : List.Forall₂ (fun y w => Share y w.toArray) e.outputs weights) :
    ∃ partials, e.reverseWith idle q weights = e.received partials ∧ e.Carries Valid partials ∧
      carried φ partials (Finset.range e.numInputs) =
        (List.zipWith (fun y w => φ y w.toArray) e.outputs weights).sum := by
  have start : e.Carries Valid (Array.replicate e.size (Series.zeros q)) := by
    refine ⟨Array.size_replicate, fun v p there => ?_⟩
    obtain ⟨inside, rfl⟩ := Array.getElem?_eq_some_iff.1 there
    rw [Array.getElem_replicate]
    rw [Array.size_replicate] at inside
    exact (adj.zeros v inside).1
  have nothing : carried φ (Array.replicate e.size (Series.zeros q))
      (Finset.range e.tape.size) = 0 := by
    refine Finset.sum_eq_zero fun v member => ?_
    have inside : v < e.size := Finset.mem_range.1 member
    rw [Array.getElem?_replicate, if_pos inside]
    exact (adj.zeros v inside).2
  have shares' : List.Forall₂ Share e.outputs (weights.map List.toArray) :=
    List.forall₂_map_right_iff.2 shares
  obtain ⟨weighted, done, carries, sum⟩ := foldlM_accumulate adj wf.outputs shares' start
  obtain ⟨partials, walked, carries', same⟩ := foldlM_down (f := e.retreat idle q) (a := 0)
    (n := e.size) (s := weighted)
    (P := fun i partials => e.Carries Valid partials ∧
      carried φ partials (e.tape.frontier i) = carried φ weighted (Finset.range e.tape.size))
    (fun i s _ high ⟨carries, same⟩ => by
      obtain ⟨next, stepped, carries', kept⟩ :=
        retreat_spec wf adj carries (show i < e.tape.size by rwa [Nat.zero_add] at high)
      exact ⟨next, stepped, carries', kept.trans same⟩)
    ⟨carries, by rw [Nat.zero_add]; exact congrArg _ (Tape.frontier_size wf.tape)⟩
  refine ⟨partials, ?_, carries', ?_⟩
  · have done' : e.swept (e.retreat idle q) q weights = .ok partials := by
      rw [← List.range_eq_range'] at walked
      exact bind_eq_ok.2 ⟨weighted, done, walked⟩
    rw [reverseWith_eq, checkReverse_eq_ok.2 accepts, done']
    rfl
  · rw [Tape.frontier_zero wf.tape] at same
    rw [numInputs, same, sum _ fun y member => Finset.mem_range.2 (wf.outputs y member), nothing,
      zero_add, List.zipWith_map_right]

end Evaluator

end TaylorTape
