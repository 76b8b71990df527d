import TaylorTape.Proofs.Agreement
import TaylorTape.Proofs.Mirror

/-!
Reverse sweeps on a tape and on what is embedded into it.

Where the first orders of the two evaluators are the same, a reverse sweep through these orders gives
every variable the same partials under both of its numbers.  An entry that is left out receives
nothing, for what reads it is left out too, so its partials stay zero and it passes nothing on.
-/

set_option autoImplicit false
set_option relaxedAutoImplicit false

namespace TaylorTape

variable {B F : Type} [Scalar F] [Base B F]

namespace Evaluator

/-- The first orders of the one evaluator are those of the other, under other numbers. -/
structure Reflects (n : Nat) (e' e : Evaluator B) (g : Nat → Nat) : Prop extends Embeds e' e g where
  orders : n ≤ e.numOrders
  orders' : n ≤ e'.numOrders
  directions : 1 < n → e'.numDirections = e.numDirections
  values : ∀ v < e'.tape.size, ∀ k < n, ∀ d, (k = 0 ∨ d < e.numDirections) →
    e'.table.value v k d = e.table.value (g v) k d

variable {e e' : Evaluator B} {g : Nat → Nat} {n q : Nat}

theorem Mirrors.reflects (mirrors : e'.Mirrors e g) : e'.Reflects e.numOrders e g where
  toEmbeds := mirrors.toEmbeds
  orders := le_rfl
  orders' := mirrors.table.orders.ge
  directions _ := mirrors.table.directions
  values v below k low d along := by
    have room := mirrors.wellFormed'.table.orders
    have orders : e'.table.numOrders = e.table.numOrders := mirrors.table.orders
    have low' : k < e.table.numOrders := low
    exact mirrors.table.values v k d ⟨mirrors.wellFormed'.extent ▸ below, by omega,
      mirrors.table.directions ▸ along⟩

private theorem Reflects.coeff_eq (reflects : e'.Reflects n e g) {v k d : Nat}
    (below : v < e'.tape.size) (low : k < n) (along : k = 0 ∨ d < e.numDirections) :
    e'.table.coeff v k d = e.table.coeff (g v) k d := by
  have along' : k = 0 ∨ d < e'.numDirections := by
    by_cases zero : k = 0
    · exact .inl zero
    · exact .inr ((along.resolve_left zero).trans_eq (reflects.directions (by omega)).symm)
  have room := low.trans_le (reflects.orders.trans reflects.wellFormed.table.orders)
  have room' := low.trans_le (reflects.orders'.trans reflects.wellFormed'.table.orders)
  rw [Coefficients.coeff_eq reflects.wellFormed.table ⟨reflects.wellFormed.extent ▸
      reflects.tape.inside below, room, along⟩,
    Coefficients.coeff_eq reflects.wellFormed'.table ⟨reflects.wellFormed'.extent ▸ below, room',
      along'⟩, reflects.values v below k low d along]

private theorem Reflects.series_eq (reflects : e'.Reflects n e g) {v m : Nat}
    (below : v < e'.tape.size)
    (low : m ≤ n) : e'.table.series v m 0 = e.table.series (g v) m 0 := by
  unfold Coefficients.series
  rw [mapM_congr fun k member => reflects.coeff_eq below
    ((List.mem_range.1 member).trans_le low) (.inr reflects.wellFormed.table.directions)]

private theorem Reflects.of_agree {m : Nat} {t t' : Evaluator B} (reflects : e'.Reflects n e g)
    (agree : AgreeBelow m e t) (agree' : AgreeBelow m e' t') (low : m ≤ n) (wf : t.WellFormed)
    (wf' : t'.WellFormed) : t'.Reflects m t g where
  wellFormed := wf
  wellFormed' := wf'
  tape := by
    rw [agree.tape, agree'.tape]
    exact reflects.tape
  outputs := by rw [agree.outputs, agree'.outputs, reflects.outputs]
  orders := agree.orders'
  orders' := agree'.orders'
  directions above := by
    rw [agree.directions above, agree'.directions above, reflects.directions (by omega)]
  values v below k less d along := by
    have below' : v < e'.tape.size := agree'.tape ▸ below
    have along₁ : k = 0 ∨ d < e.numDirections := by
      by_cases zero : k = 0
      · exact .inl zero
      · exact .inr ((along.resolve_left zero).trans_eq (agree.directions (by omega)))
    have along₂ : k = 0 ∨ d < e'.numDirections := by
      by_cases zero : k = 0
      · exact .inl zero
      · exact .inr ((along₁.resolve_left zero).trans_eq (reflects.directions (by omega)).symm)
    rw [agree'.values v below' k less d along₂, reflects.values v below' k (less.trans_le low) d along₁,
      agree.values (g v) (reflects.tape.inside below') k less d along₁]

private theorem agreeBelow_of_accepts {r : Nat} {seeds : List (List B)} (wf : e.WellFormed)
    (accepts : e.Accepts q r seeds) : AgreeBelow q e (forward q r seeds e).2 := by
  cases ran : forward q r seeds e with
  | mk outcome t =>
    cases outcome with
    | error err => exact numOrders_of_failed wf accepts ran ▸ agreeBelow_of_failed wf ran
    | ok ys => exact (forward_sound wf ran).agreeBelow

/-- What a call that succeeds has computed is computed from what is embedded, if the atomics are
built-ins. -/
private theorem Reflects.advanced {r : Nat} {seeds ys : List (List B)} {t : Evaluator B}
    (reflects : e'.Reflects n e g) (builtIns : e.tape.OnlyBuiltIns)
    (advanced : e.Advanced q r seeds ys t) (accepts : e'.Accepts q r seeds) (low : q ≤ n) :
    ∃ t', Evaluator.forward q r seeds e' = (.ok ys, t') ∧ t'.Reflects (q + 1) t g := by
  have accepted := advanced.accepted
  -- the orders below are those from before the call, on both tables
  have before : ∀ v < e'.tape.size, ∀ k < q, ∀ d, (k = 0 ∨ d < r) →
      t.table.value (g v) k d = e'.table.value v k d := by
    intro v below k less d along
    have along' : k = 0 ∨ d < t.numDirections := by
      rw [advanced.directions, if_neg (by omega)]
      exact along
    rw [advanced.low (g v) (reflects.tape.inside below) k less d along',
      reflects.values v below k (less.trans_le low) d]
    by_cases zero : k = 0
    · exact .inl zero
    · exact .inr ((along.resolve_left zero).trans_eq (accepted.directions (by omega)))
  obtain ⟨ys', t', run, advanced', same⟩ := forward_of_holds reflects.wellFormed'
    (reflects.tape.onlyBuiltIns builtIns) accepts (fun d v k => t.table.value (g v) k d)
    (fun d along v below k less => before v below k less d (.inr along))
    fun d seed found i inside => reflects.tape.holds reflects.wellFormed.tape inside
      (advanced.holds d seed found (g i) (reflects.tape.inside inside))
  refine ⟨t', ?_, ?_⟩
  · rw [run, advanced.answer, advanced'.answer, ← reflects.outputs]
    refine Prod.ext (congrArg Except.ok (List.map_congr_left fun d below => ?_)) rfl
    rw [List.map_map]
    exact List.map_congr_left fun y asked =>
      same d (List.mem_range.1 below) y (reflects.wellFormed'.outputs y asked)
  · refine ⟨⟨advanced.wellFormed, advanced'.wellFormed, ?_, ?_⟩, advanced.orders.ge,
      advanced'.orders.ge, fun above => ?_, fun v below k less d along => ?_⟩
    · rw [advanced.tape, advanced'.tape]
      exact reflects.tape
    · rw [advanced.outputs, advanced'.outputs, reflects.outputs]
    · rw [advanced.directions, advanced'.directions, if_neg (by omega), if_neg (by omega)]
    · rw [advanced'.tape] at below
      rw [advanced.directions] at along
      rcases Nat.lt_or_eq_of_le (Nat.le_of_lt_succ less) with less | rfl
      · rw [if_neg (by omega)] at along
        rw [before v below k less d along, advanced'.low v below k less d]
        rwa [advanced'.directions, if_neg (by omega)]
      · by_cases zero : k = 0
        · subst zero
          exact same 0 (Nat.pos_of_ne_zero accepts.positive) v below
        · rw [if_neg zero] at along
          exact same d (along.resolve_left zero) v below

/-- A call for an order on both evaluators.  It may fail on the larger tape and not on what is
embedded into it, but not the other way round. -/
theorem Reflects.forward {r : Nat} (reflects : e'.Reflects e.numOrders e g)
    (builtIns : e.tape.OnlyBuiltIns) (seeds : List (List B)) :
    let t := (Evaluator.forward q r seeds e).2
    let t' := (Evaluator.forward q r seeds e').2
    t'.Reflects t.numOrders t g ∧ ∀ ys, (Evaluator.forward q r seeds e).1 = .ok ys →
      (Evaluator.forward q r seeds e').1 = .ok ys := by
  have wf := reflects.wellFormed
  have wf' := reflects.wellFormed'
  have kept := forward_kept wf q r seeds
  have kept' := forward_kept wf' q r seeds
  by_cases accepts : e.Accepts q r seeds
  · have accepts' : e'.Accepts q r seeds := {
      positive := accepts.positive
      count := accepts.count
      lengths seed member := (accepts.lengths seed member).trans reflects.numInputs_eq.symm
      point := accepts.point
      orders := accepts.orders.trans reflects.orders'
      directions above := (accepts.directions above).trans
        (reflects.directions (above.trans_le accepts.orders)).symm }
    cases ran : Evaluator.forward q r seeds e with
    | mk outcome t =>
      rw [ran] at kept
      cases outcome with
      | error err =>
        have orders := numOrders_of_failed wf accepts ran
        have agree := agreeBelow_of_failed wf ran
        refine ⟨?_, nofun⟩
        show Reflects t.numOrders _ t g
        rw [orders] at agree ⊢
        exact reflects.of_agree agree (agreeBelow_of_accepts wf' accepts') accepts.orders kept.1
          kept'.1
      | ok ys =>
        have advanced := forward_sound wf ran
        obtain ⟨t', run, next⟩ := reflects.advanced builtIns advanced accepts' accepts.orders
        rw [run]
        exact ⟨advanced.orders.symm ▸ next, fun _ same => same⟩
  · obtain ⟨err, refused⟩ := forward_refused accepts
    rw [refused]
    refine ⟨reflects.of_agree (.refl e) ?_ le_rfl wf kept'.1, nofun⟩
    by_cases accepts' : e'.Accepts q r seeds
    · -- what only the second evaluator accepts is an order that the first one has not reached
      have above : e.numOrders ≤ q := by
        by_contra less
        refine accepts ⟨accepts'.positive, accepts'.count, fun seed member =>
          (accepts'.lengths seed member).trans reflects.numInputs_eq, accepts'.point, by omega,
          fun higher => (accepts'.directions higher).trans (reflects.directions (by omega))⟩
      exact (agreeBelow_of_accepts wf' accepts').mono above
    · obtain ⟨err', refused'⟩ := forward_refused accepts'
      rw [refused']
      exact (AgreeBelow.refl e').mono reflects.orders'

/-- The partials of the variables of both evaluators.  Those of the one are found in the other, and
what is left out has received nothing. -/
abbrev Partials (e' e : Evaluator B) (g : Nat → Nat) (q : Nat) :
    Array (Series B) → Array (Series B) → Prop :=
  Tape.Selects e.tape e'.tape g (· = Series.zeros q)

namespace Reflects

variable (reflects : e'.Reflects n e g) {ps ps' : Array (Series B)}
include reflects

private theorem accumulate_concur (positive : 0 < n) (partials : Partials e' e g q ps ps') {v : Nat}
    (below : v < e'.tape.size) (share : Series B) :
    Concur False (Partials e' e g q) (e.accumulate ps (g v) share) (e'.accumulate ps' v share) := by
  obtain ⟨entry, found⟩ := Tape.exists_entry below
  have shape := reflects.coeff_eq below positive (d := 0) (.inl rfl)
  unfold accumulate
  rw [found, reflects.tape.entry found, ok_bind, ok_bind, shape]
  simp only [Entry.relabel_eq_const]
  split
  · exact .ok partials
  · exact (Concur.refl _).eq_bind fun x => (partials.fetch_concur below).eq_bind fun p =>
      (Concur.refl _).eq_bind fun sum => partials.store_concur reflects.tape below sum

private theorem foldlM_accumulate (positive : 0 < n) (partials : Partials e' e g q ps ps')
    {vs : List Nat} (below : ∀ v ∈ vs, v < e'.tape.size) (shares : List (Series B)) :
    Concur False (Partials e' e g q)
      (((vs.map g).zip shares).foldlM (fun ps (v, x) => e.accumulate ps v x) ps)
      ((vs.zip shares).foldlM (fun ps (v, x) => e'.accumulate ps v x) ps') := by
  rw [List.zip_map_left, List.foldlM_map]
  refine Concur.foldlM (R := fun a a' => a = a' ∧ a.1 < e'.tape.size)
    (List.forall₂_same.2 fun a member => ⟨rfl, below a.1 (List.of_mem_zip member).1⟩) ?_ partials
  rintro ⟨v, x⟩ _ ⟨rfl, low⟩ ps ps' partials
  exact reflects.accumulate_concur positive partials low x

private theorem passed_concur (low : q ≤ n) {i : Nat} {entry : Entry}
    (found : e'.tape.entry i = .ok entry) (own : List (Series B)) :
    Concur False (· = ·) (e.passed q (g i) (entry.relabel g) own) (e'.passed q i entry own) := by
  have here := reflects.series_eq (Tape.lt_size_of_entry found) low
  have read : ∀ a ∈ entry.operands, e'.table.series a q 0 = e.table.series (g a) q 0 :=
    fun a reads => reflects.series_eq (reflects.wellFormed'.tape.operand_lt found reads) low
  cases entry with
  | input | const | result => exact .refl _
  | unary op a =>
    obtain _ | ⟨pz, _ | _⟩ := own
    · exact .refl _
    · simp only [passed, Entry.relabel, ← here, ← read a List.mem_cons_self]
      exact (Concur.refl _).eq_bind fun x => (Concur.refl _).eq_bind fun z =>
        ((Concur.refl (op.pullback x z pz (Series.zeros q))).mapError _ _).eq_bind fun pa => .refl _
    · exact .refl _
  | binary op a b =>
    obtain _ | ⟨pz, _ | _⟩ := own
    · exact .refl _
    · simp only [passed, Entry.relabel, ← here, ← read a List.mem_cons_self,
        ← read b (List.mem_cons_of_mem _ List.mem_cons_self)]
      exact (Concur.refl _).eq_bind fun x => (Concur.refl _).eq_bind fun y =>
        (Concur.refl _).eq_bind fun z =>
          ((Concur.refl (op.pullback x y z pz (Series.zeros q) (Series.zeros q))).mapError _ _).eq_bind
            fun shares => .refl _
    · exact .refl _
  | call place args n =>
    have results : (List.range' i n).mapM (fun j => e'.table.series j q 0) =
        (List.range' (g i) n).mapM fun j => e.table.series j q 0 :=
      reflects.tape.mapM_own found fun v below => reflects.series_eq below low
    have arguments : args.mapM (fun a => e'.table.series a q 0) =
        (args.map g).mapM fun a => e.table.series a q 0 := by
      rw [List.mapM_map]
      exact mapM_congr read
    simp only [passed, Entry.relabel, ← reflects.tape.atomics, ← arguments, ← results]
    exact (Concur.refl _).eq_bind fun callee => (Concur.refl _).eq_bind fun xs =>
      (Concur.refl _).eq_bind fun ys => .answered callee _ _ _ _

private theorem retreat_concur (positive : 0 < n) (low : q ≤ n)
    (partials : Partials e' e g q ps ps') (idle : B → Bool) {i : Nat} (inside : i < e'.tape.size) :
    Concur False (Partials e' e g q) (e.retreat idle q ps (g i)) (e'.retreat idle q ps' i) := by
  obtain ⟨entry, found⟩ := Tape.exists_entry inside
  obtain ⟨own, read, read'⟩ := partials.exists_own reflects.tape found
  rw [← Entry.span_relabel g] at read
  rw [retreat_eq (reflects.tape.entry found) read, retreat_eq found read']
  split
  · exact .ok partials
  · refine (reflects.passed_concur low found own).eq_bind fun shares => ?_
    rw [Entry.operands_relabel]
    exact reflects.foldlM_accumulate positive partials
      (fun v reads => reflects.wellFormed'.tape.operand_lt found reads) shares

private theorem retreat_leftOut (partials : Partials e' e g q ps ps') {idle : B → Bool}
    (zeros : idle Base.zero = true) {i : Nat} (inside : i < e.tape.size)
    (left : e'.tape.LeftOut g i) : e.retreat idle q ps i = .ok ps := by
  obtain ⟨entry, found⟩ := Tape.exists_entry inside
  have read := partials.own_leftOut reflects.tape reflects.wellFormed.tape found left
  have still : (Series.zeros q).all idle = true := by
    refine Array.all_eq_true.2 fun k low => ?_
    rw [show (Series.zeros q)[k] = Base.zero from Array.getElem_replicate _]
    exact zeros
  rw [retreat_eq found read, if_pos (List.all_eq_true.2 fun p member => ?_)]
  rw [List.eq_of_mem_replicate member]
  exact still

private theorem received_concur (positive : 0 < n) (partials : Partials e' e g q ps ps') :
    Concur False (· = ·) (e.received ps) (e'.received ps') := by
  have count : e.numInputs = e'.numInputs := reflects.numInputs_eq.symm
  unfold received
  rw [count]
  refine .of_eq (mapM_congr fun j member => ?_)
  have input : j < e'.tape.numInputs := List.mem_range.1 member
  have below := input.trans_le reflects.tape.inputs_le
  have shape := reflects.coeff_eq below positive (d := 0) (.inl rfl)
  obtain ⟨p, found, found'⟩ := partials.exists_fetch below
  rw [reflects.tape.fixed j input] at shape found
  simp only [shape, found, found']

private theorem acceptsReverse_iff (low : q ≤ n) (weights : List (List B)) :
    e.AcceptsReverse q weights ↔ e'.AcceptsReverse q weights := by
  have count : e'.numOutputs = e.numOutputs := reflects.numOutputs_eq
  have along : 1 < q → e'.numDirections = e.numDirections := fun above =>
    reflects.directions (above.trans_le low)
  constructor
  · rintro ⟨positive, _, directions, outputs, lengths⟩
    exact ⟨positive, low.trans reflects.orders', fun above => (along above).trans (directions above),
      outputs.trans count.symm, lengths⟩
  · rintro ⟨positive, _, directions, outputs, lengths⟩
    exact ⟨positive, low.trans reflects.orders,
      fun above => (along above).symm.trans (directions above), outputs.trans count, lengths⟩

/-- A reverse sweep through orders that are the same returns the same partials, or fails on both. -/
theorem reverseWith_concur (low : q ≤ n) {idle : B → Bool} (zeros : idle Base.zero = true)
    (weights : List (List B)) :
    Concur False (· = ·) (e.reverseWith idle q weights) (e'.reverseWith idle q weights) := by
  have refused : ∀ {e : Evaluator B}, ¬ e.AcceptsReverse q weights →
      ∃ err, e.reverseWith idle q weights = .error err := by
    intro e refused
    cases done : e.reverseWith idle q weights with
    | ok px => exact absurd (acceptsReverse_of_ok done) refused
    | error err => exact ⟨err, rfl⟩
  by_cases accepts : e.AcceptsReverse q weights
  · have accepts' := (reflects.acceptsReverse_iff low weights).1 accepts
    have positive : 0 < n := (Nat.pos_of_ne_zero accepts.positive).trans_le low
    have weigh : ∀ (e : Evaluator B) (ys : List Nat) (ps : Array (Series B)),
        (ys.zip weights).foldlM (fun ps part => e.accumulate ps part.1 part.2.toArray) ps =
          (ys.zip (weights.map List.toArray)).foldlM (fun ps part => e.accumulate ps part.1 part.2)
            ps := by
      intro e ys ps
      rw [List.zip_map_right, List.foldlM_map]
      rfl
    unfold reverseWith
    rw [checkReverse_eq_ok.2 accepts, checkReverse_eq_ok.2 accepts', ok_bind, ok_bind, weigh, weigh,
      ← reflects.outputs]
    refine (reflects.foldlM_accumulate positive (.replicate reflects.tape rfl)
      reflects.wellFormed'.outputs _).bind fun ps ps' partials => ?_
    refine (reflects.tape.picks.down (R := Partials e' e g q)
      (fun i inside ps ps' partials => reflects.retreat_concur positive low partials idle inside)
      (fun i inside left ps ps' partials =>
        ⟨ps, reflects.retreat_leftOut partials zeros inside left, partials⟩) partials).bind
      fun ps ps' partials => reflects.received_concur positive partials
  · have accepts' := fun accepts' => accepts ((reflects.acceptsReverse_iff low weights).2 accepts')
    obtain ⟨err, failed⟩ := refused accepts
    obtain ⟨err', failed'⟩ := refused accepts'
    rw [failed, failed']
    exact .error not_false

end Reflects

end Evaluator

end TaylorTape
