import TaylorTape.Proofs.Blocks
import TaylorTape.Proofs.Failures
import TaylorTape.Proofs.Independence
import TaylorTape.Proofs.Schedules

/-!
Every access of a recorded program is in range.

The tape of a recorded program is well-formed, its table of coefficients has a cell for each order
and direction that there is room for, and both stay so through calls that fail.  Its calls keep to
their blocks.  So whatever is asked of the program, with seeds, weights and points of any number and
shape, is answered or refused, and never refused for a position that does not exist.
-/

set_option autoImplicit false
set_option relaxedAutoImplicit false

namespace TaylorTape

variable {B F : Type} [Scalar F] [Base B F]

/-- Every call on the tape keeps to its blocks. -/
def Tape.CallsKeepToBlocks (tape : Tape B) : Prop :=
  ∀ i place args n r, tape.entry i = .ok (.call place args n) → tape.atomics[place]? = some r →
    r.op.KeepsToBlocks args.length n

namespace Tape

variable {tape : Tape B} {c t : Coefficients B} {q d i : Nat} {seed : List B}

omit [Scalar F] [Base B F] in
private theorem ranged_answered {α : Type} {r : Registered B} {order : Nat}
    {answer : Except Error (Option α)} (ranged : InRange answer) :
    Ranged (fun a => answer = .ok (some a)) (answered r i order answer) := by
  cases answer with
  | error err => exact ranged
  | ok outcome =>
    cases outcome with
    | none => trivial
    | some a => rfl

private theorem OnlyBuiltIns.callsKeepToBlocks [CheckedBase B] {x : List B} {values : Nat → B}
    (wf : tape.WellFormed) (builtIns : tape.OnlyBuiltIns) (solves : tape.Solves x values) :
    tape.CallsKeepToBlocks := by
  intro i place args n r found entered
  obtain ⟨r', there, builtIn⟩ := builtIns i place args n found
  obtain rfl : r = r' := Option.some.inj (entered.symm.trans there)
  obtain ⟨b, same, done⟩ := (solves i (lt_size_of_entry found)).step found entered builtIn
  obtain ⟨r', there', results⟩ := wf.atomics i place args n found
  obtain rfl : r = r' := Option.some.inj (entered.symm.trans there')
  have count : b.count = n := by rw [← results, same, BuiltIn.numResults_atomic]
  have arity := BuiltIn.arity_of_step done
  rw [List.length_map] at arity
  exact same ▸ count ▸ BuiltIn.keepsToBlocks arity.le

/-- What an entry is to produce is worked out from orders that are there. -/
private theorem inRange_produced [CheckedBase B] (wf : tape.WellFormed) (fits : tape.Fits c q d)
    (blocks : tape.CallsKeepToBlocks) (inside : i < tape.size)
    (long : seed.length = tape.numInputs) : InRange (tape.produced c q d seed i) := by
  obtain ⟨⟨e, value⟩, there⟩ := exists_node inside
  have found := entry_of_node there
  have below : ∀ a ∈ e.operands, a < tape.size := fun a reads => wf.operand_lt found reads
  unfold produced
  rw [found, ok_bind]
  cases e <;> dsimp only
  case input =>
    have given : i < seed.length := long ▸ (wf.inputs i _ found).1 rfl
    exact (ranged_pick (fun _ _ => trivial) given).bind fun x _ => trivial
  case const =>
    split
    · exact Ranged.bind (P := fun _ => True)
        ((ranged_fetch (fun _ _ => trivial) inside).bind fun node _ => trivial) fun x _ => trivial
    · trivial
  case unary op a =>
    simp only [fits.series_eq (below a (by simp [Entry.operands])) le_rfl,
      fits.series_eq inside (Nat.le_succ q), ok_bind]
    have next : InRange (op.next (.of (c.along d a) (q + 1)) (.of (c.along d i) q)) :=
      op.inRange_next (by simp)
    exact Ranged.bind (next.mapError fun _ source => source) fun x _ => trivial
  case binary op a b =>
    simp only [fits.series_eq (below a (by simp [Entry.operands])) le_rfl,
      fits.series_eq (below b (by simp [Entry.operands])) le_rfl,
      fits.series_eq inside (Nat.le_succ q), ok_bind]
    have next : InRange (op.next (.of (c.along d a) (q + 1)) (.of (c.along d b) (q + 1))
        (.of (c.along d i) q)) := op.inRange_next (by simp) (by simp)
    exact Ranged.bind (next.mapError fun _ source => source) fun x _ => trivial
  case call place args n =>
    obtain ⟨r, entered, _⟩ := wf.atomics i place args n found
    have room : i + n ≤ tape.size := wf.span_le found
    have given := arguments_eq fits (show ∀ a ∈ args, a < tape.size from below)
    simp only [fetch_eq_ok_iff.2 entered, given, results_eq fits room, ok_bind]
    have filled : FillsBlock q args.length ((wires tape (c.along d) args q).map Wire.series) :=
      ⟨by simp [wires], by simp +contextual [wires, eq_comm]⟩
    have filled' : FillsBlock q n ((known (c.along d) i n q).map Wire.series) :=
      ⟨by simp [known], by simp +contextual [known, eq_comm]⟩
    have answer := (blocks i place args n r found entered).forward (le_refl q) filled filled'
    refine (ranged_answered answer).bind fun computed done => InRange.mapM fun k member => ?_
    obtain ⟨count, orders⟩ := Atomic.fillsBlock_forward done
    rw [List.length_map, show (known (c.along d) i n q).length = n by simp [known]] at count
    refine (ranged_pick (P := fun y => y.series.size = q + 1) (fun y among =>
      orders _ (List.mem_map_of_mem among)) (count ▸ List.mem_range.1 member)).bind fun y sized => ?_
    exact Series.inRange_coeff sized q.lt_succ_self
  case result owner => trivial

end Tape

namespace Evaluator

variable {e e₀ : Evaluator B} {q r : Nat}

section Checks

private theorem inRange_refuse {α β : Type} {p : Prop} [Decidable p] {cause : Error}
    {f : α → Except Error β} {x : Except Error β} (refusal : cause.InRange) (rest : InRange x) :
    InRange (if p then (throw cause : Except Error α) >>= f else x) := by
  split
  · exact refusal
  · exact rest

private theorem inRange_throw {α : Type} {p : Prop} [Decidable p] {cause : Error}
    {x : Except Error α}
    (refusal : cause.InRange) (rest : InRange x) : InRange (if p then throw cause else x) := by
  split
  · exact refusal
  · exact rest

omit [Scalar F] [Base B F] in
private theorem inRange_checkForward (e : Evaluator B) (q r : Nat) (seeds : List (List B)) :
    InRange (e.checkForward q r seeds) := by
  unfold checkForward
  refine inRange_refuse trivial (inRange_refuse trivial ?_)
  cases seeds.find? (·.length != e.numInputs) with
  | some seed => trivial
  | none => exact inRange_refuse trivial (inRange_refuse trivial (inRange_throw trivial trivial))

omit [Scalar F] [Base B F] in
private theorem inRange_checkReverse (e : Evaluator B) (q : Nat) (weights : List (List B)) :
    InRange (e.checkReverse q weights) := by
  unfold checkReverse
  refine inRange_refuse trivial (inRange_refuse trivial (inRange_refuse trivial
    (inRange_refuse trivial ?_)))
  cases weights.find? (·.length != q) <;> trivial

end Checks

/-- An evaluator whose tape and table are in order and whose calls keep to their blocks. -/
structure Sturdy (e : Evaluator B) : Prop where
  wellFormed : e.WellFormed
  blocks : e.tape.CallsKeepToBlocks

section Forward

variable [CheckedBase B]

private theorem ranged_forward (sturdy : e.Sturdy) (q r : Nat) (seeds : List (List B)) :
    Ranged (fun ys => ys.length = r ∧ ∀ y ∈ ys, y.length = e.numOutputs)
      (forward q r seeds e).1 := by
  have checked := inRange_checkForward e q r seeds
  cases check : e.checkForward q r seeds with
  | error err =>
    rw [forward_of_refused check]
    rwa [check] at checked
  | ok _ =>
    have accepts := checkForward_eq_ok.1 check
    obtain ⟨c, ready, ⟨t, ys, _, run, advanced⟩ | ⟨t, err, stopped, run⟩⟩ :=
      forward_cases sturdy.wellFormed accepts
    · rw [run]
      refine ⟨?_, fun y member => ?_⟩
      · simp [advanced.answer]
      · rw [advanced.answer] at member
        obtain ⟨_, _, rfl⟩ := List.mem_map.1 member
        simp [numOutputs]
    · obtain ⟨d, seed, u, i, there, _, _, _, inside, fits, failed⟩ :=
        Tape.exists_stop sturdy.wellFormed.tape (accepts.count ▸ ready.fits) stopped
      have long := accepts.lengths seed (List.mem_of_getElem? there)
      have produced := Tape.inRange_produced sturdy.wellFormed.tape fits sturdy.blocks inside long
      rw [failed] at produced
      rw [run]
      exact produced

end Forward

section Reverse

variable {partials : Array (Series B)} {v i : Nat} {share : Series B}

/-- Partials of all variables, each of as many orders as are swept. -/
structure Kept (e : Evaluator B) (q : Nat) (partials : Array (Series B)) : Prop where
  size : partials.size = e.tape.size
  orders : ∀ p ∈ partials, p.size = q

variable [CheckedBase B]

private theorem ranged_accumulate (wf : e.WellFormed) (kept : e.Kept q partials)
    (inside : v < e.tape.size)
    (sized : share.size = q) : Ranged (e.Kept q) (e.accumulate partials v share) := by
  obtain ⟨entry, found⟩ := Tape.exists_entry inside
  have there : v < partials.size := kept.size.symm ▸ inside
  rw [accumulate_eq found (Array.getElem?_eq_getElem there)]
  split
  · exact kept
  · refine Ranged.bind (P := fun s => s.size = q) ?_ fun sum wide =>
      (ranged_store kept.orders there wide).mono fun next stored =>
        ⟨stored.1.trans kept.size, stored.2⟩
    unfold gathered
    rw [wf.coeff inside, ok_bind]
    refine Ranged.foldlM (fun k member s wide => ?_) (kept.orders _ (Array.getElem_mem there))
    have below : k < q := sized ▸ List.mem_range.1 member
    exact (Series.inRange_coeff sized below).bind fun x _ => Series.ranged_addAt wide below _

private theorem ranged_passed (sturdy : e.Sturdy) (positive : 0 < q) (orders : q ≤ e.numOrders)
    {entry : Entry} (found : e.tape.entry i = .ok entry) {own : List (Series B)}
    (count : own.length = entry.span) (sized : ∀ p ∈ own, p.size = q) :
    Ranged (fun shares => ∀ s ∈ shares, s.size = q) (e.passed q i entry own) := by
  have wf := sturdy.wellFormed
  have read {v : Nat} (inside : v < e.tape.size) := wf.series (q := q) inside orders
  have below : ∀ a ∈ entry.operands, a < e.tape.size := fun a reads => wf.tape.operand_lt found reads
  have here := Tape.lt_size_of_entry found
  have zeros : (Series.zeros q : Series B).size = q := Array.size_replicate
  cases entry with
  | input => exact fun _ member => absurd member (by simp)
  | const => exact fun _ member => absurd member (by simp)
  | result owner => exact fun _ member => absurd member (by simp)
  | unary op a =>
    obtain ⟨pz, rfl⟩ := List.length_eq_one_iff.1 count
    simp only [passed, read (below a (by simp [Entry.operands])), read here, ok_bind]
    have rule := op.ranged_pullback (a := .of (e.table.along 0 a) q) (z := .of (e.table.along 0 i) q)
      (by simp) positive (by simp) (sized pz (by simp)) zeros
    exact Ranged.bind (rule.mapError fun _ source => source) fun pa wide =>
      show ∀ s ∈ [pa], s.size = q by simpa using wide
  | binary op a b =>
    obtain ⟨pz, rfl⟩ := List.length_eq_one_iff.1 count
    simp only [passed, read (below a (by simp [Entry.operands])),
      read (below b (by simp [Entry.operands])), read here, ok_bind]
    have rule := op.ranged_pullback (a := .of (e.table.along 0 a) q) (b := .of (e.table.along 0 b) q)
      (z := .of (e.table.along 0 i) q) (by simp) positive (by simp) (by simp) (sized pz (by simp))
      zeros zeros
    exact Ranged.bind (rule.mapError fun _ source => source) fun shares wide =>
      show ∀ s ∈ [shares.1, shares.2], s.size = q by simpa [BothSized] using wide
  | call place args n =>
    obtain ⟨r, entered, _⟩ := wf.tape.atomics i place args n found
    have room : i + n ≤ e.tape.size := wf.tape.span_le found
    have xs : args.mapM (fun a => e.table.series a q 0) =
        .ok (args.map fun a => .of (e.table.along 0 a) q) :=
      mapM_eq_map fun a reads => read (below a reads)
    have ys : (List.range' i n).mapM (fun j => e.table.series j q 0) =
        .ok ((List.range' i n).map fun j => .of (e.table.along 0 j) q) :=
      mapM_eq_map fun j member => read (by have := List.mem_range'_1.1 member; omega)
    have last : q - 1 + 1 = q := by omega
    simp only [passed, fetch_eq_ok_iff.2 entered, xs, ys, ok_bind]
    have given : FillsBlock (q - 1) args.length (args.map fun a => .of (e.table.along 0 a) q) :=
      ⟨by simp, by simp [last]⟩
    have known : FillsBlock (q - 1) n
        ((List.range' i n).map fun j => .of (e.table.along 0 j) q) :=
      ⟨by simp, List.forall_mem_map.2 fun j _ => by rw [last, Series.size_of]⟩
    have weighted : FillsBlock (q - 1) n own := ⟨count, last.symm ▸ sized⟩
    have answer := (sturdy.blocks i place args n r found entered).reverse given known weighted
    exact (Tape.ranged_answered answer).mono fun shares done =>
      last ▸ (Atomic.fillsBlock_reverse done).orders

private theorem ranged_retreat (sturdy : e.Sturdy) (idle : B → Bool) (positive : 0 < q)
    (orders : q ≤ e.numOrders) (inside : i < e.tape.size) (kept : e.Kept q partials) :
    Ranged (e.Kept q) (e.retreat idle q partials i) := by
  have wf := sturdy.wellFormed
  obtain ⟨entry, found⟩ := Tape.exists_entry inside
  have room := wf.tape.span_le found
  have each : ∀ j ∈ List.range' i entry.span, j < partials.size := fun j member => by
    have := List.mem_range'_1.1 member
    rw [kept.size]
    omega
  obtain ⟨own, read⟩ := exists_mapM (f := fetch partials) fun j member =>
    ⟨_, fetch_eq_ok_iff.2 (Array.getElem?_eq_getElem (each j member))⟩
  have sized : ∀ p ∈ own, p.size = q := fun p member => by
    obtain ⟨j, _, there⟩ := exists_of_mem_mapM read member
    exact kept.orders p (Array.mem_of_getElem? (fetch_eq_ok_iff.1 there))
  have count : own.length = entry.span := by simpa using length_of_mapM read
  rw [retreat_eq found read]
  split
  · exact kept
  · refine (ranged_passed sturdy positive orders found count sized).bind fun shares wide => ?_
    refine Ranged.foldlM (fun p member partials kept => ?_) kept
    obtain ⟨reads, among⟩ := List.of_mem_zip member
    exact ranged_accumulate wf kept (wf.tape.operand_lt found reads) (wide _ among)

private theorem ranged_reverseWith (sturdy : e.Sturdy) (idle : B → Bool) (q : Nat)
    (weights : List (List B)) :
    Ranged (fun px => 0 < q ∧ ∀ p ∈ px, p.length = q) (e.reverseWith idle q weights) := by
  have wf := sturdy.wellFormed
  rw [reverseWith_eq]
  refine Ranged.bind (P := fun _ => e.AcceptsReverse q weights) ?_ fun _ accepts => ?_
  · exact ranged_iff.2 ⟨fun _ checked => checkReverse_eq_ok.1 checked,
      (ranged_iff.1 (inRange_checkReverse e q weights)).2⟩
  have positive : 0 < q := Nat.pos_of_ne_zero accepts.positive
  have start : e.Kept q (Array.replicate e.size (Series.zeros q)) := by
    refine ⟨Array.size_replicate, fun p member => ?_⟩
    rw [(Array.mem_replicate.1 member).2]
    exact Array.size_replicate
  refine Ranged.bind (P := e.Kept q) ?_ fun partials kept => ?_
  · refine Ranged.bind (P := e.Kept q) (Ranged.foldlM (fun p member partials kept => ?_) start)
      fun weighted kept => Ranged.foldlM (fun i member partials kept => ?_) kept
    · obtain ⟨output, among⟩ := List.of_mem_zip member
      obtain ⟨w, weight, same⟩ := List.mem_map.1 among
      refine ranged_accumulate wf kept (wf.outputs _ output) ?_
      rw [← same, List.size_toArray]
      exact accepts.lengths w weight
    · exact ranged_retreat sturdy idle positive accepts.orders
        (List.mem_range.1 (List.mem_reverse.1 member)) kept
  · refine Ranged.mono (Ranged.mapM (R := fun _ p => p.length = q) fun j member => ?_)
      fun px all => ⟨positive, fun p among => (exists_of_mem_forall₂ all among).choose_spec.2⟩
    have inside : j < e.tape.size := (List.mem_range.1 member).trans_le wf.tape.inputs_le
    rw [wf.coeff inside, ok_bind]
    refine (ranged_fetch kept.orders (kept.size.symm ▸ inside)).bind fun p sized => ?_
    refine Ranged.mono (Ranged.mapM (R := fun _ _ => True) fun x _ => ?_) fun xs all => ?_
    · exact CheckedBase.broadcastLike _ _
    · rw [← all.length_eq, Array.length_toList, sized]

end Reverse

section Calls

variable {α β : Type} {P : α → Prop} {Q : β → Prop}

/-- A computation stays in range from whatever an evaluator has become, and leaves something that it
may become. -/
def RangedFrom (e₀ : Evaluator B) (P : α → Prop) (work : Evaluation B α) : Prop :=
  ∀ e, e₀.Later e → Ranged P (work e).1 ∧ e₀.Later (work e).2

namespace RangedFrom

private theorem bind {work : Evaluation B α} {f : α → Evaluation B β} (first : e₀.RangedFrom P work)
    (next : ∀ a, P a → e₀.RangedFrom Q (f a)) : e₀.RangedFrom Q (work >>= f) := by
  intro e later
  have ranged := first e later
  rw [run_bind]
  rcases ran : work e with ⟨outcome, t⟩
  rw [ran] at ranged
  cases outcome with
  | error err => exact ranged
  | ok a => exact next a ranged.1 t ranged.2

private theorem lift {x : Except Error α} (ranged : Ranged P x) :
    e₀.RangedFrom P (liftM x : Evaluation B α) := by
  intro e later
  rw [run_lift]
  exact ⟨ranged, later⟩

private theorem get_bind {f : Evaluator B → Evaluation B α}
    (each : ∀ e, e₀.Later e → e₀.RangedFrom P (f e)) : e₀.RangedFrom P (get >>= f) := by
  intro e later
  rw [run_bind_ok (run_get e)]
  exact each e later e later

private theorem mapM {ι : Type} {f : ι → Evaluation B α} (each : ∀ x, e₀.RangedFrom P (f x))
    (xs : List ι) : e₀.RangedFrom (fun ys => ∀ y ∈ ys, P y) (xs.mapM f) := by
  induction xs with
  | nil => exact fun e later => ⟨fun _ member => absurd member (by simp), later⟩
  | cons x xs ih =>
    rw [List.mapM_cons]
    refine (each x).bind fun y first => ih.bind fun ys rest e later => ⟨?_, later⟩
    exact List.forall_mem_cons.2 ⟨first, rest⟩

private theorem inRange {work : Evaluation B α} (ranged : e₀.RangedFrom P work) {e : Evaluator B}
    (later : e₀.Later e) : InRange (work e).1 :=
  (ranged e later).1.inRange

end RangedFrom

private theorem Later.sturdy (sturdy : e₀.Sturdy) (later : e₀.Later e) : e.Sturdy := by
  obtain ⟨wf, tape, _⟩ := later.kept sturdy.wellFormed
  exact ⟨wf, tape ▸ sturdy.blocks⟩

private theorem Later.numOutputs_eq (sturdy : e₀.Sturdy) (later : e₀.Later e) :
    e.numOutputs = e₀.numOutputs :=
  congrArg List.length (later.kept sturdy.wellFormed).2.2

variable [CheckedBase B] (sturdy : e₀.Sturdy)
include sturdy

private theorem rangedFrom_forward (q r : Nat) (seeds : List (List B)) :
    e₀.RangedFrom (fun ys => ys.length = r ∧ ∀ y ∈ ys, y.length = e₀.numOutputs)
      (forward q r seeds) := by
  intro e later
  refine ⟨(ranged_forward (later.sturdy sturdy) q r seeds).mono fun ys extent => ?_,
    later.forward q r seeds⟩
  rwa [later.numOutputs_eq sturdy] at extent

private theorem rangedFrom_single (q : Nat) (x : List B) :
    e₀.RangedFrom (fun y => y.length = e₀.numOutputs) (do pick (← forward q 1 [x]) 0) :=
  (rangedFrom_forward sturdy q 1 [x]).bind fun _ extent =>
    .lift (ranged_pick extent.2 (extent.1 ▸ Nat.one_pos))

private theorem rangedFrom_forwardZero (x : List B) :
    e₀.RangedFrom (fun y => y.length = e₀.numOutputs) (forwardZero x) :=
  rangedFrom_single sturdy 0 x

private theorem rangedFrom_forwardOne (dx : List B) :
    e₀.RangedFrom (fun y => y.length = e₀.numOutputs) (forwardOne dx) :=
  rangedFrom_single sturdy 1 dx

omit [CheckedBase B] sturdy in
private theorem inRange_lowest {px : List (List B)} (positive : 0 < q)
    (orders : ∀ p ∈ px, p.length = q) :
    InRange (lowest px) :=
  InRange.mapM fun p member => ranged_pick (fun _ _ => trivial) ((orders p member).symm ▸ positive)

private theorem rangedFrom_lowest (q : Nat) (weights : List (List B)) :
    e₀.RangedFrom (fun _ => True)
      (do lowest (← (← get).reverse q weights) : Evaluation B (List B)) :=
  .get_bind fun _ later =>
    (RangedFrom.lift (ranged_reverseWith (later.sturdy sturdy) Base.isAllZero q weights)).bind
      fun _ extent => .lift (inRange_lowest extent.1 extent.2)

private theorem rangedFrom_jacobianForward (x : List B) :
    e₀.RangedFrom (fun _ => True) (jacobianForward x) := by
  refine .get_bind fun e later => (rangedFrom_forwardZero sturdy x).bind fun _ _ => ?_
  refine (RangedFrom.mapM (fun j => rangedFrom_forwardOne sturdy _) _).bind fun columns long => ?_
  refine .lift (InRange.mapM fun i below => InRange.mapM fun column member =>
    ranged_pick (fun _ _ => trivial) ?_)
  rw [long column member, ← later.numOutputs_eq sturdy]
  exact List.mem_range.1 below

private theorem rangedFrom_jacobianReverse (x : List B) :
    e₀.RangedFrom (fun _ => True) (jacobianReverse x) :=
  (rangedFrom_forwardZero sturdy x).bind fun _ _ => .get_bind fun _ later =>
    .lift (InRange.mapM fun _ _ => (ranged_reverseWith (later.sturdy sturdy) _ 1 _).bind
      fun _ extent => inRange_lowest extent.1 extent.2)

private theorem rangedFrom_jacobian (x : List B) : e₀.RangedFrom (fun _ => True) (jacobian x) := by
  refine .get_bind fun e later => ?_
  split
  · exact rangedFrom_jacobianForward sturdy x
  · exact rangedFrom_jacobianReverse sturdy x

private theorem rangedFrom_gradient (x : List B) : e₀.RangedFrom (fun _ => True) (gradient x) := by
  refine .get_bind fun e later => ?_
  split
  · exact fun e' later' => ⟨trivial, later'⟩
  · exact (rangedFrom_forwardZero sturdy x).bind fun _ _ => rangedFrom_lowest sturdy 1 _

private theorem rangedFrom_hessianVector (x v : List B) :
    e₀.RangedFrom (fun _ => True) (hessianVector x v) := by
  refine .get_bind fun e later => ?_
  split
  · exact fun e' later' => ⟨trivial, later'⟩
  · exact (rangedFrom_forwardZero sturdy x).bind fun _ _ =>
      (rangedFrom_forwardOne sturdy v).bind fun _ _ => rangedFrom_lowest sturdy 2 _

omit [CheckedBase B] sturdy in
private theorem inRange_work {task : List B → Evaluation B α}
    (ranged : ∀ x, e₀.RangedFrom P (task x))
    (later : e₀.Later e) (points : List (List B)) : ∀ a ∈ e.work task points, InRange a := by
  induction points generalizing e with
  | nil => exact fun _ member => absurd member (by simp [work])
  | cons x points ih =>
    exact List.forall_mem_cons.2 ⟨(ranged x).inRange later, ih (ranged x e later).2⟩

end Calls

end Evaluator

/-- Whether a call is answered, and with which error it is refused. -/
def Request.outcome (e : Evaluator B) : Request B → Except Error Unit
  | .forward q r seeds => (fun _ => ()) <$> (Evaluator.forward q r seeds e).1
  | .reverse q weights => (fun _ => ()) <$> e.reverse q weights
  | .forwardZero x => (fun _ => ()) <$> (Evaluator.forwardZero x e).1
  | .forwardOne dx => (fun _ => ()) <$> (Evaluator.forwardOne dx e).1
  | .jacobian x => (fun _ => ()) <$> (Evaluator.jacobian x e).1
  | .jacobianForward x => (fun _ => ()) <$> (Evaluator.jacobianForward x e).1
  | .jacobianReverse x => (fun _ => ()) <$> (Evaluator.jacobianReverse x e).1
  | .gradient x => (fun _ => ()) <$> (Evaluator.gradient x e).1
  | .hessianVector x v => (fun _ => ()) <$> (Evaluator.hessianVector x v e).1

namespace Evaluator

/-- Nothing that can be asked of an evaluator reaches for a position that does not exist. -/
structure StaysInRange (e : Evaluator B) : Prop where
  /-- The tape and the table are in order, and the calls keep to their blocks. -/
  sturdy : e.Sturdy
  calls : ∀ request : Request B, InRange (request.outcome e)
  recordedOutputs : ∃ ys, e.recordedOutputs = .ok ys
  forwardSparsity : ∃ p, e.forwardSparsity = .ok p
  reverseSparsity : ∃ p, e.reverseSparsity = .ok p
  jacobianBatch : ∀ points, InRange (e.jacobianBatch points)
  forwardZeroBatch : ∀ points, InRange (e.forwardZeroBatch points)
  /-- However the points are shared out among workers. -/
  jacobianWorkers : ∀ workers a i, (a, i) ∈ e.workAll jacobian workers → InRange a
  forwardZeroWorkers : ∀ workers a i, (a, i) ∈ e.workAll forwardZero workers → InRange a

section

variable {e e₀ : Evaluator B} [CheckedBase B]

private theorem inRange_outcome (sturdy : e₀.Sturdy) (later : e₀.Later e) (request : Request B) :
    InRange (request.outcome e) := by
  have told {α : Type} {x : Except Error α} (ranged : InRange x) : InRange ((fun _ => ()) <$> x) :=
    ranged.map fun _ _ => trivial
  cases request with
  | forward q r seeds => exact told ((rangedFrom_forward sturdy q r seeds).inRange later)
  | reverse q weights =>
    exact told (ranged_reverseWith (later.sturdy sturdy) Base.isAllZero q weights).inRange
  | forwardZero x => exact told ((rangedFrom_forwardZero sturdy x).inRange later)
  | forwardOne dx => exact told ((rangedFrom_forwardOne sturdy dx).inRange later)
  | jacobian x => exact told ((rangedFrom_jacobian sturdy x).inRange later)
  | jacobianForward x => exact told ((rangedFrom_jacobianForward sturdy x).inRange later)
  | jacobianReverse x => exact told ((rangedFrom_jacobianReverse sturdy x).inRange later)
  | gradient x => exact told ((rangedFrom_gradient sturdy x).inRange later)
  | hessianVector x v => exact told ((rangedFrom_hessianVector sturdy x v).inRange later)

private theorem staysInRange (sturdy : e₀.Sturdy) (builtIns : e₀.tape.OnlyBuiltIns)
    (later : e₀.Later e) :
    e.StaysInRange where
  sturdy := later.sturdy sturdy
  calls := inRange_outcome sturdy later
  recordedOutputs := exists_mapM fun y output => by
    obtain ⟨node, there⟩ := Tape.exists_node ((later.sturdy sturdy).wellFormed.outputs y output)
    exact ⟨node.value, bind_eq_ok.2 ⟨node, fetch_eq_ok_iff.2 there, rfl⟩⟩
  forwardSparsity := by
    obtain ⟨wf, tape, _⟩ := later.kept sturdy.wellFormed
    obtain ⟨p, found, _⟩ := forwardSparsity_spec wf (tape ▸ builtIns).unionsOver
    exact ⟨p, found⟩
  reverseSparsity := by
    obtain ⟨wf, tape, _⟩ := later.kept sturdy.wellFormed
    obtain ⟨p, found, _⟩ := reverseSparsity_spec wf (tape ▸ builtIns).unionsOver
    exact ⟨p, found⟩
  jacobianBatch points :=
    InRange.mapM fun a member => inRange_work (rangedFrom_jacobian sturdy) later points a member
  forwardZeroBatch points :=
    InRange.mapM fun a member => inRange_work (rangedFrom_forwardZero sturdy) later points a member
  jacobianWorkers workers a i member := by
    obtain ⟨mine, _, among⟩ := List.mem_flatMap.1 member
    exact inRange_work (rangedFrom_jacobian sturdy) later _ a (List.of_mem_zip among).1
  forwardZeroWorkers workers a i member := by
    obtain ⟨mine, _, among⟩ := List.mem_flatMap.1 member
    exact inRange_work (rangedFrom_forwardZero sturdy) later _ a (List.of_mem_zip among).1

end

end Evaluator

namespace Program

/-- Whatever has been asked of a recorded program before, with seeds, weights and points of any
number and shape and whether or not it was answered, no call reaches out of range. -/
theorem accesses_in_range [LawfulBase B] [CheckedBase B] {registry : Registry B} {id : Nat}
    {x : List B} {steps : List (Step B)} {outputs : List Nat} {f : Frozen B}
    (faithful : registry.Faithful) (foreign : ∀ s ∈ steps, s.Foreign id)
    (own : ∀ s ∈ steps, s.CallsBuiltIns) (frozen : freeze registry id x steps outputs = .ok f)
    (requests : List (Request B)) :
    (requests.foldl (fun e request => request.after e) f.evaluator).StaysInRange := by
  have recorded : f.evaluator.RecordedOfBuiltIns :=
    ⟨registry, id, x, steps, outputs, f, faithful, foreign, own, frozen, .refl⟩
  have wf := recorded.recorded.wellFormed
  have builtIns := recorded.onlyBuiltIns
  obtain ⟨y, values, solves⟩ := recorded.exists_solves
  have later : ∀ e, f.evaluator.Later e →
      f.evaluator.Later (requests.foldl (fun e request => request.after e) e) := by
    induction requests with
    | nil => exact fun e later => later
    | cons request requests ih =>
      exact fun e later => ih (request.after e) (Evaluator.later_after request later)
  exact Evaluator.staysInRange ⟨wf, builtIns.callsKeepToBlocks wf.tape solves⟩ builtIns
    (later f.evaluator .refl)

/-- The sum of the sine of a product, after calls at two points, along too many directions, with an
array that does not fit and for partials of orders that are not there. -/
theorem accesses_in_range_sum : ∃ f : Frozen (Value Float),
    freeze Registry.builtins 7 [.array [1, 2], .scalar 3]
      [.binary .mul 0 1, .unary .sin 2, .builtIn .sum [3]] [4] = .ok f ∧
    let requests : List (Request (Value Float)) := [.forwardZero [.array [4, 5], .scalar 2],
      .forward 1 2 [[.scalar 1, .scalar 0], [.scalar 0, .scalar 1]],
      .forward 2 2 [[.array [1, 2, 3], .scalar 0], [.scalar 0, .scalar 1]],
      .reverse 5 [[.scalar 1]], .gradient [.array [1, 2, 3], .scalar 1], .forward 3 0 []]
    (requests.foldl (fun e request => request.after e) f.evaluator).StaysInRange := by
  let steps : List (Step (Value Float)) := [.binary .mul 0 1, .unary .sin 2, .builtIn .sum [3]]
  have done : (fun _ => ()) <$>
      freeze Registry.builtins 7 [.array [1, 2], .scalar 3] steps [4] = .ok () := by
    decide +kernel
  obtain ⟨f, frozen, _⟩ := map_eq_ok.1 done
  exact ⟨f, frozen, accesses_in_range Registry.builtins_faithful (by simp [steps, Step.Foreign])
    (by simp [steps, Step.CallsBuiltIns]) frozen _⟩

end Program

end TaylorTape
