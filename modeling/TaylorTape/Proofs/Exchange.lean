import TaylorTape.Proofs.Pruned
import TaylorTape.Proofs.Twins

/-!
An operation and a call of an atomic that computes it are evaluated alike.

A forward sweep hands both the same series and takes the same coefficient from them; a reverse sweep
hands both the same partials and adds the same shares to their operands; and both pass on the same
sets.  Where the rule of the operation fails, so does the call, at the same position and with the same
source.
-/

set_option autoImplicit false
set_option relaxedAutoImplicit false

namespace TaylorTape

section Outcomes

variable {ε α : Type} {E : ε → ε → Prop} {P : α → Prop}

/-- Two things that are one, of which something is known. -/
structure Same (P : α → Prop) (a a' : α) : Prop where
  same : a' = a
  known : P a

private theorem Alike.keeps [Std.Refl E] {x : Except ε α} (known : ∀ a, x = .ok a → P a) :
    Alike E (Same P) x x :=
  (Alike.refl x).known.mono fun a _ both => ⟨both.2.symm, known a both.1⟩

end Outcomes

/-- Two errors that are the same, or the failures of an operation and of an atomic at one position
with one source. -/
inductive SameCause : Error → Error → Prop where
  | same (err : Error) : SameCause err err
  | exchanged (index : Nat) (name name' : String) (source : Error) :
    SameCause (.op index name source) (.atomic index name' source)

instance : Std.Refl SameCause :=
  ⟨.same⟩

private theorem SameCause.reported {α : Type} (i : Nat) (name name' : String) (x : Except Error α) :
    Alike SameCause (· = ·) (x.mapError (.op i name)) (x.mapError (.atomic i name')) := by
  cases x with
  | ok a => exact .ok rfl
  | error source => exact .error (.exchanged i name name' source)

variable {B F : Type} [Scalar F] [Base B F]

/-! ### Forward sweeps -/

namespace Tape.Twin

variable {tape tape' : Tape B} {c : Coefficients B} {q d i : Nat} (twin : tape.Twin tape')
include twin

private theorem fits (fits : tape.Fits c q d) : tape'.Fits c q d :=
  ⟨fits.wellFormed, fits.extent.trans twin.size_eq.symm, fits.order, fits.direction⟩

private theorem arguments_eq {args : List Nat} (inside : ∀ a ∈ args, a < tape.size) (orders : Nat) :
    tape'.arguments c args orders d = tape.arguments c args orders d := by
  refine mapM_congr fun a reads => ?_
  obtain ⟨e, found⟩ := Tape.exists_entry (inside a reads)
  obtain ⟨e', found', entries⟩ := twin.exists_entry found
  have mark : (e' != .const) = (e != .const) := by
    rw [Bool.eq_iff_iff, bne_iff_ne, bne_iff_ne]
    exact not_congr entries.const_iff
  rw [found, found']
  simp only [ok_bind, mark]

private theorem produced (wf : tape.WellFormed) (fits : tape.Fits c q d) (seed : List B)
    (inside : i < tape.size) :
    Alike SameCause (· = ·) (tape.produced c q d seed i) (tape'.produced c q d seed i) := by
  obtain ⟨e, found⟩ := Tape.exists_entry inside
  obtain ⟨e', found', entries⟩ := twin.exists_entry found
  have below : ∀ a ∈ e.operands, a < tape.size := fun a reads => wf.operand_lt found reads
  cases entries with
  | same plain =>
    have same : tape'.produced c q d seed i = tape.produced c q d seed i := by
      unfold Tape.produced
      rw [found, found', ok_bind, ok_bind]
      cases e with
      | call place args n => exact absurd rfl (plain place args n)
      | const => simp only [twin.value_eq]
      | input | unary | binary | result => rfl
    rw [same]
    exact .refl _
  | @call place place' n args r there there' =>
    have given : tape'.arguments c args (q + 1) d = tape.arguments c args (q + 1) d :=
      twin.arguments_eq below (q + 1)
    have same : tape'.produced c q d seed i = tape.produced c q d seed i := by
      unfold Tape.produced
      simp only [found, found', ok_bind, fetch_eq_ok_iff.2 there, fetch_eq_ok_iff.2 there', given]
    rw [same]
    exact .refl _
  | computed operation there' computes =>
    rw [Entry.operands_of_operation operation] at below
    rw [produced_of_operation fits found operation below,
      produced_of_computes (twin.fits fits) found' there' computes
        (Entry.arity_of_operation operation) fun a reads => twin.size_eq ▸ below a reads]
    exact (SameCause.reported i _ _ _).bind fun x _ same => .ok (same ▸ rfl)

private theorem advance (wf : tape.WellFormed) (seed : List B) (inside : i < tape.size) :
    Paired SameCause (Same fun c => tape.Fits c q d) (· = ·) (tape.advance q d seed i)
      (tape'.advance q d seed i) := by
  rintro _ c ⟨rfl, fits⟩
  have left := fits.frame (advance_frame wf fits seed inside)
  suffices both : Alike SameCause (· = ·) (tape.advance q d seed i c).1
        (tape'.advance q d seed i c).1 ∧
      (tape'.advance q d seed i c).2 = (tape.advance q d seed i c).2 from
    ⟨both.1, both.2, left⟩
  have produced := twin.produced wf fits seed inside
  unfold Tape.advance
  rw [run_bind_ok (run_get c), run_bind_ok (run_get c), run_bind, run_bind, run_lift, run_lift]
  generalize tape.produced c q d seed i = x, tape'.produced c q d seed i = x' at produced
  cases produced with
  | ok related => exact related ▸ ⟨.refl _, rfl⟩
  | error related => exact ⟨.error related, rfl⟩

private theorem sweep (wf : tape.WellFormed) (seed : List B) :
    Paired SameCause (Same fun c => tape.Fits c q d) (· = ·) (tape.sweep q d seed)
      (tape'.sweep q d seed) := by
  unfold Tape.sweep
  rw [twin.size_eq]
  exact .forM fun i member => twin.advance wf seed (List.mem_range.1 member)

private theorem sweeps (wf : tape.WellFormed) (seeds : List (List B)) :
    Paired SameCause (Same fun c => tape.FitsAll c q 0 seeds.length) (· = ·)
      (tape.sweeps q 0 seeds) (tape'.sweeps q 0 seeds) := by
  refine .forM fun p member => ?_
  rintro _ c ⟨rfl, fits⟩
  have below : p.2 < seeds.length := by
    have := List.snd_lt_add_of_mem_zipIdx member
    omega
  have fit : tape.Fits c q p.2 := Nat.zero_add p.2 ▸ fits p.2 below
  have swept := twin.sweep wf p.1 c c ⟨rfl, fit⟩
  exact ⟨swept.1, swept.2.same, fun s low => (fits s low).frame (sweep_frame wf fit p.1)⟩

end Tape.Twin

namespace Evaluator.Twin

variable {e e' : Evaluator B} (twin : e.Twin e') {q r : Nat} {seeds : List (List B)}
include twin

private theorem numInputs_eq : e'.numInputs = e.numInputs :=
  twin.tape.inputs

private theorem numOutputs_eq : e'.numOutputs = e.numOutputs :=
  congrArg List.length twin.outputs

private theorem checkForward_eq (q r : Nat) (seeds : List (List B)) :
    e'.checkForward q r seeds = e.checkForward q r seeds := by
  unfold checkForward numOrders numDirections
  rw [twin.numInputs_eq, twin.table]

/-- A call for an order on both. -/
theorem forward (wf : e.WellFormed) (q r : Nat) (seeds : List (List B)) :
    Alike SameCause (· = ·) (forward q r seeds e).1 (forward q r seeds e').1 ∧
      (Evaluator.forward q r seeds e).2.Twin (Evaluator.forward q r seeds e').2 := by
  cases checked : e.checkForward q r seeds with
  | error err =>
    rw [forward_of_refused checked, forward_of_refused (twin.checkForward_eq q r seeds ▸ checked)]
    exact ⟨.error (.same err), twin⟩
  | ok _ =>
    have accepts := checkForward_eq_ok.1 checked
    have accepts' : e'.Accepts q r seeds :=
      checkForward_eq_ok.1 ((twin.checkForward_eq q r seeds).trans checked)
    obtain ⟨_, t, room, rfl, ready⟩ := exists_ready wf accepts
    have room' : e'.table.reserve (q + 1) (if q = 0 then e'.numDirections else r) = .ok t := by
      unfold numDirections
      rwa [twin.table]
    have fits : e.tape.FitsAll { t with numOrders := q } q 0 seeds.length :=
      accepts.count ▸ ready.fits
    have swept := twin.tape.sweeps wf.tape seeds _ _ ⟨rfl, fits⟩
    rw [forward_of_reserve accepts room, forward_of_reserve accepts' room']
    cases ran : e.tape.sweeps q 0 seeds { t with numOrders := q } with
    | mk outcome u =>
      cases ran' : e'.tape.sweeps q 0 seeds { t with numOrders := q } with
      | mk outcome' u' =>
        rw [ran, ran'] at swept
        obtain ⟨alike, rfl, _⟩ := swept
        cases alike with
        | error related => exact ⟨.error related, twin.tape, twin.outputs, rfl⟩
        | ok =>
          refine ⟨?_, twin.tape, twin.outputs, rfl⟩
          dsimp only [outputCoefficients]
          rw [twin.outputs]
          exact .refl _

theorem afterAll (wf : e.WellFormed) (asks : List (Ask B)) :
    (e.afterAll asks).Twin (e'.afterAll asks) ∧ (e.afterAll asks).WellFormed := by
  induction asks generalizing e e' with
  | nil => exact ⟨twin, wf⟩
  | cons a asks ih =>
    exact ih (twin.forward wf a.order a.directions a.seeds).2
      (forward_kept wf a.order a.directions a.seeds).1

end Evaluator.Twin

/-! ### Reverse sweeps -/

namespace Evaluator

variable {e e' : Evaluator B} {q i : Nat} {ps : Array (Series B)}

private theorem size_gathered {v : Nat} {p x sum : Series B} (done : e.gathered v p x = .ok sum) :
    sum.size = p.size := by
  obtain ⟨shape, _, walked⟩ := bind_eq_ok.1 done
  rw [List.range_eq_range'] at walked
  refine foldlM_up_kept (P := fun _ s => s.size = p.size) ?_ rfl walked
  intro k s t _ _ size added
  obtain ⟨y, _, added⟩ := bind_eq_ok.1 added
  obtain ⟨old, _, added⟩ := bind_eq_ok.1 added
  obtain ⟨z, _, stored⟩ := bind_eq_ok.1 added
  obtain ⟨inside, rfl⟩ := store_eq_ok_iff.1 stored
  rw [Array.size_set, size]

private theorem Carries.accumulate (carries : e.Carries (fun _ p => p.size = q) ps) {v : Nat}
    (inside : v < e.tape.size) {x : Series B} {next : Array (Series B)}
    (done : e.accumulate ps v x = .ok next) : e.Carries (fun _ p => p.size = q) next := by
  obtain ⟨entry, found⟩ := Tape.exists_entry inside
  obtain ⟨p, there, size⟩ := carries.exists_partials inside
  rw [accumulate_eq found there] at done
  split at done
  · obtain rfl := Except.ok.inj done
    exact carries
  · obtain ⟨sum, gathered, stored⟩ := bind_eq_ok.1 done
    obtain ⟨room, rfl⟩ := store_eq_ok_iff.1 stored
    refine ⟨(Array.size_set room).trans carries.size, fun w p' there' => ?_⟩
    rw [Array.getElem?_set] at there'
    split at there'
    · obtain rfl := Option.some.inj there'
      exact (size_gathered gathered).trans size
    · exact carries.valid w p' there'

/-- Partials that are the same on both sides, and have the first `q` orders of every variable. -/
def SamePartials (e : Evaluator B) (q : Nat) : Array (Series B) → Array (Series B) → Prop :=
  Same (e.Carries fun _ p => p.size = q)

namespace Twin

variable (twin : e.Twin e')
include twin

private theorem accumulate_eq {v : Nat} (inside : v < e.tape.size) (x : Series B) :
    e'.accumulate ps v x = e.accumulate ps v x := by
  obtain ⟨entry, found⟩ := Tape.exists_entry inside
  obtain ⟨entry', found', entries⟩ := twin.tape.exists_entry found
  unfold accumulate
  rw [found, found', twin.table]
  simp only [ok_bind, entries.const_iff]

private theorem accumulate {v : Nat} (inside : v < e.tape.size) (x : Series B)
    {ps ps' : Array (Series B)} (partials : e.SamePartials q ps ps') :
    Alike SameCause (e.SamePartials q) (e.accumulate ps v x) (e'.accumulate ps' v x) := by
  obtain ⟨rfl, carries⟩ := partials
  rw [twin.accumulate_eq inside]
  exact .keeps fun next added => carries.accumulate inside added

private theorem passed (wf : e.WellFormed) (positive : q ≠ 0) (orders : q ≤ e.numOrders)
    {entry entry' : Entry} (found : e.tape.entry i = .ok entry)
    (entries : Entry.Twin e.tape.atomics e'.tape.atomics entry entry') {own : List (Series B)}
    (count : own.length = entry.span) (sizes : ∀ p ∈ own, p.size = q) :
    Alike SameCause (· = ·) (e.passed q i entry own) (e'.passed q i entry' own) := by
  have here := Tape.lt_size_of_entry found
  have reads : ∀ v < e.tape.size, e.table.series v q 0 = .ok (.of (e.table.along 0 v) q) :=
    fun v inside => wf.series inside orders
  have below : ∀ a ∈ entry.operands, a < e.tape.size := fun a reads => wf.tape.operand_lt found reads
  cases entries with
  | same plain =>
    have same : e'.passed q i entry own = e.passed q i entry own := by
      unfold Evaluator.passed
      rw [twin.table]
      cases entry with
      | call place args n => exact absurd rfl (plain place args n)
      | input | const | result => rfl
      | unary | binary =>
        obtain ⟨pz, rfl⟩ := List.length_eq_one_iff.1 count
        rfl
    rw [same]
    exact .refl _
  | @call place place' n args r there there' =>
    have same : e'.passed q i (.call place' args n) own = e.passed q i (.call place args n) own := by
      unfold Evaluator.passed
      simp only [fetch_eq_ok_iff.2 there, fetch_eq_ok_iff.2 there', twin.table]
    rw [same]
    exact .refl _
  | computed operation there' computes =>
    rw [Entry.span_of_operation operation] at count
    obtain ⟨pz, rfl⟩ := List.length_eq_one_iff.1 count
    rw [Entry.operands_of_operation operation] at below
    have size := twin.tape.size_eq
    rw [passed_of_operation reads here operation below,
      passed_of_computes (by rwa [size, twin.table]) positive (size ▸ here) there' computes
        (Entry.arity_of_operation operation) (fun a given => size ▸ below a given)
        (sizes pz List.mem_cons_self), twin.table]
    exact SameCause.reported i _ _ _

private theorem retreat (wf : e.WellFormed) (positive : q ≠ 0) (orders : q ≤ e.numOrders)
    (idle : B → Bool)
    {ps ps' : Array (Series B)} (partials : e.SamePartials q ps ps') (inside : i < e.tape.size) :
    Alike SameCause (e.SamePartials q) (e.retreat idle q ps i) (e'.retreat idle q ps' i) := by
  obtain ⟨rfl, carries⟩ := partials
  obtain ⟨entry, found⟩ := Tape.exists_entry inside
  obtain ⟨entry', found', entries⟩ := twin.tape.exists_entry found
  obtain ⟨own, read⟩ : ∃ own, (List.range' i entry.span).mapM (fetch ps') = .ok own := by
    refine exists_mapM fun v member => ?_
    have room := wf.tape.span_le found
    have := List.mem_range'_1.1 member
    obtain ⟨p, there, _⟩ := carries.exists_partials (v := v) (by omega)
    exact ⟨p, fetch_eq_ok_iff.2 there⟩
  have sizes : ∀ p ∈ own, p.size = q := fun p member => by
    obtain ⟨v, _, there⟩ := exists_of_mem_mapM read member
    exact carries.valid v p (fetch_eq_ok_iff.1 there)
  have count : own.length = entry.span := by
    rw [length_of_mapM read, List.length_range']
  rw [retreat_eq found read, retreat_eq found' (entries.span_eq ▸ read), entries.operands_eq]
  split
  · exact .ok ⟨rfl, carries⟩
  refine (twin.passed wf positive orders found entries count sizes).bind fun shares _ same =>
    same ▸ ?_
  exact Alike.foldlM (fun p member _ _ => twin.accumulate
    (wf.tape.operand_lt found (List.of_mem_zip member).1) p.2) ⟨rfl, carries⟩

private theorem checkReverse_eq (q : Nat) (weights : List (List B)) :
    e'.checkReverse q weights = e.checkReverse q weights := by
  unfold checkReverse numOrders numDirections
  rw [twin.numOutputs_eq, twin.table]

/-- A reverse sweep on both. -/
theorem reverse (wf : e.WellFormed) (q : Nat) (weights : List (List B)) :
    Alike SameCause (· = ·) (e.reverse q weights) (e'.reverse q weights) := by
  unfold Evaluator.reverse reverseWith
  rw [twin.checkReverse_eq]
  cases checked : e.checkReverse q weights with
  | error err => exact .error (.same err)
  | ok _ =>
    have accepts := checkReverse_eq_ok.1 checked
    have size : e'.size = e.size := twin.tape.size_eq
    rw [ok_bind, ok_bind, twin.outputs, twin.numInputs_eq, twin.table, size]
    have start : e.Carries (fun _ p => p.size = q) (Array.replicate e.size (Series.zeros q)) := by
      refine ⟨Array.size_replicate, fun v p there => ?_⟩
      obtain ⟨_, rfl⟩ := Array.getElem?_eq_some_iff.1 there
      rw [Array.getElem_replicate]
      exact Array.size_replicate
    refine Alike.bind (R := e.SamePartials q) ?_ fun weighted weighted' partials => ?_
    · exact Alike.foldlM (fun p member _ _ => twin.accumulate
        (wf.outputs p.1 (List.of_mem_zip member).1) p.2.toArray) ⟨rfl, start⟩
    refine Alike.bind (R := e.SamePartials q) ?_ fun ps ps' partials => ?_
    · refine Alike.foldlM (fun i member _ _ partials => ?_) partials
      exact twin.retreat wf accepts.positive accepts.orders _ partials
        (List.mem_range.1 (List.mem_reverse.1 member))
    · rw [partials.same]
      exact .refl _

end Twin

end Evaluator

/-! ### Sparsity patterns -/

namespace Tape

variable {tape tape' : Tape B} {i : Nat} {sets : Array IndexSet}

omit [Scalar F] [Base B F] in
private theorem WellFormed.embeds_self (wf : tape.WellFormed) : tape.Embeds tape (fun i => i) where
  inputs := rfl
  atomics := rfl
  inputs_le := wf.inputs_le
  fixed _ _ := rfl
  increasing _ _ before _ := before
  node i e v there := by
    rw [Entry.relabel_eq_self fun _ _ => rfl]
    exact there
  names _ _ found _ named := wf.names_lt found named
  results i place args n found k below := by
    have room : i + n ≤ tape.size := wf.span_le found
    exact ⟨by omega, rfl⟩

omit [Scalar F] [Base B F] in
private theorem size_joinAt {v : Nat} {s : IndexSet} {next : Array IndexSet}
    (done : joinAt sets v s = .ok next) : next.size = sets.size := by
  obtain ⟨t, _, stored⟩ := bind_eq_ok.1 done
  obtain ⟨inside, rfl⟩ := store_eq_ok_iff.1 stored
  exact Array.size_set inside

omit [Scalar F] [Base B F] in
private theorem WellFormed.exists_spread (wf : tape.WellFormed) (size : sets.size = tape.size)
    (inside : i < tape.size) : ∃ next, tape.spread sets i = .ok next ∧ next.size = tape.size := by
  have own : Tape.Selects tape tape (fun i => i) (fun _ => True) sets sets :=
    ⟨size, size, fun _ _ => rfl, fun _ _ _ _ => trivial⟩
  have concur : Concur True _ (tape.spread sets i) (tape.spread sets i) :=
    wf.embeds_self.spread_concur wf own inside
  cases walked : tape.spread sets i with
  | ok next =>
    obtain ⟨_, _, selects⟩ := concur.exists_ok walked
    exact ⟨next, rfl, selects.size⟩
  | error err =>
    rw [walked] at concur
    cases concur with
    | error fallible => exact absurd trivial fallible

namespace Twin

variable (twin : tape.Twin tape')
include twin

private theorem gather_eq (inside : i < tape.size) : tape'.gather sets i = tape.gather sets i := by
  obtain ⟨e, found⟩ := Tape.exists_entry inside
  obtain ⟨e', found', entries⟩ := twin.exists_entry found
  cases entries with
  | same plain =>
    unfold Tape.gather
    rw [found, found', ok_bind, ok_bind]
    cases e with
    | call place args n => exact absurd rfl (plain place args n)
    | input | const | unary | binary | result => rfl
  | call there there' =>
    unfold Tape.gather
    simp only [found, found', ok_bind, fetch_eq_ok_iff.2 there, fetch_eq_ok_iff.2 there']
  | computed operation there' computes =>
    rw [gather_of_operation found operation, gather_of_computes found' there' computes]

private theorem spread_eq (wf : tape.WellFormed) (size : sets.size = tape.size)
    (inside : i < tape.size) :
    tape'.spread sets i = tape.spread sets i := by
  obtain ⟨e, found⟩ := Tape.exists_entry inside
  obtain ⟨e', found', entries⟩ := twin.exists_entry found
  cases entries with
  | same plain =>
    unfold Tape.spread
    rw [found, found', ok_bind, ok_bind]
    cases e with
    | call place args n => exact absurd rfl (plain place args n)
    | input | const | unary | binary | result => rfl
  | call there there' =>
    unfold Tape.spread
    simp only [found, found', ok_bind, fetch_eq_ok_iff.2 there, fetch_eq_ok_iff.2 there']
  | computed operation there' computes =>
    have below : ∀ a ∈ e.operands, a < tape.size := fun a reads => wf.operand_lt found reads
    rw [Entry.operands_of_operation operation] at below
    rw [spread_of_operation found operation, spread_of_computes found' there' computes
      (fun a reads => size ▸ below a reads) (size ▸ inside)]

end Twin

end Tape

namespace Evaluator.Twin

variable {e e' : Evaluator B} (twin : e.Twin e')
include twin

/-- The walks forward find one pattern. -/
theorem forwardSparsity (wf : e.WellFormed) :
    ∃ p, e.forwardSparsity = .ok p ∧ e'.forwardSparsity = .ok p := by
  have own : e.Embeds e (fun i => i) := ⟨wf, wf, wf.tape.embeds_self, List.map_id' _⟩
  obtain ⟨p, found, _⟩ := own.forwardSparsity_concur.exists_same
  refine ⟨p, found, ?_⟩
  have walks (start : Array IndexSet) : (List.range e.size).foldlM e'.tape.gather start =
      (List.range e.size).foldlM e.tape.gather start := by
    refine Alike.eq (Alike.foldlM (T := (· = ·)) ?_ rfl)
    rintro i member sets _ rfl
    rw [twin.tape.gather_eq (List.mem_range.1 member)]
    exact .refl _
  have size : e'.size = e.size := twin.tape.size_eq
  rw [← found]
  unfold Evaluator.forwardSparsity
  rw [size, walks, twin.outputs, twin.numInputs_eq, twin.numOutputs_eq]

/-- The walks back of twins give one pattern. -/
theorem reverseSparsity (wf : e.WellFormed) :
    ∃ p, e.reverseSparsity = .ok p ∧ e'.reverseSparsity = .ok p := by
  have own : e.Embeds e (fun i => i) := ⟨wf, wf, wf.tape.embeds_self, List.map_id' _⟩
  obtain ⟨p, found, _⟩ := own.reverseSparsity_concur.exists_same
  refine ⟨p, found, ?_⟩
  have size : e'.size = e.size := twin.tape.size_eq
  rw [← found]
  unfold Evaluator.reverseSparsity
  rw [size, twin.outputs, twin.numInputs_eq, twin.numOutputs_eq]
  refine Alike.eq (Alike.bind (R := Same fun sets => sets.size = e.size) ?_ fun sets sets' both => ?_)
  · refine Alike.foldlM (fun p _ sets _ both => ?_) ⟨rfl, Array.size_replicate⟩
    rw [both.same]
    exact .keeps fun next joined => (Tape.size_joinAt joined).trans both.known
  refine Alike.bind (R := Same fun sets => sets.size = e.size) ?_ fun sets sets' both => ?_
  · refine Alike.foldlM (fun i member sets _ both => ?_) both
    have inside : i < e.tape.size := List.mem_range.1 (List.mem_reverse.1 member)
    rw [both.same, twin.tape.spread_eq wf.tape both.known inside]
    refine .keeps fun next walked => ?_
    obtain ⟨_, walked', size⟩ := wf.tape.exists_spread both.known inside
    exact Except.ok.inj (walked.symm.trans walked') ▸ size
  · rw [both.same]
    exact .refl _

end Evaluator.Twin

end TaylorTape
