import TaylorTape.Proofs.Forward
import TaylorTape.Proofs.Selection

/-!
Forward sweeps on a tape and on what is embedded into it.

The table of the smaller tape mirrors the other one: in the cells of each variable it has what the
other table has in the cells of the variable that this one is embedded as.  An entry that is embedded
produces the same on both tables, and an entry that is left out writes to cells that the mirror does
not show.  So the mirror goes along with every call for an order that succeeds.
-/

set_option autoImplicit false
set_option relaxedAutoImplicit false

namespace TaylorTape

variable {B F : Type} [Scalar F] [Base B F]

namespace Coefficients

/-- The first table has the cells of some variables of the second, under other numbers. -/
structure Mirrors (c' c : Coefficients B) (g : Nat → Nat) : Prop where
  wellFormed : c.WellFormed
  wellFormed' : c'.WellFormed
  inside : ∀ v < c'.numVariables, g v < c.numVariables
  capacity : c'.capacity = c.capacity
  orders : c'.numOrders = c.numOrders
  directions : c'.numDirections = c.numDirections
  values : ∀ v k d, c'.Inside v k d → c'.value v k d = c.value (g v) k d

namespace Mirrors

variable {c c' : Coefficients B} {g : Nat → Nat} (mirrors : c'.Mirrors c g)
include mirrors

private theorem inside_map {v k d : Nat} (inside : c'.Inside v k d) : c.Inside (g v) k d :=
  ⟨mirrors.inside v inside.1, mirrors.capacity ▸ inside.2.1, mirrors.directions ▸ inside.2.2⟩

private theorem coeff_eq {v k d : Nat} (inside : c'.Inside v k d) :
    c'.coeff v k d = c.coeff (g v) k d := by
  rw [Coefficients.coeff_eq mirrors.wellFormed' inside,
    Coefficients.coeff_eq mirrors.wellFormed (mirrors.inside_map inside), mirrors.values v k d inside]

private theorem series_eq {v n d : Nat} (inside : ∀ k < n, c'.Inside v k d) :
    c'.series v n d = c.series (g v) n d := by
  unfold series
  rw [mapM_congr fun k member => mirrors.coeff_eq (inside k (List.mem_range.1 member))]

private theorem kept_eq (directions : Nat) : c'.kept directions = c.kept directions := by
  unfold kept
  rw [mirrors.directions, mirrors.orders]

private theorem setOrders {n : Nat} (room : n ≤ c.capacity) :
    Mirrors { c' with numOrders := n } { c with numOrders := n } g where
  wellFormed := ⟨mirrors.wellFormed.size, mirrors.wellFormed.capacity, room,
    mirrors.wellFormed.directions⟩
  wellFormed' := ⟨mirrors.wellFormed'.size, mirrors.wellFormed'.capacity,
    room.trans_eq mirrors.capacity.symm, mirrors.wellFormed'.directions⟩
  inside := mirrors.inside
  capacity := mirrors.capacity
  orders := rfl
  directions := mirrors.directions
  values := mirrors.values

private theorem of_frames {changed changed' : Nat → Nat → Nat → Prop} {t t' : Coefficients B}
    (frame : c.Frame changed t) (frame' : c'.Frame changed' t')
    (shown : ∀ v k d, c'.Inside v k d → t'.value v k d = t.value (g v) k d ∨
      ¬ changed' v k d ∧ ¬ changed (g v) k d) : t'.Mirrors t g where
  wellFormed := frame.wellFormed mirrors.wellFormed
  wellFormed' := frame'.wellFormed mirrors.wellFormed'
  inside v low := by
    rw [frame.extent.1]
    exact mirrors.inside v (frame'.extent.1 ▸ low)
  capacity := by rw [frame.extent.2.1, frame'.extent.2.1, mirrors.capacity]
  orders := by rw [frame.orders, frame'.orders, mirrors.orders]
  directions := by rw [frame.extent.2.2.1, frame'.extent.2.2.1, mirrors.directions]
  values v k d inside := by
    have inside' := (frame'.extent.inside_iff v k d).1 inside
    rcases shown v k d inside' with same | ⟨kept', kept⟩
    · exact same
    · rw [frame.values _ k d (mirrors.inside_map inside') kept, frame'.values v k d inside' kept',
        mirrors.values v k d inside']

private theorem reserve (orders : Nat) {directions : Nat} (positive : 1 ≤ directions) :
    ∃ t t', c.reserve orders directions = .ok t ∧ c'.reserve orders directions = .ok t' ∧
      t'.Mirrors t g := by
  obtain ⟨t, room, wf, extent, capacity, along, kept, values⟩ :=
    Coefficients.reserve_eq mirrors.wellFormed orders positive
  obtain ⟨t', room', wf', extent', capacity', along', kept', values'⟩ :=
    Coefficients.reserve_eq mirrors.wellFormed' orders positive
  refine ⟨t, t', room, room', wf, wf', fun v low => ?_, ?_, ?_, along'.trans along.symm, ?_⟩
  · rw [extent]
    exact mirrors.inside v (extent' ▸ low)
  · rw [capacity, capacity', mirrors.capacity]
  · rw [kept, kept', mirrors.kept_eq]
  · rintro v k d ⟨var, order, direction⟩
    rw [along'] at direction
    rw [extent'] at var
    have order' : k < t.capacity := by rwa [capacity, ← mirrors.capacity, ← capacity']
    rw [values' v k d var order direction, values (g v) k d (mirrors.inside v var) order' direction,
      mirrors.kept_eq, mirrors.capacity, mirrors.directions]
    refine ite_congr rfl (fun stays => mirrors.values v k d ?_) fun _ => rfl
    rcases stays with low | ⟨enough, same⟩
    · exact inside_of_kept mirrors.wellFormed' var (mirrors.kept_eq directions ▸ low) direction
    · refine ⟨var, ?_, mirrors.directions.trans same.symm ▸ direction⟩
      rwa [capacity', Nat.max_eq_right (enough.trans_eq mirrors.capacity.symm)] at order

end Mirrors

end Coefficients

theorem Concur.answered {α : Type} (r : Registered B) (i i' order : Nat)
    (answer : Except Error (Option α)) :
    Concur False (· = ·) (Tape.answered r i order answer) (Tape.answered r i' order answer) := by
  rcases answer with source | (_ | a)
  · exact .error not_false
  · exact .error not_false
  · exact .ok rfl

namespace Tape

variable {tape small : Tape B} {g : Nat → Nat} {c c' t : Coefficients B} {q d : Nat}

namespace Embeds

variable (embeds : small.Embeds tape g)
include embeds

omit [Scalar F] [Base B F] in
private theorem value_eq {i : Nat} (inside : i < small.size) :
    tape.value (g i) = small.value i := by
  obtain ⟨⟨e, v⟩, there⟩ := exists_node inside
  unfold value
  rw [fetch_eq_ok_iff.2 there, fetch_eq_ok_iff.2 (embeds.node i e v there)]
  rfl

private theorem arguments_eq {args : List Nat} {n : Nat} (inside : ∀ a ∈ args, a < small.size)
    (same : ∀ a ∈ args, c'.series a n d = c.series (g a) n d) :
    small.arguments c' args n d = tape.arguments c (args.map g) n d := by
  unfold arguments
  rw [List.mapM_map]
  refine mapM_congr fun a reads => ?_
  obtain ⟨e, found⟩ := exists_entry (inside a reads)
  have variable_iff : (e.relabel g != .const) = (e != .const) := by
    rw [Bool.eq_iff_iff]
    simp
  simp only [Function.comp_apply, same a reads, found, embeds.entry found, ok_bind, variable_iff]

private theorem results_eq {i place n m : Nat} {args : List Nat}
    (found : small.entry i = .ok (.call place args n))
    (same : ∀ v < small.size, c'.series v m d = c.series (g v) m d) :
    Tape.results c' i n m d = Tape.results c (g i) n m d :=
  embeds.mapM_own found fun v below => by rw [same v below]

private theorem produced_concur (wf : tape.WellFormed)
    (same : ∀ v < small.size, ∀ n ≤ q + 1, c'.series v n d = c.series (g v) n d)
    (seed : List B) {i : Nat} (inside : i < small.size) :
    Concur False (· = ·) (tape.produced c q d seed (g i)) (small.produced c' q d seed i) := by
  have wf' := embeds.wellFormed wf
  obtain ⟨e, found⟩ := exists_entry inside
  have read : ∀ a ∈ e.operands, c'.series a (q + 1) d = c.series (g a) (q + 1) d := fun a reads =>
    same a (wf'.operand_lt found reads) (q + 1) le_rfl
  have own : c'.series i q d = c.series (g i) q d := same i inside q (Nat.le_succ q)
  unfold produced
  rw [found, embeds.entry found, ok_bind, ok_bind]
  cases e with
  | input =>
    have low := (wf'.inputs i .input found).1 rfl
    simp only [Entry.relabel, embeds.fixed i low]
    exact .refl _
  | const =>
    simp only [Entry.relabel, embeds.value_eq inside]
    exact .refl _
  | unary op a =>
    simp only [Entry.relabel, ← read a List.mem_cons_self, ← own]
    exact (Concur.refl _).eq_bind fun x => (Concur.refl _).eq_bind fun z =>
      ((Concur.refl (op.next x z)).mapError _ _).eq_bind fun y => .refl _
  | binary op a b =>
    simp only [Entry.relabel, ← read a List.mem_cons_self,
      ← read b (List.mem_cons_of_mem _ List.mem_cons_self), ← own]
    exact (Concur.refl _).eq_bind fun x => (Concur.refl _).eq_bind fun y =>
      (Concur.refl _).eq_bind fun z =>
        ((Concur.refl (op.next x y z)).mapError _ _).eq_bind fun w => .refl _
  | call place args n =>
    have below : ∀ a ∈ args, a < small.size := fun a reads => wf'.operand_lt found reads
    have arguments := embeds.arguments_eq below read
    have results := embeds.results_eq found fun v below => same v below (q + 1) le_rfl
    simp only [Entry.relabel, ← embeds.atomics, ← arguments, ← results]
    exact (Concur.refl _).eq_bind fun r => (Concur.refl _).eq_bind fun xs =>
      (Concur.refl _).eq_bind fun ys => (Concur.answered r _ _ q _).eq_bind fun computed => .refl _
  | result owner => exact .ok rfl

end Embeds

/-- The two tables of a sweep: one mirrors the other, and both have cells for the order of the
sweep along its direction. -/
structure Mirrored (tape small : Tape B) (g : Nat → Nat) (q d : Nat) (c c' : Coefficients B) :
    Prop where
  mirrors : c'.Mirrors c g
  fits : tape.Fits c q d
  fits' : small.Fits c' q d

namespace Mirrored

variable (mirrored : Mirrored tape small g q d c c')
include mirrored

private theorem of_frames {changed changed' : Nat → Nat → Nat → Prop} {t' : Coefficients B}
    (frame : c.Frame changed t) (frame' : c'.Frame changed' t')
    (shown : ∀ v k d, c'.Inside v k d → t'.value v k d = t.value (g v) k d ∨
      ¬ changed' v k d ∧ ¬ changed (g v) k d) : Mirrored tape small g q d t t' where
  mirrors := mirrored.mirrors.of_frames frame frame' shown
  fits := mirrored.fits.frame frame
  fits' := mirrored.fits'.frame frame'

private theorem advance (embeds : small.Embeds tape g) (wf : tape.WellFormed) {seed : List B}
    {i : Nat} (inside : i < small.size) (done : tape.advance q d seed (g i) c = (.ok (), t)) :
    ∃ t', small.advance q d seed i c' = (.ok (), t') ∧ Mirrored tape small g q d t t' := by
  obtain ⟨e, found⟩ := exists_entry inside
  obtain ⟨xs, made⟩ := produced_of_advance done
  have same : ∀ v < small.size, ∀ n ≤ q + 1, c'.series v n d = c.series (g v) n d :=
    fun v below n low => mirrored.mirrors.series_eq fun k less =>
      mirrored.fits'.inside below (Nat.le_of_lt_succ (less.trans_le low))
  obtain ⟨xs', made', rfl⟩ := (embeds.produced_concur wf same seed inside).exists_ok made
  obtain ⟨t₁, done₁, frame, written⟩ :=
    advance_of_produced wf mirrored.fits (embeds.entry found) made
  obtain ⟨t', done', frame', written'⟩ :=
    advance_of_produced (embeds.wellFormed wf) mirrored.fits' found made'
  obtain rfl : t = t₁ := congrArg Prod.snd (done.symm.trans done₁)
  refine ⟨t', done', mirrored.of_frames frame frame' fun v k d' shown => ?_⟩
  have below : v < small.size := mirrored.fits'.extent ▸ shown.1
  rw [Entry.span_relabel]
  by_cases own : i ≤ v ∧ v < i + e.span
  · by_cases here : k = q ∧ (q = 0 ∨ d' = d)
    · left
      obtain ⟨r, rfl⟩ := Nat.exists_eq_add_of_le own.1
      have low : r < e.span := by omega
      have read := List.getElem?_eq_getElem (length_produced found made' ▸ low)
      obtain ⟨rfl, along⟩ := here
      rw [(embeds.follows found low).2]
      rcases along with rfl | rfl
      · exact (written' r _ read).trans (written r _ read).symm
      · exact (written' r _ read).trans (written r _ read).symm
    · exact .inr ⟨fun hit => here hit.2, fun hit => here hit.2⟩
  · exact .inr ⟨fun hit => own hit.1, fun hit => own ((embeds.own_iff found below).1 hit.1)⟩

private theorem advance_leftOut (embeds : small.Embeds tape g) (wf : tape.WellFormed)
    {seed : List B} {i : Nat} (inside : i < tape.size) (left : small.LeftOut g i)
    (done : tape.advance q d seed i c = (.ok (), t)) : Mirrored tape small g q d t c' := by
  obtain ⟨e, found⟩ := exists_entry inside
  obtain ⟨xs, made⟩ := produced_of_advance done
  obtain ⟨t₁, done₁, frame, _⟩ := advance_of_produced wf mirrored.fits found made
  obtain rfl : t = t₁ := congrArg Prod.snd (done.symm.trans done₁)
  have still : c'.Frame (fun _ _ _ => False) c' := .refl c'
  refine mirrored.of_frames frame still fun v k d' shown => .inr ⟨not_false, fun hit => ?_⟩
  have below : v < small.size := mirrored.fits'.extent ▸ shown.1
  exact embeds.leftOut_of_produced wf left found hit.1.1 hit.1.2 v below rfl

private theorem sweep (embeds : small.Embeds tape g) (wf : tape.WellFormed) {seed : List B}
    (done : tape.sweep q d seed c = (.ok (), t)) :
    ∃ t', small.sweep q d seed c' = (.ok (), t') ∧ Mirrored tape small g q d t t' :=
  embeds.picks.forM (R := Mirrored tape small g q d)
    (fun _ inside _ _ _ mirrored step => mirrored.advance embeds wf inside step)
    (fun _ inside left _ _ _ mirrored step =>
      mirrored.advance_leftOut embeds wf inside left step) mirrored done

end Mirrored

private theorem sweeps_mirrored (embeds : small.Embeds tape g) (wf : tape.WellFormed)
    {seeds : List (List B)} (mirrors : c'.Mirrors c g) (fits : tape.FitsAll c q d seeds.length)
    (fits' : small.FitsAll c' q d seeds.length) (done : tape.sweeps q d seeds c = (.ok (), t)) :
    ∃ t', small.sweeps q d seeds c' = (.ok (), t') ∧ t'.Mirrors t g := by
  induction seeds generalizing c c' d with
  | nil =>
    obtain rfl : c = t := congrArg Prod.snd done
    exact ⟨c', rfl, mirrors⟩
  | cons seed seeds ih =>
    rw [sweeps_cons, run_bind_eq_ok] at done
    obtain ⟨_, u, first, rest⟩ := done
    have here : tape.Fits c q d := fits 0 (Nat.zero_lt_succ _)
    have here' : small.Fits c' q d := fits' 0 (Nat.zero_lt_succ _)
    obtain ⟨u', first', mirrored⟩ := Mirrored.sweep ⟨mirrors, here, here'⟩ embeds wf first
    have frame := sweep_frame wf here seed
    have frame' := sweep_frame (embeds.wellFormed wf) here' seed
    rw [first] at frame
    rw [first'] at frame'
    obtain ⟨t', rest', last⟩ := ih mirrored.mirrors (fits.rest frame.extent frame.orders)
      (fits'.rest frame'.extent frame'.orders) rest
    exact ⟨t', by rw [sweeps_cons, run_bind_ok first', rest'], last⟩

end Tape

namespace Evaluator

/-- The first evaluator is one of what is embedded into the tape of the second, with the same
outputs. -/
structure Embeds (e' e : Evaluator B) (g : Nat → Nat) : Prop where
  wellFormed : e.WellFormed
  wellFormed' : e'.WellFormed
  tape : e'.tape.Embeds e.tape g
  outputs : e'.outputs.map g = e.outputs

/-- Its table mirrors the other one. -/
structure Mirrors (e' e : Evaluator B) (g : Nat → Nat) : Prop extends Embeds e' e g where
  table : e'.table.Mirrors e.table g

variable {e e' : Evaluator B} {g : Nat → Nat} {q r : Nat} {seeds : List (List B)}

omit [Scalar F] in
theorem Embeds.numInputs_eq (embeds : e'.Embeds e g) : e'.numInputs = e.numInputs :=
  embeds.tape.inputs

omit [Scalar F] in
theorem Embeds.numOutputs_eq (embeds : e'.Embeds e g) : e'.numOutputs = e.numOutputs := by
  rw [numOutputs, numOutputs, ← embeds.outputs, List.length_map]

omit [Scalar F] in
private theorem Embeds.outputCoefficients_eq (embeds : e'.Embeds e g)
    (same : ∀ v < e'.tape.size, ∀ d < r, e'.table.coeff v q d = e.table.coeff (g v) q d) :
    e'.outputCoefficients q r = e.outputCoefficients q r := by
  unfold outputCoefficients
  refine mapM_congr fun d low => ?_
  rw [← embeds.outputs, List.mapM_map]
  exact mapM_congr fun y asked =>
    same y (embeds.wellFormed'.outputs y asked) d (List.mem_range.1 low)

namespace Mirrors

variable (mirrors : e'.Mirrors e g)
include mirrors

private theorem accepts (accepted : e.Accepts q r seeds) : e'.Accepts q r seeds where
  positive := accepted.positive
  count := accepted.count
  lengths seed member := (accepted.lengths seed member).trans mirrors.numInputs_eq.symm
  point := accepted.point
  orders := accepted.orders.trans_eq mirrors.table.orders.symm
  directions above := (accepted.directions above).trans mirrors.table.directions.symm

/-- A call for an order that succeeds on the tape has the same answer on the mirror. -/
theorem forward {ys : List (List B)} {t : Evaluator B}
    (done : Evaluator.forward q r seeds e = (.ok ys, t)) :
    ∃ t', Evaluator.forward q r seeds e' = (.ok ys, t') ∧ t'.Mirrors t g := by
  have accepts := (forward_sound mirrors.wellFormed done).accepted
  have accepts' := mirrors.accepts accepts
  obtain ⟨_, c, room, rfl, ready⟩ := exists_ready mirrors.wellFormed accepts
  obtain ⟨_, c', room', rfl, ready'⟩ := exists_ready mirrors.wellFormed' accepts'
  have shown : Coefficients.Mirrors { c' with numOrders := q } { c with numOrders := q } g := by
    have positive := ready.directions ▸ ready.wellFormed.directions
    obtain ⟨t, t', reserved, reserved', shown⟩ := mirrors.table.reserve (q + 1) positive
    have along : e'.numDirections = e.numDirections := mirrors.table.directions
    obtain rfl := Except.ok.inj (reserved.symm.trans room)
    obtain rfl := Except.ok.inj (reserved'.symm.trans (along ▸ room'))
    exact shown.setOrders ready.wellFormed.orders
  have fits := accepts.count.symm ▸ ready.fits
  have frame := Tape.sweeps_frame mirrors.wellFormed.tape fits
  have kept := forward_kept mirrors.wellFormed q r seeds
  have kept' := forward_kept mirrors.wellFormed' q r seeds
  rw [forward_of_reserve accepts room] at done kept
  cases ran : e.tape.sweeps q 0 seeds { c with numOrders := q } with
  | mk outcome u =>
    rw [ran] at done kept frame
    cases outcome with
    | error err => cases done
    | ok _ =>
      obtain ⟨answer, rfl⟩ := Prod.mk.inj done
      obtain ⟨u', ran', shown'⟩ := Tape.sweeps_mirrored mirrors.tape mirrors.wellFormed.tape shown
        fits (accepts'.count.symm ▸ ready'.fits) ran
      rw [forward_of_reserve accepts' room', ran'] at kept' ⊢
      have capacity : q + 1 ≤ u.capacity := ready.capacity.trans_eq frame.extent.2.1.symm
      have mirrored : Mirrors { e' with table := { u' with numOrders := q + 1 } }
          { e with table := { u with numOrders := q + 1 } } g :=
        ⟨⟨kept.1, kept'.1, mirrors.tape, mirrors.outputs⟩, shown'.setOrders capacity⟩
      refine ⟨_, Prod.ext ?_ rfl, mirrored⟩
      rw [← answer]
      refine mirrored.outputCoefficients_eq fun v low d below => mirrored.table.coeff_eq ⟨?_, ?_, ?_⟩
      · exact low.trans_eq kept'.1.extent.symm
      · exact (Nat.lt_of_succ_le capacity).trans_eq shown'.capacity.symm
      · have along : u'.numDirections = if q = 0 then e.numDirections else r :=
          shown'.directions.trans (frame.extent.2.2.1.trans ready.directions)
        by_cases zero : q = 0
        · exact .inl zero
        · rw [if_neg zero] at along
          exact .inr (below.trans_eq along.symm)

end Mirrors

end Evaluator

end TaylorTape
