import TaylorTape.Proofs.Adjoint
import TaylorTape.Proofs.Run

/-!
Evaluators that agree in their valid orders cannot be told apart.

A sweep reads lower orders, and of its own order only what it has written before.  So on two
evaluators that have the same orders with the same coefficients, whatever else their tables hold, the
next sweep has the same outcome, and where it succeeds they agree in one order more.  A call that
fails leaves the orders below its own as they were.
-/

set_option autoImplicit false
set_option relaxedAutoImplicit false

namespace TaylorTape

variable {B F : Type} [Scalar F] [Base B F]

namespace Tape

variable {tape : Tape B} {c c' : Coefficients B} {q d : Nat}

/-- The two tables have the same coefficients below an order, along a direction. -/
def SameLow (tape : Tape B) (q d : Nat) (c c' : Coefficients B) : Prop :=
  ∀ v < tape.size, ∀ k < q, c.along d v k = c'.along d v k

/-- A sweep has the same outcome on two tables that agree below its order; where it succeeds they
agree at its order too. -/
private theorem sweep_agree (wf : tape.WellFormed) (builtIns : tape.OnlyBuiltIns)
    (fits : tape.Fits c q d)
    (fits' : tape.Fits c' q d) (low : tape.SameLow q d c c') (seed : List B) :
    (tape.sweep q d seed c).1 = (tape.sweep q d seed c').1 ∧
      ((tape.sweep q d seed c).1 = .ok () → ∀ v < tape.size,
        (tape.sweep q d seed c).2.value v q d = (tape.sweep q d seed c').2.value v q d) := by
  -- in front of a position both sweeps have done the same
  have all := forM_agree (f := tape.advance q d seed) (a := 0) (n := tape.size)
    (R := fun i t t' => c.Frame (Sweep.Cells (tape.Produced i) q d) t ∧
      c'.Frame (Sweep.Cells (tape.Produced i) q d) t' ∧
      ∀ v, tape.Produced i v → t.value v q d = t'.value v q d) ?_
    ⟨.refl c, .refl c', fun v made => absurd made (not_produced_zero tape v)⟩
  · rw [Nat.zero_add] at all
    unfold sweep
    rw [List.range_eq_range']
    obtain ⟨same, agreed⟩ := all
    refine ⟨same, fun done v inside => ?_⟩
    exact (agreed done).2.2 v (wf.produced_of_lt le_rfl inside)
  · intro i s s' _ high ⟨frame, frame', agreed⟩
    have inside : i < tape.size := by omega
    obtain ⟨e, found⟩ := exists_entry inside
    have fit : tape.Fits s q d := fits.frame frame
    have fit' : tape.Fits s' q d := fits'.frame frame'
    have made : tape.produced s q d seed i = tape.produced s' q d seed i := by
      apply produced_congr wf builtIns fit fit' inside
      · intro v var k below
        have apart : ¬ Sweep.Cells (tape.Produced i) q d v k d := fun hit => by
          have := hit.2.1
          omega
        show s.value v k d = s'.value v k d
        rw [frame.values v k d (fits.inside var (le_of_lt below)) apart,
          frame'.values v k d (fits'.inside var (le_of_lt below)) apart]
        exact low v var k below
      · exact agreed
    cases produced : tape.produced s q d seed i with
    | error err =>
      have stuck : ∀ t, tape.produced t q d seed i = .error err →
          tape.advance q d seed i t = (.error err, t) := by
        intro t refused
        unfold advance
        rw [run_bind_ok (run_get t), run_bind, run_lift, refused]
      rw [stuck s produced, stuck s' (made ▸ produced)]
      exact ⟨rfl, nofun⟩
    | ok xs =>
      obtain ⟨t, done, wrote, written⟩ := advance_of_produced wf fit found produced
      obtain ⟨t', done', wrote', written'⟩ := advance_of_produced wf fit' found (made ▸ produced)
      rw [done, done']
      have wider : ∀ v k d', Sweep.Cells (tape.Produced i) q d v k d' →
          Sweep.Cells (tape.Produced (i + 1)) q d v k d' :=
        fun v k d' hit => ⟨(produced_succ found).2 (.inl hit.1), hit.2⟩
      have own : ∀ v k d', Sweep.Cells (fun v => i ≤ v ∧ v < i + e.span) q d v k d' →
          Sweep.Cells (tape.Produced (i + 1)) q d v k d' :=
        fun v k d' hit => ⟨(produced_succ found).2 (.inr hit.1), hit.2⟩
      refine ⟨rfl, fun _ => ⟨(frame.mono wider).trans (wrote.mono own),
        (frame'.mono wider).trans (wrote'.mono own), ?_⟩⟩
      intro v before
      rcases (produced_succ found).1 before with earlier | ⟨low', high'⟩
      · have apart : ¬ Sweep.Cells (fun v => i ≤ v ∧ v < i + e.span) q d v q d :=
          fun hit => wf.not_produced found hit.1.1 hit.1.2 earlier
        have var := wf.lt_of_produced earlier
        rw [wrote.values v q d (fit.inside var le_rfl) apart,
          wrote'.values v q d (fit'.inside var le_rfl) apart]
        exact agreed v earlier
      · have count := length_produced found produced
        obtain ⟨r, rfl⟩ := Nat.exists_eq_add_of_le low'
        have there : xs[r]? = some xs[r] := List.getElem?_eq_getElem (by omega)
        rw [written r _ there, written' r _ there]

private theorem sweeps_settled (wf : tape.WellFormed) {seeds : List (List B)}
    (fit : tape.Fits c q d) (fits : tape.FitsAll c q (d + 1) seeds.length)
    (first : q = 0 → seeds = []) (done : (tape.sweeps q (d + 1) seeds c).1 = .ok ()) {v : Nat}
    (var : v < tape.size) : (tape.sweeps q (d + 1) seeds c).2.value v q d = c.value v q d := by
  by_cases zero : q = 0
  · rw [first zero]
    rfl
  · have frame := (sweeps_sound wf fits (fun zero' => absurd zero' zero) (Prod.ext done rfl)).1
    apply frame.values v q d (fit.inside var le_rfl)
    rintro ⟨_, zero' | above⟩
    · exact zero zero'
    · omega

/-- Sweeps along some directions in a row agree on tables that agree on the lower orders. -/
private theorem sweeps_agree (wf : tape.WellFormed) (builtIns : tape.OnlyBuiltIns)
    {seeds : List (List B)}
    (fits : tape.FitsAll c q d seeds.length) (fits' : tape.FitsAll c' q d seeds.length)
    (point : q = 0 → seeds.length ≤ 1)
    (low : ∀ s < seeds.length, tape.SameLow q (d + s) c c') :
    (tape.sweeps q d seeds c).1 = (tape.sweeps q d seeds c').1 ∧
      ((tape.sweeps q d seeds c).1 = .ok () → ∀ s < seeds.length, ∀ v < tape.size,
        (tape.sweeps q d seeds c).2.value v q (d + s) =
          (tape.sweeps q d seeds c').2.value v q (d + s)) := by
  induction seeds generalizing c c' d with
  | nil => exact ⟨rfl, fun _ s below => absurd below (Nat.not_lt_zero s)⟩
  | cons seed seeds ih =>
    have fit : tape.Fits c q d := fits 0 (by simp)
    have fit' : tape.Fits c' q d := fits' 0 (by simp)
    obtain ⟨same, agreed⟩ := sweep_agree wf builtIns fit fit' (low 0 (by simp)) seed
    have frame := sweep_frame wf fit seed
    have frame' := sweep_frame wf fit' seed
    rw [sweeps_cons, run_bind, run_bind]
    cases ran : tape.sweep q d seed c with
    | mk outcome t =>
      cases ran' : tape.sweep q d seed c' with
      | mk outcome' t' =>
        rw [ran, ran'] at same agreed
        rw [ran] at frame
        rw [ran'] at frame'
        obtain rfl : outcome = outcome' := same
        cases outcome with
        | error err => exact ⟨rfl, nofun⟩
        | ok _ =>
          have rest := fits.rest frame.extent frame.orders
          have rest' := fits'.rest frame'.extent frame'.orders
          have point' : q = 0 → seeds.length ≤ 1 := fun zero => by
            have := point zero
            rw [List.length_cons] at this
            omega
          have low' : ∀ s < seeds.length, tape.SameLow q (d + 1 + s) t t' := by
            intro s below v var k less
            have apart : ¬ Sweep.Cells (fun _ => True) q d v k (d + 1 + s) := fun hit => by
              have := hit.2.1
              omega
            have place : d + 1 + s = d + (s + 1) := by omega
            have beside : s + 1 < (seed :: seeds).length := by simpa using below
            show t.value v k _ = t'.value v k _
            rw [frame.values v k _ (place ▸ (fits (s + 1) beside).inside var (le_of_lt less)) apart,
              frame'.values v k _ (place ▸ (fits' (s + 1) beside).inside var (le_of_lt less)) apart,
              place]
            exact low (s + 1) beside v var k less
          obtain ⟨same', agreed'⟩ := ih rest rest' point' low'
          refine ⟨same', fun done s below v var => ?_⟩
          cases s with
          | succ s =>
            have later := agreed' done s (by simpa using below) v var
            rwa [Nat.add_right_comm, Nat.add_assoc] at later
          | zero =>
            have fitted : tape.Fits t q d := fit.frame frame
            have fitted' : tape.Fits t' q d := fit'.frame frame'
            have first : q = 0 → seeds = [] := fun zero => by
              have := point zero
              rw [List.length_cons] at this
              exact List.length_eq_zero_iff.1 (by omega)
            show (tape.sweeps q (d + 1) seeds t).2.value v q d =
              (tape.sweeps q (d + 1) seeds t').2.value v q d
            rw [sweeps_settled wf fitted rest first done var,
              sweeps_settled wf fitted' rest' first (same' ▸ done) var]
            exact agreed rfl v var

end Tape

namespace Evaluator

/-- Two evaluators of one tape have the same first orders, along the same directions. -/
structure AgreeBelow (n : Nat) (e e' : Evaluator B) : Prop where
  tape : e'.tape = e.tape
  outputs : e'.outputs = e.outputs
  orders : n ≤ e.numOrders
  orders' : n ≤ e'.numOrders
  directions : 1 < n → e'.numDirections = e.numDirections
  values : ∀ v < e.tape.size, ∀ k < n, ∀ d, (k = 0 ∨ d < e.numDirections) →
    e'.table.value v k d = e.table.value v k d

namespace AgreeBelow

variable {e e' e'' : Evaluator B} {n m : Nat}

theorem refl (e : Evaluator B) : AgreeBelow e.numOrders e e :=
  ⟨rfl, rfl, le_rfl, le_rfl, fun _ => rfl, fun _ _ _ _ _ _ => rfl⟩

theorem within (agree : AgreeBelow n e e') {k d : Nat} (low : k < n)
    (along : k = 0 ∨ d < e'.numDirections) : k = 0 ∨ d < e.numDirections := by
  by_cases zero : k = 0
  · exact .inl zero
  · have same := agree.directions (by omega)
    omega

theorem symm (agree : AgreeBelow n e e') : AgreeBelow n e' e where
  tape := agree.tape.symm
  outputs := agree.outputs.symm
  orders := agree.orders'
  orders' := agree.orders
  directions higher := (agree.directions higher).symm
  values v var k low d along :=
    (agree.values v (agree.tape ▸ var) k low d (agree.within low along)).symm

theorem trans (first : AgreeBelow n e e') (second : AgreeBelow n e' e'') : AgreeBelow n e e'' where
  tape := second.tape.trans first.tape
  outputs := second.outputs.trans first.outputs
  orders := first.orders
  orders' := second.orders'
  directions higher := (second.directions higher).trans (first.directions higher)
  values v var k low d along :=
    (second.values v (first.tape ▸ var) k low d (first.symm.within low along)).trans
      (first.values v var k low d along)

theorem mono (agree : AgreeBelow n e e') (less : m ≤ n) : AgreeBelow m e e' where
  tape := agree.tape
  outputs := agree.outputs
  orders := le_trans less agree.orders
  orders' := le_trans less agree.orders'
  directions higher := agree.directions (by omega)
  values v var k low := agree.values v var k (by omega)

end AgreeBelow

/-- A call that succeeds keeps the orders below its own. -/
theorem Advanced.agreeBelow {e e' : Evaluator B} {q r : Nat} {seeds ys : List (List B)}
    (advanced : e.Advanced q r seeds ys e') : AgreeBelow q e e' where
  tape := advanced.tape
  outputs := advanced.outputs
  orders := advanced.accepted.orders
  orders' := by
    rw [advanced.orders]
    exact Nat.le_succ q
  directions higher := by
    rw [advanced.directions, if_neg (by omega)]
    exact advanced.accepted.directions higher
  values v var k low d along := by
    refine advanced.low v var k low d ?_
    by_cases zero : k = 0
    · exact .inl zero
    · have same := advanced.accepted.directions (by omega)
      rw [advanced.directions, if_neg (by omega), same]
      exact .inr (along.resolve_left zero)

/-- Two evaluators that have the same number of orders and agree in all of them. -/
structure Agree (e e' : Evaluator B) : Prop where
  numOrders : e'.numOrders = e.numOrders
  below : AgreeBelow e.numOrders e e'

variable {e e' : Evaluator B}

/-- What one evaluator has from some seeds, another one that agrees with it has too. -/
theorem Agree.cached (agree : e.Agree e') (wf : e.WellFormed) (wf' : e'.WellFormed)
    {rows : List (List (List B))} (count : rows.length = e.numOrders) (cached : e'.Cached rows) :
    e.Cached rows := by
  have tape := agree.below.tape
  have inputs : e'.numInputs = e.numInputs := congrArg Tape.numInputs tape
  -- order zero is the same along all directions, and above it the directions are the same
  have same : ∀ k < rows.length, ∀ d < e.numDirections, ∃ d' < e'.numDirections,
      seedAt rows k d' = seedAt rows k d ∧
      ∀ v < e.tape.size, ∀ j ≤ k, e'.table.value v j d' = e.table.value v j d := by
    intro k below d along
    have values : ∀ v < e.tape.size, ∀ j ≤ k, e'.table.value v j d = e.table.value v j d :=
      fun v var j le => agree.below.values v var j (by omega) d (.inr along)
    by_cases zero : k = 0
    · subst zero
      exact ⟨0, wf'.table.directions, rfl, fun v var j le => by
        obtain rfl := Nat.le_zero.1 le
        exact values v var 0 le_rfl⟩
    · exact ⟨d, agree.below.directions (by omega) ▸ along, rfl, values⟩
  refine ⟨count.le, fun k below d along i inside => ?_, fun k below d along => ?_⟩
  · obtain ⟨d', along', seed, values⟩ := same k below d along
    have holds := cached.holds k below d' along' i (tape ▸ inside)
    rw [tape, seed] at holds
    exact holds.congr wf.tape fun v made j le => values v (wf.tape.lt_of_produced made) j le
  · obtain ⟨d', along', seed, _⟩ := same k below d along
    rw [← seed, ← inputs]
    exact cached.lengths k below d' along'

/-- A request for an order that has both evaluators agree below it is refused by both or by none, and
with the same error. -/
theorem AgreeBelow.checkForward_eq {n q : Nat} (agree : AgreeBelow n e e') (low : q ≤ n) (r : Nat)
    (seeds : List (List B)) : e'.checkForward q r seeds = e.checkForward q r seeds := by
  have inputs : e'.numInputs = e.numInputs := congrArg Tape.numInputs agree.tape
  have there : ¬ q > e.numOrders := Nat.not_lt.2 (low.trans agree.orders)
  have there' : ¬ q > e'.numOrders := Nat.not_lt.2 (low.trans agree.orders')
  unfold checkForward
  simp only [inputs, if_neg there, if_neg there']
  -- the directions are asked for above order one only, where they are the same
  by_cases higher : q > 1
  · rw [agree.directions (by omega)]
  · have settled : ∀ n : Nat, ¬ (q > 1 ∧ r ≠ n) := fun n both => higher both.1
    simp only [if_neg (settled _)]

private theorem Agree.checkForward_eq (agree : e.Agree e') (q r : Nat) (seeds : List (List B)) :
    e'.checkForward q r seeds = e.checkForward q r seeds := by
  by_cases low : q ≤ e.numOrders
  · exact agree.below.checkForward_eq low r seeds
  · have inputs : e'.numInputs = e.numInputs := congrArg Tape.numInputs agree.below.tape
    unfold checkForward
    rw [inputs, agree.numOrders]
    simp only [if_pos (show q > e.numOrders by omega)]
    rfl

theorem numOrders_of_failed {q r : Nat} {seeds : List (List B)} {err : Error} (wf : e.WellFormed)
    (accepts : e.Accepts q r seeds) (failed : forward q r seeds e = (.error err, e')) :
    e'.numOrders = q := by
  obtain ⟨c, ready, ⟨t, ys, _, run, _⟩ | ⟨t, err', ran, run⟩⟩ := forward_cases wf accepts
  · cases run.symm.trans failed
  · obtain ⟨_, rfl⟩ := Prod.mk.inj (run.symm.trans failed)
    have frame : c.Frame (fun _ k _ => k = q) (e.tape.sweeps q 0 seeds c).2 :=
      Tape.sweeps_frame wf.tape (accepts.count ▸ ready.fits)
    rw [ran] at frame
    exact frame.orders.trans ready.orders

/-- A call that fails leaves an evaluator that agrees with the former one in the orders that are
still valid. -/
theorem agreeBelow_of_failed {q r : Nat} {seeds : List (List B)} {err : Error} (wf : e.WellFormed)
    (failed : forward q r seeds e = (.error err, e')) : AgreeBelow e'.numOrders e e' := by
  by_cases accepts : e.Accepts q r seeds
  · obtain ⟨c, ready, ⟨t, ys, _, run, _⟩ | ⟨t, err', ran, run⟩⟩ := forward_cases wf accepts
    · cases run.symm.trans failed
    · obtain ⟨_, rfl⟩ := Prod.mk.inj (run.symm.trans failed)
      have frame : c.Frame (fun _ k _ => k = q) (e.tape.sweeps q 0 seeds c).2 :=
        Tape.sweeps_frame wf.tape (accepts.count ▸ ready.fits)
      rw [ran] at frame
      have orders : t.numOrders = q := numOrders_of_failed wf accepts failed
      have directions : t.numDirections = if q = 0 then e.numDirections else r :=
        frame.extent.2.2.1.trans ready.directions
      show AgreeBelow t.numOrders e { e with table := t }
      rw [orders]
      refine ⟨rfl, rfl, accepts.orders, orders.ge, fun higher => ?_, ?_⟩
      · show t.numDirections = e.numDirections
        rw [directions, if_neg (by omega)]
        exact accepts.directions higher
      · intro v var k low d along
        have along' : k = 0 ∨ d < c.numDirections := by
          by_cases zero : k = 0
          · exact .inl zero
          · have same := accepts.directions (by omega)
            rw [ready.directions, if_neg (by omega), same]
            exact .inr (along.resolve_left zero)
        have room := ready.capacity
        have inside : c.Inside v k d := ⟨ready.extent ▸ var, by omega, along'⟩
        show t.value v k d = e.table.value v k d
        rw [frame.values v k d inside (by omega)]
        exact ready.low v var k low d along'
  · obtain ⟨err', refused⟩ := forward_refused accepts
    obtain ⟨_, rfl⟩ := Prod.mk.inj (refused.symm.trans failed)
    exact .refl e

private theorem AgreeBelow.advanced {q r : Nat} {seeds ys ys' : List (List B)}
    {t t' : Evaluator B} (agree : AgreeBelow q e e') (wf : e.WellFormed)
    (advanced : e.Advanced q r seeds ys t) (advanced' : e'.Advanced q r seeds ys' t')
    (same : ∀ v < e.tape.size, ∀ d < r, t.table.value v q d = t'.table.value v q d) :
    ys = ys' ∧ AgreeBelow (q + 1) t t' := by
  have inside : ∀ {v}, v < t.tape.size → v < e.tape.size := fun var => advanced.tape ▸ var
  refine ⟨?_, ?_, ?_, advanced.orders.ge, advanced'.orders.ge, fun higher => ?_, ?_⟩
  · rw [advanced.answer, advanced'.answer, agree.outputs]
    apply List.map_congr_left
    intro d below
    apply List.map_congr_left
    intro y member
    exact same y (wf.outputs y member) d (List.mem_range.1 below)
  · rw [advanced.tape, advanced'.tape, agree.tape]
  · rw [advanced.outputs, advanced'.outputs, agree.outputs]
  · rw [advanced.directions, advanced'.directions, if_neg (by omega), if_neg (by omega)]
  · intro v var k below d along
    have positive : 0 < r := Nat.pos_of_ne_zero advanced.accepted.positive
    rcases Nat.lt_succ_iff_lt_or_eq.1 below with low | rfl
    · have along' : k = 0 ∨ d < e.numDirections ∧ d < t'.numDirections := by
        by_cases zero : k = 0
        · exact .inl zero
        · have former := advanced.accepted.directions (by omega)
          rw [advanced.directions, if_neg (by omega)] at along
          rw [advanced'.directions, if_neg (by omega)]
          omega
      rw [advanced.low v (inside var) k low d along,
        advanced'.low v (agree.tape ▸ inside var) k low d (along'.imp_right And.right)]
      exact agree.values v (inside var) k low d (along'.imp_right And.left)
    · by_cases zero : k = 0
      · subst zero
        exact (same v (inside var) 0 positive).symm
      · rw [advanced.directions, if_neg zero] at along
        exact (same v (inside var) d (along.resolve_left zero)).symm

/-- A call that both accept has the same outcome on evaluators that agree below its order; where it
succeeds, they agree in that order too. -/
theorem AgreeBelow.forward {q r : Nat} {seeds : List (List B)} (agree : AgreeBelow q e e')
    (wf : e.WellFormed) (wf' : e'.WellFormed) (builtIns : e.tape.OnlyBuiltIns)
    (accepts : e.Accepts q r seeds) (accepts' : e'.Accepts q r seeds) :
    (Evaluator.forward q r seeds e).1 = (Evaluator.forward q r seeds e').1 ∧
      ∀ ys, (Evaluator.forward q r seeds e).1 = .ok ys →
        AgreeBelow (q + 1) (Evaluator.forward q r seeds e).2
          (Evaluator.forward q r seeds e').2 := by
  obtain ⟨c, ready, outcome⟩ := forward_cases wf accepts
  obtain ⟨c', ready', outcome'⟩ := forward_cases wf' accepts'
  have tape := agree.tape
  have low : ∀ s < seeds.length, e.tape.SameLow q (0 + s) c c' := by
    intro s below v var k less
    rw [accepts.count] at below
    have along : s < c.numDirections ∧ s < c'.numDirections := by
      rw [ready.directions, ready'.directions, if_neg (by omega), if_neg (by omega)]
      exact ⟨below, below⟩
    have former : k = 0 ∨ s < e.numDirections := by
      by_cases zero : k = 0
      · exact .inl zero
      · have same := accepts.directions (by omega)
        omega
    rw [Nat.zero_add]
    show c.value v k s = c'.value v k s
    rw [ready.low v var k less s (.inr along.1), ready'.low v (tape ▸ var) k less s (.inr along.2)]
    exact (agree.values v var k less s former).symm
  have fits' : e.tape.FitsAll c' q 0 r := tape ▸ ready'.fits
  obtain ⟨same, agreed⟩ := Tape.sweeps_agree wf.tape builtIns (accepts.count ▸ ready.fits)
    (accepts.count ▸ fits') (fun zero => by rw [accepts.count, accepts.point zero]) low
  rw [tape] at outcome'
  rcases outcome with ⟨t, ys, ran, run, advanced⟩ | ⟨t, err, ran, run⟩
  · rcases outcome' with ⟨t', ys', ran', run', advanced'⟩ | ⟨t', err', ran', run'⟩
    · rw [ran, ran'] at agreed
      obtain ⟨rfl, further⟩ := agree.advanced wf advanced advanced' (by
        intro v var d below
        have there := agreed rfl d (by rwa [accepts.count]) v var
        rwa [Nat.zero_add] at there)
      rw [run, run']
      exact ⟨rfl, fun _ _ => further⟩
    · rw [ran, ran'] at same
      cases same
  · rcases outcome' with ⟨t', ys', ran', run', advanced'⟩ | ⟨t', err', ran', run'⟩
    · rw [ran, ran'] at same
      cases same
    · rw [ran, ran'] at same
      obtain rfl : err = err' := Except.error.inj same
      rw [run, run']
      exact ⟨rfl, nofun⟩

theorem Agree.forward (agree : e.Agree e') (wf : e.WellFormed) (wf' : e'.WellFormed)
    (builtIns : e.tape.OnlyBuiltIns) (q r : Nat) (seeds : List (List B)) :
    (Evaluator.forward q r seeds e).1 = (Evaluator.forward q r seeds e').1 := by
  have check := agree.checkForward_eq q r seeds
  cases checked : e.checkForward q r seeds with
  | error err => rw [forward_of_refused checked, forward_of_refused (check.trans checked)]
  | ok _ =>
    have accepts := checkForward_eq_ok.1 checked
    have accepts' := checkForward_eq_ok.1 (check.trans checked)
    exact ((agree.below.mono accepts.orders).forward wf wf' builtIns accepts accepts').1

section Reverse

variable {t : Coefficients B} {q : Nat}

private theorem accumulate_congr
    (shapes : ∀ v < e.tape.size, t.coeff v 0 0 = e.table.coeff v 0 0) :
    ({ e with table := t } : Evaluator B).accumulate = e.accumulate := by
  funext partials v share
  unfold accumulate
  cases found : e.tape.entry v with
  | error err => rfl
  | ok entry => simp only [ok_bind, shapes v (Tape.lt_size_of_entry found)]

private theorem retreat_congr (wf : e.tape.WellFormed)
    (shapes : ∀ v < e.tape.size, t.coeff v 0 0 = e.table.coeff v 0 0)
    (series : ∀ v < e.tape.size, t.series v q 0 = e.table.series v q 0) (idle : B → Bool) :
    ({ e with table := t } : Evaluator B).retreat idle q = e.retreat idle q := by
  funext partials i
  unfold retreat
  cases found : e.tape.entry i with
  | error err => rfl
  | ok entry =>
    have inside := Tape.lt_size_of_entry found
    have below : ∀ a ∈ entry.operands, a < e.tape.size := fun a reads => wf.operand_lt found reads
    simp only [ok_bind, accumulate_congr shapes]
    cases entry with
    | input | const | result owner => rfl
    | unary op a => simp only [series a (below a (by simp [Entry.operands])), series i inside]
    | binary op a b =>
      simp only [series a (below a (by simp [Entry.operands])),
        series b (below b (by simp [Entry.operands])), series i inside]
    | call place args n =>
      have room : i + n ≤ e.tape.size := wf.span_le found
      have given : args.mapM (fun a => t.series a q 0) =
          args.mapM (fun a => e.table.series a q 0) :=
        mapM_congr fun a reads => series a (below a reads)
      have results : (List.range' i n).mapM (fun j => t.series j q 0) =
          (List.range' i n).mapM (fun j => e.table.series j q 0) :=
        mapM_congr fun j member => series j (by
          have := List.mem_range'_1.1 member
          omega)
      simp only [given, results]

omit [Scalar F] [Base B F] in
private theorem checkReverse_below (outputs : e'.numOutputs = e.numOutputs)
    (orders : q ≤ e.numOrders)
    (orders' : q ≤ e'.numOrders) (directions : 1 < q → e'.numDirections = e.numDirections)
    (weights : List (List B)) : e'.checkReverse q weights = e.checkReverse q weights := by
  unfold checkReverse
  simp only [outputs, if_neg (Nat.not_lt.2 orders), if_neg (Nat.not_lt.2 orders')]
  by_cases differ : q > 1
  · rw [directions differ]
  · have no : ∀ n : Nat, ¬ (q > 1 ∧ n ≠ 1) := fun n both => differ both.1
    simp only [if_neg (no _)]

omit [Scalar F] [Base B F] in
theorem checkReverse_congr (outputs : e'.numOutputs = e.numOutputs)
    (orders : e'.numOrders = e.numOrders)
    (directions : 1 < q → q ≤ e.numOrders → e'.numDirections = e.numDirections)
    (weights : List (List B)) : e'.checkReverse q weights = e.checkReverse q weights := by
  by_cases low : q ≤ e.numOrders
  · exact checkReverse_below outputs low (orders ▸ low) (directions · low) weights
  · unfold checkReverse
    rw [orders]
    simp only [if_pos (show q > e.numOrders by omega)]
    rfl

private theorem Agree.checkReverse_eq (agree : e.Agree e') (q : Nat) (weights : List (List B)) :
    e'.checkReverse q weights = e.checkReverse q weights :=
  checkReverse_congr (congrArg List.length agree.below.outputs) agree.numOrders
    (fun differ low => agree.below.directions (by omega)) weights

theorem reverseWith_of_accepts {idle : B → Bool} {weights : List (List B)}
    (check : e'.checkReverse q weights = e.checkReverse q weights)
    (same : e.AcceptsReverse q weights → e'.AcceptsReverse q weights →
      e.reverseWith idle q weights = e'.reverseWith idle q weights) :
    e.reverseWith idle q weights = e'.reverseWith idle q weights := by
  cases checked : e.checkReverse q weights with
  | error err =>
    unfold Evaluator.reverseWith
    rw [check, checked]
    rfl
  | ok _ => exact same (checkReverse_eq_ok.1 checked) (checkReverse_eq_ok.1 (check.trans checked))

omit [Scalar F] in
private theorem received_congr (wf : e.tape.WellFormed)
    (shapes : ∀ v < e.tape.size, t.coeff v 0 0 = e.table.coeff v 0 0) :
    ({ e with table := t } : Evaluator B).received = e.received := by
  funext partials
  apply mapM_congr
  intro j member
  have input : j < e.tape.numInputs := List.mem_range.1 member
  have inside := wf.inputs_le
  simp only [shapes j (by omega)]

/-- A reverse sweep that both accept has the same outcome on evaluators that agree in its orders. -/
theorem AgreeBelow.reverseWith {weights : List (List B)} (agree : AgreeBelow q e e')
    (wf : e.WellFormed) (wf' : e'.WellFormed) (accepts : e.AcceptsReverse q weights)
    (accepts' : e'.AcceptsReverse q weights) (idle : B → Bool) :
    e.reverseWith idle q weights = e'.reverseWith idle q weights := by
  have ready := checkReverse_eq_ok.2 accepts
  have ready' := checkReverse_eq_ok.2 accepts'
  have positive := accepts.positive
  obtain ⟨tape, outputs, t⟩ := e'
  obtain rfl : tape = e.tape := agree.tape
  obtain rfl : outputs = e.outputs := agree.outputs
  have low : q ≤ e.table.numOrders := accepts.orders
  have low' : q ≤ t.numOrders := accepts'.orders
  have room := wf.table.orders
  have room' : t.numOrders ≤ t.capacity := wf'.table.orders
  have along := wf.table.directions
  have along' : 1 ≤ t.numDirections := wf'.table.directions
  have here : ∀ v < e.tape.size, ∀ k < q, e.table.Inside v k 0 := fun v var k less =>
    ⟨wf.extent ▸ var, by omega, .inr (by omega)⟩
  have there : ∀ v < e.tape.size, ∀ k < q, t.Inside v k 0 := fun v var k less =>
    ⟨(show t.numVariables = _ from wf'.extent) ▸ var, by omega, .inr (by omega)⟩
  have values : ∀ v < e.tape.size, ∀ k < q, t.value v k 0 = e.table.value v k 0 :=
    fun v var k less => agree.values v var k less 0 (.inr along)
  have shapes : ∀ v < e.tape.size, t.coeff v 0 0 = e.table.coeff v 0 0 := by
    intro v var
    rw [Coefficients.coeff_eq wf.table (here v var 0 (by omega)),
      Coefficients.coeff_eq wf'.table (there v var 0 (by omega)), values v var 0 (by omega)]
  have series : ∀ v < e.tape.size, t.series v q 0 = e.table.series v q 0 := by
    intro v var
    rw [Coefficients.series_eq wf.table (here v var),
      Coefficients.series_eq wf'.table (there v var)]
    exact congrArg _ (Series.of_congr (values v var))
  have accumulate := accumulate_congr shapes
  have retreat := retreat_congr wf.tape shapes series idle
  have received := received_congr wf.tape shapes
  unfold Evaluator.reverseWith
  rw [ready, ready']
  simp only [ok_bind, accumulate, retreat]
  congr 1
  funext weighted
  congr 1
  exact received.symm

theorem Agree.reverseWith (agree : e.Agree e') (wf : e.WellFormed) (wf' : e'.WellFormed)
    (idle : B → Bool) (q : Nat) (weights : List (List B)) :
    e.reverseWith idle q weights = e'.reverseWith idle q weights :=
  reverseWith_of_accepts (agree.checkReverse_eq q weights) fun accepts accepts' =>
    (agree.below.mono accepts.orders).reverseWith wf wf' accepts accepts' idle

theorem AgreeBelow.reverse_eq {n : Nat} (agree : AgreeBelow n e e') (wf : e.WellFormed)
    (wf' : e'.WellFormed) (low : q ≤ n) (weights : List (List B)) :
    e.reverse q weights = e'.reverse q weights :=
  reverseWith_of_accepts
    (checkReverse_below (congrArg List.length agree.outputs) (low.trans agree.orders)
      (low.trans agree.orders') (fun higher => agree.directions (higher.trans_le low)) weights)
    fun accepts accepts' =>
      (agree.mono low).reverseWith wf wf' accepts accepts' Base.isAllZero

end Reverse

end Evaluator

end TaylorTape
