import TaylorTape.Proofs.Sweep
import TaylorTape.Evaluator.Forward

/-!
What a call for one more order does to an evaluator.

A call that is accepted makes room and sweeps once for each direction.  If it succeeds, its order
holds of every entry along every direction, the lower orders are as they were, and the answer is
read off the table.  Whatever its outcome, the evaluator stays well-formed and keeps its tape.  A
run of calls for the orders from zero on therefore leaves a table on which every order holds.
-/

set_option autoImplicit false
set_option relaxedAutoImplicit false

namespace TaylorTape

variable {B F : Type} [Scalar F] [Base B F]

namespace Tape

variable {tape : Tape B} {c t : Coefficients B} {q d : Nat}

/-- Whatever its outcome, a step of a sweep changes the order of the sweep along its direction
only. -/
theorem advance_frame (wf : tape.WellFormed) (fits : tape.Fits c q d) (seed : List B) {i : Nat}
    (inside : i < tape.size) :
    c.Frame (Sweep.Cells (fun _ => True) q d) (tape.advance q d seed i c).2 := by
  obtain ⟨e, found⟩ := exists_entry inside
  cases made : tape.produced c q d seed i with
  | ok xs =>
    obtain ⟨t, done, written, _⟩ := advance_of_produced wf fits found made
    rw [done]
    exact written.mono fun _ _ _ hit => ⟨trivial, hit.2⟩
  | error e =>
    unfold advance
    rw [run_bind_ok (run_get c), run_bind, run_lift, made]
    exact .refl c

theorem advances_frame (wf : tape.WellFormed) (fits : tape.Fits c q d) (seed : List B) {n : Nat}
    (inside : n ≤ tape.size) : c.Frame (Sweep.Cells (fun _ => True) q d)
      ((List.range n).forM (tape.advance q d seed) c).2 := by
  refine forM_preserves (P := fun t => c.Frame (Sweep.Cells (fun _ => True) q d) t) ?_ (.refl c)
  intro i member s frame
  have inside' := (List.mem_range.1 member).trans_le inside
  exact frame.trans (advance_frame wf (fits.frame frame) seed inside')

theorem sweep_frame (wf : tape.WellFormed) (fits : tape.Fits c q d) (seed : List B) :
    c.Frame (Sweep.Cells (fun _ => True) q d) (tape.sweep q d seed c).2 :=
  advances_frame wf fits seed le_rfl

/-- The sweeps along some directions, one after another. -/
def sweeps (tape : Tape B) (q d : Nat) (seeds : List (List B)) : Sweep B Unit :=
  (seeds.zipIdx d).forM fun (seed, d) => tape.sweep q d seed

theorem sweeps_cons (tape : Tape B) (q d : Nat) (seed : List B) (seeds : List (List B)) :
    tape.sweeps q d (seed :: seeds) = tape.sweep q d seed >>= fun _ => tape.sweeps q (d + 1) seeds :=
  rfl

/-- The table has cells for this order along some directions in a row. -/
def FitsAll (tape : Tape B) (c : Coefficients B) (q d n : Nat) : Prop :=
  ∀ s < n, tape.Fits c q (d + s)

theorem FitsAll.rest {n : Nat} (fits : tape.FitsAll c q d (n + 1)) (same : c.SameExtent t)
    (orders : t.numOrders = c.numOrders) : tape.FitsAll t q (d + 1) n := by
  intro s inside
  have next := fits (s + 1) (by omega)
  rw [Nat.add_right_comm]
  exact next.sameExtent same (orders ▸ next.wellFormed.orders)

/-- Whatever their outcome, sweeps change their own order only. -/
theorem sweeps_frame (wf : tape.WellFormed) {seeds : List (List B)}
    (fits : tape.FitsAll c q d seeds.length) :
    c.Frame (fun _ k _ => k = q) (tape.sweeps q d seeds c).2 := by
  induction seeds generalizing c d with
  | nil => exact .refl c
  | cons seed seeds ih =>
    have first := sweep_frame wf (fits 0 (by simp)) seed
    rw [sweeps_cons, run_bind]
    cases ran : tape.sweep q d seed c with
    | mk outcome s =>
      rw [Nat.add_zero, ran] at first
      cases outcome with
      | error e => exact first.mono fun _ _ _ hit => hit.2.1
      | ok _ =>
        exact (first.mono fun _ _ _ hit => hit.2.1).trans (ih (fits.rest first.extent first.orders))

/-- After sweeps that succeed every entry holds along every direction. -/
theorem sweeps_sound (wf : tape.WellFormed) {seeds : List (List B)}
    (fits : tape.FitsAll c q d seeds.length) (point : q = 0 → seeds.length ≤ 1)
    (done : tape.sweeps q d seeds c = (.ok (), t)) :
    c.Frame (fun _ k d' => k = q ∧ (q = 0 ∨ d ≤ d')) t ∧
      ∀ s seed, seeds[s]? = some seed → ∀ i < tape.size, tape.Holds q seed (t.along (d + s)) i := by
  induction seeds generalizing c d with
  | nil =>
    obtain rfl : c = t := congrArg Prod.snd done
    exact ⟨.refl c, by simp⟩
  | cons seed seeds ih =>
    rw [sweeps_cons, run_bind_eq_ok] at done
    obtain ⟨_, u, first, later⟩ := done
    have swept := sweep_sound wf (fits 0 (by simp)) first
    have frame := swept.frame
    have fits' := fits.rest frame.extent frame.orders
    obtain ⟨frame', holds⟩ :=
      ih fits' (fun zero => by have := point zero; simp at this; simp [this]) later
    refine ⟨(frame.mono ?_).trans (frame'.mono ?_), ?_⟩
    · rintro v k d' ⟨_, rfl, zero | rfl⟩
      · exact ⟨rfl, .inl zero⟩
      · exact ⟨rfl, .inr le_rfl⟩
    · rintro v k d' ⟨rfl, zero | above⟩
      · exact ⟨rfl, .inl zero⟩
      · exact ⟨rfl, .inr (by omega)⟩
    · intro s seed' found i inside
      cases s with
      | succ s =>
        have := holds s seed' (by simpa using found) i inside
        rwa [Nat.add_right_comm, Nat.add_assoc] at this
      | zero =>
        obtain rfl : seed = seed' := by simpa using found
        refine (swept.holds i inside).congr wf fun v made k low => ?_
        have fit : tape.Fits u q (d + 0) := (fits 0 (by simp)).frame frame
        by_cases zero : q = 0
        · -- at order zero there is one direction, so nothing came later
          have none : seeds = [] := by simpa using point zero
          subst none
          obtain rfl : u = t := congrArg Prod.snd later
          rfl
        · refine (frame'.values v k (d + 0) (fit.inside (wf.lt_of_produced made) low) ?_).symm
          rintro ⟨_, zero' | above⟩
          · exact zero zero'
          · omega

/-- Sweeps succeed if every entry yields something good along every direction. -/
private theorem sweeps_total (wf : tape.WellFormed) (builtIns : tape.OnlyBuiltIns)
    (Good : Nat → Nat → B → Prop) {seeds : List (List B)}
    (fits : tape.FitsAll c q d seeds.length) (point : q = 0 → seeds.length ≤ 1)
    (progress : ∀ s seed, seeds[s]? = some seed → ∀ i < tape.size, ∀ c' : Nat → Nat → B,
      (∀ v < tape.size, ∀ k < q, c' v k = c.along (d + s) v k) →
      (∀ v, tape.Produced i v → Good (d + s) v (c' v q)) →
      ∃ xs, tape.Yields q seed c' i xs ∧ ∀ r x, xs[r]? = some x → Good (d + s) (i + r) x) :
    ∃ t, tape.sweeps q d seeds c = (.ok (), t) ∧
      ∀ s < seeds.length, ∀ v < tape.size, Good (d + s) v (t.value v q (d + s)) := by
  induction seeds generalizing c d with
  | nil => exact ⟨c, rfl, by simp⟩
  | cons seed seeds ih =>
    have fit : tape.Fits c q d := fits 0 (by simp)
    obtain ⟨u, first, swept, good⟩ :=
      sweep_total wf fit builtIns (Good d) fun i inside c' => progress 0 seed rfl i inside c'
    have fits' := fits.rest swept.frame.extent swept.frame.orders
    have point' : q = 0 → seeds.length ≤ 1 := fun zero => by
      have := point zero
      rw [List.length_cons] at this
      omega
    obtain ⟨t, later, goods⟩ := ih fits' point' fun s seed' found i inside c' low before => by
      rw [Nat.add_right_comm, Nat.add_assoc] at before ⊢
      refine progress (s + 1) seed' (by simpa using found) i inside c' ?_ before
      intro v var k below
      rw [low v var k below, Nat.add_right_comm, Nat.add_assoc]
      have fit' : tape.Fits c q (d + (s + 1)) := by
        refine fits (s + 1) ?_
        have := (List.getElem?_eq_some_iff.1 found).1
        rw [List.length_cons]
        omega
      refine swept.frame.values v k _ (fit'.inside var (le_of_lt below)) fun hit => ?_
      have := hit.2.1
      omega
    refine ⟨t, by rw [sweeps_cons, run_bind_ok first, later], ?_⟩
    intro s inside v var
    cases s with
    | succ s =>
      have := goods s (by simpa using inside) v var
      rwa [Nat.add_right_comm, Nat.add_assoc] at this
    | zero =>
      have frame := (sweeps_sound wf fits' point' later).1
      have fit' : tape.Fits u q d := swept.fits fit
      by_cases zero : q = 0
      · have none : seeds = [] := by
          have := point zero
          rw [List.length_cons] at this
          exact List.length_eq_zero_iff.1 (by omega)
        subst none
        obtain rfl : u = t := congrArg Prod.snd later
        exact good v var
      · rw [Nat.add_zero, frame.values v q d (fit'.inside var le_rfl) ?_]
        · exact good v var
        · rintro ⟨_, zero' | above⟩
          · exact zero zero'
          · omega

end Tape

namespace Evaluator

/-- What every evaluator keeps. -/
structure WellFormed (e : Evaluator B) : Prop where
  tape : e.tape.WellFormed
  outputs : ∀ y ∈ e.outputs, y < e.tape.size
  table : e.table.WellFormed
  extent : e.table.numVariables = e.tape.size

theorem WellFormed.coeff {e : Evaluator B} (wf : e.WellFormed) {v : Nat}
    (inside : v < e.tape.size) : e.table.coeff v 0 0 = .ok (e.table.value v 0 0) :=
  Coefficients.coeff_eq wf.table ⟨wf.extent ▸ inside, wf.table.capacity, .inl rfl⟩

theorem WellFormed.series {e : Evaluator B} (wf : e.WellFormed) {v q : Nat}
    (inside : v < e.tape.size) (orders : q ≤ e.numOrders) :
    e.table.series v q 0 = .ok (.of (e.table.along 0 v) q) :=
  Coefficients.series_eq wf.table fun _ below => ⟨wf.extent ▸ inside,
    below.trans_le (orders.trans wf.table.orders), .inr wf.table.directions⟩

/-- The calls for an order that are accepted. -/
structure Accepts (e : Evaluator B) (q r : Nat) (seeds : List (List B)) : Prop where
  positive : r ≠ 0
  count : seeds.length = r
  lengths : ∀ seed ∈ seeds, seed.length = e.numInputs
  point : q = 0 → r = 1
  orders : q ≤ e.numOrders
  directions : 1 < q → r = e.numDirections

theorem checkForward_eq_ok {e : Evaluator B} {q r : Nat} {seeds : List (List B)} :
    e.checkForward q r seeds = .ok () ↔ e.Accepts q r seeds := by
  have scan : seeds.find? (·.length != e.numInputs) = none ↔
      ∀ seed ∈ seeds, seed.length = e.numInputs := by
    simp
  unfold checkForward
  simp only [refuse_eq_ok]
  cases odd : seeds.find? (·.length != e.numInputs) with
  | some seed =>
    have no : ¬ ∀ seed ∈ seeds, seed.length = e.numInputs := fun all => by
      rw [scan.2 all] at odd
      cases odd
    constructor
    · intro ⟨_, _, done⟩
      cases done
    · intro accepts
      exact absurd accepts.lengths no
  | none =>
    simp only [refuse_eq_ok, throw_eq_ok, pure_eq_ok]
    constructor
    · rintro ⟨positive, count, point, orders, directions, _⟩
      exact ⟨positive, by omega, scan.1 odd, by omega, by omega, by omega⟩
    · rintro ⟨positive, count, lengths, point, orders, directions⟩
      exact ⟨positive, by omega, by omega, by omega, by omega, trivial⟩

theorem forward_of_refused {e : Evaluator B} {q r : Nat} {seeds : List (List B)} {err : Error}
    (refused : e.checkForward q r seeds = .error err) :
    forward q r seeds e = (.error err, e) := by
  unfold forward
  rw [run_bind_ok (run_get e), run_bind, run_lift, refused]

theorem forward_refused {e : Evaluator B} {q r : Nat} {seeds : List (List B)}
    (refused : ¬ e.Accepts q r seeds) : ∃ err, forward q r seeds e = (.error err, e) := by
  cases check : e.checkForward q r seeds with
  | ok _ => exact absurd (checkForward_eq_ok.1 check) refused
  | error err => exact ⟨err, forward_of_refused check⟩

/-- What a table is when the sweeps of an accepted call begin. -/
structure Ready (e : Evaluator B) (q r : Nat) (c : Coefficients B) : Prop where
  fits : e.tape.FitsAll c q 0 r
  wellFormed : c.WellFormed
  extent : c.numVariables = e.tape.size
  capacity : q + 1 ≤ c.capacity
  orders : c.numOrders = q
  directions : c.numDirections = if q = 0 then e.numDirections else r
  low : ∀ v < e.tape.size, ∀ k < q, ∀ d, (k = 0 ∨ d < c.numDirections) →
    c.value v k d = e.table.value v k d

theorem exists_ready {e : Evaluator B} {q r : Nat} {seeds : List (List B)} (wf : e.WellFormed)
    (accepts : e.Accepts q r seeds) :
    ∃ c t, e.table.reserve (q + 1) (if q = 0 then e.numDirections else r) = .ok t ∧
      c = { t with numOrders := q } ∧ e.Ready q r c := by
  have positive : 1 ≤ if q = 0 then e.numDirections else r := by
    split
    · exact wf.table.directions
    · exact Nat.one_le_iff_ne_zero.2 accepts.positive
  obtain ⟨t, room, wf', extent, capacity, directions, orders, values⟩ :
      ∃ t, e.table.reserve (q + 1) _ = .ok t ∧ _ :=
    Coefficients.reserve_eq wf.table (q + 1) positive
  have enough : q + 1 ≤ t.capacity := capacity ▸ Nat.le_max_left _ _
  have wf'' : Coefficients.WellFormed { t with numOrders := q } :=
    ⟨wf'.size, wf'.capacity, by show q ≤ t.capacity; omega, wf'.directions⟩
  refine ⟨{ t with numOrders := q }, t, room, rfl, ?_, wf'', extent.trans wf.extent, enough, rfl,
    directions, ?_⟩
  · intro s inside
    refine ⟨wf'', extent.trans wf.extent, enough, ?_⟩
    by_cases zero : q = 0
    · exact .inl zero
    · right
      show 0 + s < t.numDirections
      rw [directions, if_neg zero]
      omega
  · intro v var k low d along
    have available : q ≤ e.table.numOrders := accepts.orders
    have valid : k < e.table.kept (if q = 0 then e.numDirections else r) := by
      refine e.table.lt_kept (by omega) ?_
      -- above the first order the directions stay the same, so that all orders are kept
      by_cases higher : 1 < q
      · rw [if_neg (by omega), accepts.directions higher]
        exact .inr rfl
      · exact .inl (by omega)
    have same := values v k d (wf.extent ▸ var) (by omega) (directions ▸ along)
    rwa [if_pos (.inl valid)] at same

/-- An accepted call is a run of sweeps on a table with room for its order. -/
theorem forward_of_reserve {e : Evaluator B} {q r : Nat} {seeds : List (List B)}
    {t : Coefficients B} (accepts : e.Accepts q r seeds)
    (room : e.table.reserve (q + 1) (if q = 0 then e.numDirections else r) = .ok t) :
    forward q r seeds e =
      match e.tape.sweeps q 0 seeds { t with numOrders := q } with
      | (.ok _, t) =>
        let e' : Evaluator B := { e with table := { t with numOrders := q + 1 } }
        (e'.outputCoefficients q r, e')
      | (.error err, t) => (.error err, { e with table := t }) := by
  unfold forward
  rw [run_bind_ok (run_get e), run_bind_ok (run_lift _ e |>.trans (by
    rw [checkForward_eq_ok.2 accepts])), run_bind]
  have work : ∀ w : Sweep B Unit, onTable w e = ((w e.table).1, { e with table := (w e.table).2 }) :=
    fun _ => rfl
  rw [work, run_bind_ok (run_get _), run_bind_ok (run_lift _ _ |>.trans (by rw [room])),
    run_bind_ok (run_set _ _), run_bind_ok (x := setOrders q) (run_modify _ _), run_bind]
  cases ran : e.tape.sweeps q 0 seeds { t with numOrders := q } with
  | mk outcome u =>
    have ran' : (seeds.zipIdx.forM fun (seed, d) => e.tape.sweep q d seed)
        { t with numOrders := q } = (outcome, u) := ran
    rw [ran']
    cases outcome with
    | error err => rfl
    | ok _ =>
      have counted : setOrders (q + 1) u = (.ok (), { u with numOrders := q + 1 }) := rfl
      simp only [counted]
      rw [run_bind_ok (run_get _), run_lift]

private theorem forward_run {e : Evaluator B} {q r : Nat} {seeds : List (List B)}
    (wf : e.WellFormed) (accepts : e.Accepts q r seeds) :
    ∃ c, e.Ready q r c ∧ forward q r seeds e =
      match e.tape.sweeps q 0 seeds c with
      | (.ok _, t) =>
        let e' : Evaluator B := { e with table := { t with numOrders := q + 1 } }
        (e'.outputCoefficients q r, e')
      | (.error err, t) => (.error err, { e with table := t }) := by
  obtain ⟨c, t, room, rfl, ready⟩ := exists_ready wf accepts
  exact ⟨_, ready, forward_of_reserve accepts room⟩

private theorem WellFormed.retable {e : Evaluator B} {q r n : Nat} {c t : Coefficients B}
    (wf : e.WellFormed) (ready : e.Ready q r c) (extent : c.SameExtent t) (low : n ≤ q + 1) :
    ({ e with table := { t with numOrders := n } } : Evaluator B).WellFormed where
  tape := wf.tape
  outputs := wf.outputs
  table := Coefficients.SameExtent.wellFormed (c := c) extent ready.wellFormed
    (le_trans low ready.capacity)
  extent := extent.1.trans ready.extent

/-- Whatever its outcome, a call for an order keeps the tape and leaves a well-formed evaluator. -/
theorem forward_kept {e : Evaluator B} (wf : e.WellFormed) (q r : Nat) (seeds : List (List B)) :
    (forward q r seeds e).2.WellFormed ∧ (forward q r seeds e).2.tape = e.tape ∧
      (forward q r seeds e).2.outputs = e.outputs := by
  by_cases accepts : e.Accepts q r seeds
  · obtain ⟨c, ready, run⟩ := forward_run wf accepts
    have fits : e.tape.FitsAll c q 0 seeds.length := accepts.count ▸ ready.fits
    have frame := Tape.sweeps_frame wf.tape fits
    rw [run]
    cases ran : e.tape.sweeps q 0 seeds c with
    | mk outcome t =>
      rw [ran] at frame
      cases outcome with
      | ok _ => exact ⟨wf.retable ready frame.extent le_rfl, rfl, rfl⟩
      | error err =>
        have orders : t.numOrders = q := frame.orders.trans ready.orders
        have kept := wf.retable (n := q) ready frame.extent (Nat.le_succ q)
        rw [← orders] at kept
        exact ⟨kept, rfl, rfl⟩
  · obtain ⟨err, refused⟩ := forward_refused accepts
    rw [refused]
    exact ⟨wf, rfl, rfl⟩

/-- What a call for an order that succeeded has done. -/
structure Advanced (e : Evaluator B) (q r : Nat) (seeds ys : List (List B)) (e' : Evaluator B) :
    Prop where
  accepted : e.Accepts q r seeds
  tape : e'.tape = e.tape
  outputs : e'.outputs = e.outputs
  wellFormed : e'.WellFormed
  orders : e'.numOrders = q + 1
  directions : e'.numDirections = if q = 0 then e.numDirections else r
  low : ∀ v < e.tape.size, ∀ k < q, ∀ d, (k = 0 ∨ d < e'.numDirections) →
    e'.table.value v k d = e.table.value v k d
  holds : ∀ d seed, seeds[d]? = some seed → ∀ i < e.tape.size,
    e.tape.Holds q seed (e'.table.along d) i
  answer : ys = (List.range r).map fun d => e.outputs.map fun y => e'.table.value y q d

private theorem outputCoefficients_eq {e : Evaluator B} {q r : Nat} (wf : e.WellFormed)
    (order : q < e.table.capacity) (directions : ∀ d < r, q = 0 ∨ d < e.numDirections) :
    e.outputCoefficients q r =
      .ok ((List.range r).map fun d => e.outputs.map fun y => e.table.value y q d) :=
  mapM_eq_map fun d below => mapM_eq_map fun y member =>
    Coefficients.coeff_eq wf.table ⟨wf.extent ▸ wf.outputs y member, order,
      directions d (List.mem_range.1 below)⟩

/-- The outcome of a call whose sweeps have succeeded. -/
theorem advanced_of_sweeps {e : Evaluator B} {q r : Nat} {seeds : List (List B)}
    {c t : Coefficients B} (wf : e.WellFormed) (accepts : e.Accepts q r seeds)
    (ready : e.Ready q r c) (done : e.tape.sweeps q 0 seeds c = (.ok (), t)) :
    ∃ ys, ({ e with table := { t with numOrders := q + 1 } } : Evaluator B).outputCoefficients q r =
        .ok ys ∧
      e.Advanced q r seeds ys { e with table := { t with numOrders := q + 1 } } := by
  have point : q = 0 → seeds.length ≤ 1 := fun zero => by
    rw [accepts.count, accepts.point zero]
  obtain ⟨frame, holds⟩ := Tape.sweeps_sound wf.tape (accepts.count ▸ ready.fits) point done
  have wf' := wf.retable ready frame.extent (le_refl (q + 1))
  have directions : t.numDirections = if q = 0 then e.numDirections else r :=
    frame.extent.2.2.1.trans ready.directions
  have capacity : q < t.capacity := by
    have := ready.capacity
    rw [frame.extent.2.1]
    omega
  refine ⟨_, outputCoefficients_eq wf' capacity ?_, ?_⟩
  · intro d below
    by_cases zero : q = 0
    · exact .inl zero
    · right
      show d < t.numDirections
      rw [directions, if_neg zero]
      exact below
  · refine ⟨accepts, rfl, rfl, wf', rfl, directions, ?_, ?_, rfl⟩
    · intro v var k low d along
      have along' : k = 0 ∨ d < c.numDirections := frame.extent.2.2.1 ▸ along
      have inside : c.Inside v k d := by
        refine ⟨ready.extent ▸ var, ?_, along'⟩
        have := ready.capacity
        omega
      show t.value v k d = _
      rw [frame.values v k d inside fun hit => ?_]
      · exact ready.low v var k low d along'
      · have := hit.1
        omega
    · intro d seed found i inside
      have := holds d seed found i inside
      rwa [Nat.zero_add] at this

/-- An accepted call sweeps on a table that is ready; its outcome is that of the sweeps. -/
theorem forward_cases {e : Evaluator B} {q r : Nat} {seeds : List (List B)} (wf : e.WellFormed)
    (accepts : e.Accepts q r seeds) : ∃ c, e.Ready q r c ∧
      ((∃ t ys, e.tape.sweeps q 0 seeds c = (.ok (), t) ∧
          forward q r seeds e = (.ok ys, { e with table := { t with numOrders := q + 1 } }) ∧
          e.Advanced q r seeds ys { e with table := { t with numOrders := q + 1 } }) ∨
        (∃ t err, e.tape.sweeps q 0 seeds c = (.error err, t) ∧
          forward q r seeds e = (.error err, { e with table := t }))) := by
  obtain ⟨c, ready, run⟩ := forward_run wf accepts
  refine ⟨c, ready, ?_⟩
  rw [run]
  cases ran : e.tape.sweeps q 0 seeds c with
  | mk outcome t =>
    cases outcome with
    | error err => exact .inr ⟨t, err, rfl, rfl⟩
    | ok _ =>
      obtain ⟨ys, answered, advanced⟩ := advanced_of_sweeps wf accepts ready ran
      exact .inl ⟨t, ys, rfl, Prod.ext answered rfl, advanced⟩

theorem forward_sound {e e' : Evaluator B} {q r : Nat} {seeds ys : List (List B)}
    (wf : e.WellFormed) (done : forward q r seeds e = (.ok ys, e')) :
    e.Advanced q r seeds ys e' := by
  by_cases accepts : e.Accepts q r seeds
  · obtain ⟨c, _, ⟨t, zs, _, run, advanced⟩ | ⟨t, err, _, run⟩⟩ := forward_cases wf accepts
    · obtain ⟨answer, rfl⟩ := Prod.mk.inj (run.symm.trans done)
      obtain rfl := Except.ok.inj answer
      exact advanced
    · cases run.symm.trans done
  · obtain ⟨err, refused⟩ := forward_refused accepts
    cases refused.symm.trans done

/-- A call for order zero is a call along one direction. -/
theorem forwardZero_sound {e e' : Evaluator B} {x ys : List B} (wf : e.WellFormed)
    (done : forwardZero x e = (.ok ys, e')) : e.Advanced 0 1 [x] [ys] e' := by
  obtain ⟨rows, e₁, swept, picked⟩ := run_bind_eq_ok.1 done
  rw [run_lift] at picked
  obtain ⟨answer, rfl⟩ := Prod.mk.inj picked
  have advanced := forward_sound wf swept
  have row := pick_eq_ok_iff.1 answer
  rw [advanced.answer] at row
  have single : rows = [ys] := by
    rw [advanced.answer]
    exact congrArg List.singleton (Option.some.inj row)
  rwa [single] at advanced

/-- An accepted call succeeds if every entry yields something good along every direction, from good
values of what it reads and from the lower orders as they are. -/
theorem forward_total {e : Evaluator B} {q r : Nat} {seeds : List (List B)} (wf : e.WellFormed)
    (builtIns : e.tape.OnlyBuiltIns) (accepts : e.Accepts q r seeds) (Good : Nat → Nat → B → Prop)
    (progress : ∀ d seed, seeds[d]? = some seed → ∀ i < e.tape.size, ∀ c' : Nat → Nat → B,
      (∀ v < e.tape.size, ∀ k < q, c' v k = e.table.value v k d) →
      (∀ v, e.tape.Produced i v → Good d v (c' v q)) →
      ∃ xs, e.tape.Yields q seed c' i xs ∧ ∀ s x, xs[s]? = some x → Good d (i + s) x) :
    ∃ ys e', forward q r seeds e = (.ok ys, e') ∧ e.Advanced q r seeds ys e' ∧
      ∀ d < r, ∀ v < e.tape.size, Good d v (e'.table.value v q d) := by
  obtain ⟨c, ready, run⟩ := forward_run wf accepts
  have point : q = 0 → seeds.length ≤ 1 := fun zero => by
    rw [accepts.count, accepts.point zero]
  obtain ⟨t, ran, good⟩ := Tape.sweeps_total wf.tape builtIns Good (accepts.count ▸ ready.fits) point
    fun d seed found i inside c' low before => by
      rw [Nat.zero_add] at before ⊢
      refine progress d seed found i inside c' ?_ before
      intro v var k below
      have along : k = 0 ∨ d < c.numDirections := by
        have := (List.getElem?_eq_some_iff.1 found).1
        rw [ready.directions, if_neg (by omega), ← accepts.count]
        exact .inr this
      rw [low v var k below, Nat.zero_add]
      exact ready.low v var k below d along
  obtain ⟨ys, answered, advanced⟩ := advanced_of_sweeps wf accepts ready ran
  refine ⟨ys, _, ?_, advanced, ?_⟩
  · rw [run, ran]
    simp only [answered]
  · intro d below v var
    have := good d (accepts.count ▸ below) v var
    rwa [Nat.zero_add] at this

/-- An accepted call succeeds if along each direction there are coefficients that hold at its order
and are those of the table below, and it finds them. -/
theorem forward_of_holds {e : Evaluator B} {q r : Nat} {seeds : List (List B)} (wf : e.WellFormed)
    (builtIns : e.tape.OnlyBuiltIns) (accepts : e.Accepts q r seeds) (c : Nat → Nat → Nat → B)
    (low : ∀ d < r, ∀ v < e.tape.size, ∀ k < q, c d v k = e.table.value v k d)
    (holds : ∀ d seed, seeds[d]? = some seed → ∀ i < e.tape.size, e.tape.Holds q seed (c d) i) :
    ∃ ys e', forward q r seeds e = (.ok ys, e') ∧ e.Advanced q r seeds ys e' ∧
      ∀ d < r, ∀ v < e.tape.size, e'.table.value v q d = c d v q := by
  apply forward_total wf builtIns accepts fun d v x => x = c d v q
  intro d seed found i inside c' below before
  have along : d < r := accepts.count ▸ (List.getElem?_eq_some_iff.1 found).1
  obtain ⟨entry, at_i, yields⟩ := holds d seed found i inside
  refine ⟨_, yields.congr at_i (fun a reads k le => ?_) fun k less => ?_, fun s x there => ?_⟩
  · have var := wf.tape.operand_lt at_i reads
    rcases Nat.lt_or_eq_of_le le with less | rfl
    · rw [low d along a var k less, below a var k less]
    · exact (before a (wf.tape.produced_operand at_i reads)).symm
  · rw [low d along i inside k less, below i inside k less]
  · rw [List.getElem?_map, Option.map_eq_some_iff] at there
    obtain ⟨v, place, rfl⟩ := there
    obtain ⟨_, rfl⟩ := List.getElem?_eq_some_iff.1 place
    rw [List.getElem_range', Nat.one_mul]

end Evaluator

end TaylorTape
