import TaylorTape.Proofs.Frozen
import TaylorTape.Proofs.Agreement

/-!
What a call for an order that fails leaves behind.

A call that is refused changes nothing.  A call that fails in its sweeps has already made room for
its order, perhaps for other directions, and has overwritten some coefficients of that order; the
orders below it are as they were, and reverse sweeps through them give what they gave.  The error
names the first entry that could not go on, along the first direction where one could not.
-/

set_option autoImplicit false
set_option relaxedAutoImplicit false

namespace TaylorTape

variable {B F : Type}

/-- The errors that a sweep gives; all others come up before a sweep begins. -/
def Error.FromSweep : Error → Prop
  | .op _ _ _ | .atomic _ _ _ | .unsupportedOrder _ _ => True
  | .shapeMismatch _ _ _ | .indexOutOfRange _ _ | .state _ => False

variable [Scalar F] [Base B F]

namespace Tape

variable {tape : Tape B} {c t u : Coefficients B} {q d i : Nat} {seed : List B} {err : Error}

/-- An error of a sweep of order `q` that names the entry at a position: an operation or the atomic
that it calls. -/
inductive Blames (tape : Tape B) (q i : Nat) : Error → Prop where
  | unary {op : UnaryOp} {a : Nat} (found : tape.entry i = .ok (.unary op a)) (source : Error) :
    Blames tape q i (.op i op.name source)
  | binary {op : BinaryOp} {a b : Nat} (found : tape.entry i = .ok (.binary op a b))
    (source : Error) : Blames tape q i (.op i op.name source)
  | atomic {place n : Nat} {args : List Nat} {r : Registered B}
    (found : tape.entry i = .ok (.call place args n)) (there : tape.atomics[place]? = some r)
    (source : Error) : Blames tape q i (.atomic i r.name source)
  | unsupported {place n : Nat} {args : List Nat} {r : Registered B}
    (found : tape.entry i = .ok (.call place args n)) (there : tape.atomics[place]? = some r) :
    Blames tape q i (.unsupportedOrder r.name q)

omit [Scalar F] [Base B F] in
private theorem Blames.fromSweep (blames : tape.Blames q i err) : err.FromSweep := by
  cases blames <;> exact trivial

omit [Scalar F] [Base B F] in
private theorem exists_read {n : Nat} {computed : List (Wire B)}
    (filled : FillsBlock q n (computed.map Wire.series)) :
    ∃ ys, ((List.range n).mapM fun r => do (← pick computed r).series.coeff q) = .ok ys := by
  refine exists_mapM fun r member => ?_
  have inside : r < computed.length := by
    rw [← List.length_map Wire.series, filled.length]
    exact List.mem_range.1 member
  have order : q < computed[r].series.size := by
    rw [filled.orders _ (List.mem_map_of_mem (List.getElem_mem inside))]
    exact q.lt_succ_self
  rw [pick_eq_ok_iff.2 (List.getElem?_eq_getElem inside), ok_bind]
  exact ⟨_, fetch_eq_ok_iff.2 (Array.getElem?_eq_getElem order)⟩

/-- A step of a sweep fails only in an operation or in an atomic, and its error names it. -/
private theorem blames_of_produced (wf : tape.WellFormed) (fits : tape.Fits c q d)
    (inside : i < tape.size) (long : seed.length = tape.numInputs)
    (failed : tape.produced c q d seed i = .error err) : tape.Blames q i err := by
  obtain ⟨⟨e, value⟩, there⟩ := exists_node inside
  have found := entry_of_node there
  have below : ∀ a ∈ e.operands, a < tape.size := fun a reads => wf.operand_lt found reads
  unfold produced at failed
  rw [found, ok_bind] at failed
  cases e with
  | input =>
    have given : i < seed.length := long ▸ (wf.inputs i _ found).1 rfl
    have picked : pick seed i = .ok seed[i] := pick_eq_ok_iff.2 (List.getElem?_eq_getElem given)
    simp only [picked, ok_bind] at failed
    cases failed
  | const =>
    have kept : tape.value i = .ok value := by
      simp only [Tape.value, bind_eq_ok, pure_eq_ok, fetch_eq_ok_iff]
      exact ⟨_, there, rfl⟩
    by_cases zero : q = 0
    · simp only [if_pos zero, kept, ok_bind] at failed
      cases failed
    · simp only [if_neg zero, ok_bind] at failed
      cases failed
  | unary op a =>
    have read := fits.series_eq (below a (by simp [Entry.operands])) le_rfl
    have known := fits.series_eq inside (Nat.le_succ q)
    simp only [read, known, ok_bind] at failed
    cases next : op.next (.of (c.along d a) (q + 1)) (.of (c.along d i) q) with
    | ok x =>
      rw [next] at failed
      cases failed
    | error source =>
      rw [next] at failed
      cases failed
      exact .unary found source
  | binary op a b =>
    have left := fits.series_eq (below a (by simp [Entry.operands])) le_rfl
    have right := fits.series_eq (below b (by simp [Entry.operands])) le_rfl
    have known := fits.series_eq inside (Nat.le_succ q)
    simp only [left, right, known, ok_bind] at failed
    cases next : op.next (.of (c.along d a) (q + 1)) (.of (c.along d b) (q + 1))
        (.of (c.along d i) q) with
    | ok x =>
      rw [next] at failed
      cases failed
    | error source =>
      rw [next] at failed
      cases failed
      exact .binary found source
  | call place args n =>
    obtain ⟨r, entered, _⟩ := wf.atomics i place args n found
    have table : fetch tape.atomics place = .ok r := fetch_eq_ok_iff.2 entered
    have given := arguments_eq fits (show ∀ a ∈ args, a < tape.size from below)
    have room : i + n ≤ tape.size := wf.span_le found
    simp only [table, ok_bind, given, results_eq fits room] at failed
    cases answer : r.op.forward q q (wires tape (c.along d) args q) (known (c.along d) i n q) with
    | error source =>
      rw [answer] at failed
      cases failed
      exact .atomic found entered source
    | ok outcome =>
      cases outcome with
      | none =>
        rw [answer] at failed
        cases failed
        exact .unsupported found entered
      | some computed =>
        obtain ⟨ys, read⟩ := exists_read (Atomic.fillsBlock_forward answer)
        rw [show (known (c.along d) i n q).length = n by simp [known]] at read
        rw [answer, answered, ok_bind, read] at failed
        cases failed
  | result owner => cases failed

/-- The sweeps of order `q` along some seeds fail first at an entry that could not go on: along all
earlier directions, and at all earlier entries along its own, they have succeeded. -/
def FailsFirst (tape : Tape B) (q : Nat) (seeds : List (List B)) (c t : Coefficients B)
    (err : Error) : Prop :=
  ∃ d seed u i, seeds[d]? = some seed ∧ tape.sweeps q 0 (seeds.take d) c = (.ok (), u) ∧
    (List.range i).forM (tape.advance q d seed) u = (.ok (), t) ∧
    tape.advance q d seed i t = (.error err, t) ∧ tape.Blames q i err

private theorem produced_of_failed (wf : tape.WellFormed) (fits : tape.Fits c q d)
    (inside : i < tape.size) (failed : tape.advance q d seed i c = (.error err, t)) :
    t = c ∧ tape.produced c q d seed i = .error err := by
  obtain ⟨e, found⟩ := exists_entry inside
  cases made : tape.produced c q d seed i with
  | ok xs =>
    obtain ⟨u, done, _⟩ := advance_of_produced wf fits found made
    cases done.symm.trans failed
  | error err' =>
    unfold advance at failed
    rw [run_bind_ok (run_get c), run_bind, run_lift, made] at failed
    obtain ⟨same, rfl⟩ := Prod.mk.inj failed
    exact ⟨rfl, congrArg _ (Except.error.inj same)⟩

/-- Sweeps that fail come to a stop at some entry along some direction, on a table that still fits:
what is to be produced there fails. -/
theorem exists_stop (wf : tape.WellFormed) {seeds : List (List B)}
    (fits : tape.FitsAll c q 0 seeds.length)
    (failed : tape.sweeps q 0 seeds c = (.error err, t)) :
    ∃ d seed u i, seeds[d]? = some seed ∧ tape.sweeps q 0 (seeds.take d) c = (.ok (), u) ∧
      (List.range i).forM (tape.advance q d seed) u = (.ok (), t) ∧
      tape.advance q d seed i t = (.error err, t) ∧ i < tape.size ∧ tape.Fits t q d ∧
      tape.produced t q d seed i = .error err := by
  obtain ⟨d, p, u, there, passed, stopped⟩ := exists_of_forM_error failed
  rw [List.getElem?_zipIdx, Option.map_eq_some_iff] at there
  obtain ⟨seed, there, rfl⟩ := there
  rw [Nat.zero_add] at stopped
  have before : d < seeds.length := (List.getElem?_eq_some_iff.1 there).1
  have earlier : tape.sweeps q 0 (seeds.take d) c = (.ok (), u) := by
    rw [← passed]
    unfold sweeps
    have front : (seeds.take d).zipIdx = seeds.zipIdx.take d := by
      refine List.ext_getElem? fun s => ?_
      simp only [List.getElem?_zipIdx, List.getElem?_take]
      split <;> rfl
    rw [front]
  have frame : c.Frame (fun _ k _ => k = q) (tape.sweeps q 0 (seeds.take d) c).2 :=
    sweeps_frame wf fun s below => fits s (below.trans_le (by simp))
  rw [earlier] at frame
  have fits' : tape.Fits u q d := by
    have fit := fits d before
    rw [Nat.zero_add] at fit
    exact fit.frame frame
  obtain ⟨i, j, s, at_i, advanced, refused⟩ := exists_of_forM_error stopped
  obtain ⟨inside, rfl⟩ : i < tape.size ∧ i = j := by
    obtain ⟨inside, same⟩ := List.getElem?_eq_some_iff.1 at_i
    rw [List.length_range] at inside
    exact ⟨inside, by simpa using same⟩
  rw [List.take_range, min_eq_left inside.le] at advanced
  have frame' := advances_frame wf fits' seed inside.le
  rw [advanced] at frame'
  have fits'' := fits'.frame frame'
  obtain ⟨rfl, failed⟩ := produced_of_failed wf fits'' inside refused
  exact ⟨d, seed, u, i, there, earlier, advanced, refused, inside, fits'', failed⟩

private theorem failsFirst_of_failed (wf : tape.WellFormed)
    {seeds : List (List B)} (fits : tape.FitsAll c q 0 seeds.length)
    (long : ∀ seed ∈ seeds, seed.length = tape.numInputs)
    (failed : tape.sweeps q 0 seeds c = (.error err, t)) : tape.FailsFirst q seeds c t err := by
  obtain ⟨d, seed, u, i, there, earlier, advanced, refused, inside, fits, stopped⟩ :=
    exists_stop wf fits failed
  exact ⟨d, seed, u, i, there, earlier, advanced, refused, blames_of_produced wf fits inside
    (long seed (List.mem_of_getElem? there)) stopped⟩

end Tape

namespace Evaluator

variable {e e' : Evaluator B} {q r : Nat} {seeds : List (List B)} {err : Error}

omit [Scalar F] [Base B F] in
private theorem not_fromSweep_of_refused (refused : e.checkForward q r seeds = .error err) :
    ¬ err.FromSweep := by
  unfold checkForward at refused
  simp only [refuse_eq_error] at refused
  obtain ⟨_, rfl⟩ | ⟨_, ⟨_, rfl⟩ | ⟨_, refused⟩⟩ := refused
  · exact id
  · exact id
  split at refused
  · cases refused
    exact id
  · simp only [refuse_eq_error, throw_eq_error] at refused
    obtain ⟨_, rfl⟩ | ⟨_, ⟨_, rfl⟩ | ⟨_, ⟨_, rfl⟩ | ⟨_, done⟩⟩⟩ := refused
    · exact id
    · exact id
    · exact id
    · cases done

/-- What a call for order `q` along `r` directions leaves that has failed in its sweeps. -/
structure FailedSweep (e : Evaluator B) (q r : Nat) (seeds : List (List B)) (err : Error)
    (e' : Evaluator B) : Prop where
  tape : e'.tape = e.tape
  outputs : e'.outputs = e.outputs
  orders : e'.numOrders = q
  /-- The coefficients that the call could rely on are there and the same. -/
  coefficients : ∀ v < e.size, ∀ k < q, ∀ d, k = 0 ∨ d < e.numDirections →
    ∃ x, e.table.coeff v k d = .ok x ∧ e'.table.coeff v k d = .ok x
  reverse : ∀ q' ≤ q, ∀ weights, e'.reverse q' weights = e.reverse q' weights
  /-- The sweeps started on the table with room for the order. -/
  first : ∃ c, e.table.reserve (q + 1) (if q = 0 then e.numDirections else r) = .ok c ∧
    e.tape.FailsFirst q seeds { c with numOrders := q } e'.table err

private theorem failedSweep_of_accepts (wf : e.WellFormed)
    (accepts : e.Accepts q r seeds) (failed : forward q r seeds e = (.error err, e')) :
    e.FailedSweep q r seeds err e' := by
  obtain ⟨wf', tape, outputs⟩ := forward_kept wf q r seeds
  rw [failed] at wf' tape outputs
  have orders : e'.numOrders = q := numOrders_of_failed wf accepts failed
  have agree : AgreeBelow q e e' := orders ▸ agreeBelow_of_failed wf failed
  refine ⟨tape, outputs, orders, ?_, ?_, ?_⟩
  · intro v var k low d along
    have along' := agree.symm.within low along
    have held : q ≤ e.table.capacity := le_trans agree.orders wf.table.orders
    have held' : q ≤ e'.table.capacity := le_trans agree.orders' wf'.table.orders
    refine ⟨e.table.value v k d, Coefficients.coeff_eq wf.table
      ⟨wf.extent ▸ var, low.trans_le held, along⟩, ?_⟩
    rw [Coefficients.coeff_eq wf'.table ⟨?_, low.trans_le held', along'⟩]
    · exact congrArg _ (agree.values v var k low d along)
    · rw [wf'.extent, tape]
      exact var
  · exact fun q' low weights => (agree.reverse_eq wf wf' low weights).symm
  · obtain ⟨c, t, room, rfl, ready⟩ := exists_ready wf accepts
    refine ⟨t, room, ?_⟩
    rw [forward_of_reserve accepts room] at failed
    cases ran : e.tape.sweeps q 0 seeds { t with numOrders := q } with
    | mk outcome u =>
      rw [ran] at failed
      cases outcome with
      | ok _ =>
        obtain ⟨ys, answered, _⟩ := advanced_of_sweeps wf accepts ready ran
        cases (Prod.mk.inj failed).1.symm.trans answered
      | error err' =>
        obtain ⟨same, rfl⟩ := Prod.mk.inj failed
        obtain rfl := Except.error.inj same
        exact Tape.failsFirst_of_failed wf.tape (accepts.count ▸ ready.fits) accepts.lengths ran

/-- A call for an order that fails never damages the orders below it. -/
theorem forward_failed [LawfulBase B] (recorded : e.Recorded)
    (failed : forward q r seeds e = (.error err, e')) :
    (¬ err.FromSweep → e.checkForward q r seeds = .error err ∧ e' = e) ∧
    (err.FromSweep → e.checkForward q r seeds = .ok () ∧ e.FailedSweep q r seeds err e') := by
  have wf := recorded.wellFormed
  cases checked : e.checkForward q r seeds with
  | error err' =>
    obtain ⟨same, rfl⟩ := Prod.mk.inj ((forward_of_refused checked).symm.trans failed)
    obtain rfl := Except.error.inj same
    exact ⟨fun _ => ⟨rfl, rfl⟩, fun swept => absurd swept (not_fromSweep_of_refused checked)⟩
  | ok _ =>
    have swept := failedSweep_of_accepts wf (checkForward_eq_ok.1 checked) failed
    obtain ⟨c, _, _, _, _, _, _, _, _, _, blames⟩ := swept.first
    exact ⟨fun no => absurd blames.fromSweep no, fun _ => ⟨rfl, swept⟩⟩

/-- The sine of a product at a point, then along two directions, the second of which is too long for
the second factor. -/
theorem forward_failed_mul : ∃ (f : Program.Frozen (Value Float)) (e' : Evaluator (Value Float)),
    Program.freeze Registry.builtins 7 [.array [1, 2], .array [3, 4]]
      [.binary .mul 0 1, .unary .sin 2] [3] = .ok f ∧
    let e := (Evaluator.forward 0 1 [[.array [1, 2], .array [3, 4]]] f.evaluator).2
    let seeds := [[.array [1, 0], .array [0, 1]], [.array [1, 1], .array [1, 1, 1]]]
    let err := Error.op 2 "mul" (.shapeMismatch "mul" 2 3)
    Evaluator.forward 1 2 seeds e = (.error err, e') ∧ e.checkForward 1 2 seeds = .ok () ∧
      e.FailedSweep 1 2 seeds err e' := by
  let tape : Tape (Value Float) := {
    id := 7
    nodes := #[⟨.input, .array [1, 2]⟩, ⟨.input, .array [3, 4]⟩,
      ⟨.binary .mul 0 1, .array [1 * 3, 2 * 4]⟩,
      ⟨.unary .sin 2, .array [Float.sin (1 * 3), Float.sin (2 * 4)]⟩]
    numInputs := 2
    atomics := #[] }
  have frozen : Program.freeze Registry.builtins 7 [.array [1, 2], .array [3, 4]]
      [.binary .mul 0 1, .unary .sin 2] [3] =
      .ok ⟨[.array [Float.sin (1 * 3), Float.sin (2 * 4)]], [.binary .mul 0 1, .unary .sin 2],
        .ofTape tape [3]⟩ := rfl
  let e := (Evaluator.forward 0 1 [[.array [1, 2], .array [3, 4]]] (.ofTape tape [3])).2
  have recorded : e.RecordedOfBuiltIns :=
    ⟨_, 7, _, _, [3], _, Registry.builtins_faithful, by simp [Step.Foreign],
      by simp [Step.CallsBuiltIns], frozen, .forward 0 1 _ .refl⟩
  have refused : (fun _ => ()) <$> (Evaluator.forward 1 2
      [[.array [1, 0], .array [0, 1]], [.array [1, 1], .array [1, 1, 1]]] e).1 =
      .error (.op 2 "mul" (.shapeMismatch "mul" 2 3)) := by
    decide +kernel
  cases ran : Evaluator.forward 1 2
      [[.array [1, 0], .array [0, 1]], [.array [1, 1], .array [1, 1, 1]]] e with
  | mk outcome e' =>
    rw [ran] at refused
    cases outcome with
    | ok ys => cases refused
    | error err =>
      obtain rfl := Except.error.inj refused
      obtain ⟨checked, swept⟩ :=
        (forward_failed recorded.recorded ran).2 trivial
      exact ⟨_, e', frozen, ran, checked, swept⟩

end Evaluator

end TaylorTape
