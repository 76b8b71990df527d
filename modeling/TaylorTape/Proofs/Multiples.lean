import TaylorTape.Proofs.Uniform

/-!
Evaluators that multiply by a number.

Where the outputs of a tape of calls are a multiple of its inputs at every point of some shapes, they
are that multiple of the seeds at every order, and the inputs receive that multiple of the weights.
What comes back is told by its products with all directions.
-/

set_option autoImplicit false
set_option relaxedAutoImplicit false

namespace TaylorTape

open Value Series

variable {F : Type} [ExactScalar F]

namespace Value

variable {s t u v w : Value F}

theorem Carried.trans (first : s.Carried False False False u v)
    (second : s.Carried False False False v w) : s.Carried False False False u w :=
  ⟨first.left, second.right, fun e inside => (first.same e inside).trans (second.same e inside),
    False.elim, False.elim, False.elim⟩

private theorem exists_written (fits : u.Fits s) : ∃ w : Value F, w.SameShape s ∧
    s.Carried False False False u w := by
  obtain ⟨w, _, shape, parts⟩ := broadcastLike_fits fits
  exact ⟨w, shape, fits, shape.fits, fun e inside => (parts e inside).symm, False.elim, False.elim,
    False.elim⟩

private theorem exists_all_written {us ss : List (Value F)} (fits : List.Forall₂ Fits us ss) :
    ∃ ws, List.Forall₂ SameShape ws ss ∧ AllThree (·.Carried False False False) ss us ws := by
  induction fits with
  | nil => exact ⟨[], .nil, .nil⟩
  | cons first _ ih =>
    obtain ⟨w, shape, carried⟩ := exists_written first
    obtain ⟨ws, shapes, all⟩ := ih
    exact ⟨w :: ws, .cons shape shapes, .cons carried all⟩

private theorem broadcastLike_of_sameShape (shape : u.SameShape s) : u.broadcastLike s = .ok u := by
  obtain ⟨w, done, same, parts⟩ := broadcastLike_fits shape.fits
  rw [done, eq_of_component same shape parts]

private theorem Carried.broadcastLike_eq (carried : s.Carried False False False u v)
    (whole : u.SameShape s) : v.broadcastLike s = .ok u := by
  obtain ⟨w, done, done'⟩ := carried.exists_broadcast
  obtain rfl := Except.ok.inj ((broadcastLike_of_sameShape whole).symm.trans done)
  exact done'

private theorem paired_scale {ss us vs : List (Value F)} (left : List.Forall₂ Fits us ss)
    (right : List.Forall₂ Fits vs ss) (m : F) :
    paired (ss.map (·.scale m)) us (vs.map (·.scale m)) = paired ss (us.map (·.scale m)) vs := by
  induction left generalizing vs with
  | nil => rfl
  | @cons u s us ss first _ ih =>
    obtain ⟨v, vs, first', rest, rfl⟩ := List.forall₂_cons_right_iff.1 right
    show dot (s.scale m) u (v.scale m) + paired _ us _ = dot s (u.scale m) v + paired ss _ vs
    rw [dot_shape (show (s.scale m).SameShape s from SameShape.map _ s), dot_scale first first',
      ih rest]

end Value

namespace Evaluator

variable {e e₁ : Evaluator (Value F)} {x : List (Value F)} {c : Nat → Value F} {m : F}
  {rows answers : List (List (List (Value F)))} {d n q r : Nat}

omit [ExactScalar F] in
private theorem seedAt_fits
    (fits : ∀ seeds ∈ rows, seeds.length = r ∧ ∀ seed ∈ seeds, List.Forall₂ Fits seed x) {k : Nat}
    (low : k < rows.length + 1) (along : d < r) :
    List.Forall₂ Fits (seedAt ([x] :: rows) k d) x := by
  cases k with
  | zero => exact List.forall₂_same.2 fun v _ => (SameShape.refl v).fits
  | succ k =>
    have below : k < rows.length := Nat.lt_of_succ_lt_succ low
    obtain ⟨count, each⟩ := fits _ (List.getElem_mem below)
    have room : d < rows[k].length := count.symm ▸ along
    rw [seedAt_cons_succ _ below room]
    exact each _ (List.getElem_mem room)

omit [ExactScalar F] in
private theorem rows_eq_seedAt (x : List (Value F)) (even : ∀ seeds ∈ rows, seeds.length = r) :
    rows = (List.range rows.length).map fun k => (List.range r).map fun d =>
      seedAt ([x] :: rows) (k + 1) d := by
  refine eq_map_range rfl fun k below => ?_
  have count := even _ (List.getElem_mem below)
  rw [List.getElem?_eq_getElem below, ← eq_map_range count fun d along => ?_]
  have room : d < rows[k].length := count.symm ▸ along
  rw [seedAt_cons_succ _ below room, List.getElem?_eq_getElem room]

private theorem AtPoint.solves_shape (here : e.AtPoint x c) (ran : e.Ran [[x]] rows answers e₁) :
    e₁.tape.Solves x e₁.shape := by
  have wf := here.wellFormed.tape
  rw [ran.tape]
  exact fun i inside => (here.solves i inside).congr wf fun v made _ _ =>
    (here.values_of_ran ran (wf.lt_of_produced made) 0).symm

/-- At a point of a tape of calls, the outputs are a multiple of the inputs at all points of its
shapes. -/
structure Multiplies (e : Evaluator (Value F)) (x : List (Value F)) (c : Nat → Value F) (m : F) :
    Prop where
  here : e.AtPoint x c
  calls : e.tape.OfCalls
  outputs : e.outputs.map c = x.map (·.scale m)
  solvable : ∀ y, List.Forall₂ SameShape y x →
    ∃ d, e.tape.Solves y d ∧ e.outputs.map d = y.map (·.scale m)

/-- Solutions of the tape that stand for coefficients along some seeds, order by order. -/
structure Levels (e : Evaluator (Value F)) (x : List (Value F)) (c : Nat → Value F) (m : F) (n : Nat)
    (seed y : Nat → List (Value F)) (s : Nat → Nat → Value F) : Prop where
  solves : ∀ k, e.tape.Solves (y k) (s · k)
  shapes : ∀ k, List.Forall₂ SameShape (y k) x
  outputs : ∀ k, e.outputs.map (s · k) = (y k).map (·.scale m)
  point : y 0 = x
  zeroth : ∀ v, s v 0 = c v
  stand : ∀ k < n, AllThree (·.Carried False False False) x (seed k) (y k)

namespace Multiplies

variable (mult : e.Multiplies x c m)
include mult

private theorem length_outputs : e.outputs.length = x.length := by
  simpa using congrArg List.length mult.outputs

private theorem exists_levels (seed : Nat → List (Value F)) (start : seed 0 = x)
    (fits : ∀ k < n, List.Forall₂ Fits (seed k) x) : ∃ y s, e.Levels x c m n seed y s := by
  have each : ∀ k, ∃ y C, e.tape.Solves y C ∧ List.Forall₂ SameShape y x ∧
      e.outputs.map C = y.map (·.scale m) ∧ (k = 0 → y = x ∧ C = c) ∧
      (k < n → AllThree (·.Carried False False False) x (seed k) y) := by
    intro k
    have same : List.Forall₂ SameShape x x := List.forall₂_same.2 fun v _ => .refl v
    by_cases zero : k = 0
    · subst zero
      refine ⟨x, c, mult.here.solves, same, mult.outputs, fun _ => ⟨rfl, rfl⟩, fun _ => ?_⟩
      rw [start]
      exact all_carried_of_fits (same.imp fun _ _ => SameShape.fits)
    · by_cases low : k < n
      · obtain ⟨y, shapes, all⟩ := exists_all_written (fits k low)
        obtain ⟨C, solves, outputs⟩ := mult.solvable y shapes
        exact ⟨y, C, solves, shapes, outputs, fun h => absurd h zero, fun _ => all⟩
      · exact ⟨x, c, mult.here.solves, same, mult.outputs, fun h => absurd h zero,
          fun h => absurd h low⟩
  choose y C solves shapes outputs point stand using each
  exact ⟨y, fun v k => C k v, solves, shapes, outputs, (point 0 rfl).1,
    fun v => congrFun (point 0 rfl).2 v, stand⟩

private theorem carried (ran : e.Ran [[x]] rows answers e₁) (inside : d < e₁.numDirections)
    {y : Nat → List (Value F)} {s : Nat → Nat → Value F}
    (levels : e.Levels x c m (rows.length + 1) (fun k => seedAt ([x] :: rows) k d) y s) :
    ∀ k < rows.length + 1, ∀ v < e.tape.size,
      (c v).Carried False False False (e₁.table.value v k d) (s v k) := by
  have here := mult.here
  have wf := here.wellFormed
  have holds : ∀ k < rows.length + 1, ∀ i < e.tape.size,
      e.tape.Holds k (seedAt ([x] :: rows) k d) (e₁.table.along d) i := ran.holds_along inside
  have holds' : ∀ k < rows.length + 1, ∀ i < e.tape.size, e.tape.Holds k (y k) s i := fun k _ =>
    mult.calls.holds wf.tape here.builtIns levels.solves
      (fun k => levels.point.symm ▸ levels.shapes k) k
  exact here.solves.carried_of_holds wf.tape here.builtIns
    (fun v var => ⟨here.values_of_ran ran var d, levels.zeroth v⟩) holds holds' levels.stand

section Seeds

variable (fits : ∀ seeds ∈ rows, seeds.length = r ∧ ∀ seed ∈ seeds, List.Forall₂ Fits seed x)
include fits

private theorem outputs_carried (ran : e.Ran [[x]] rows answers e₁) {k : Nat}
    (low : k < rows.length + 1) (along : d < r) (inside : d < e₁.numDirections) :
    AllThree (fun v u a => v.Carried False False False (u.scale m) a) x (seedAt ([x] :: rows) k d)
      (e.outputs.map fun y => e₁.table.value y k d) := by
  have each : ∀ k < rows.length + 1, List.Forall₂ Fits (seedAt ([x] :: rows) k d) x :=
    fun k low => seedAt_fits fits low along
  obtain ⟨y, s, levels⟩ := mult.exists_levels (fun k => seedAt ([x] :: rows) k d) rfl each
  refine allThree_of_get (each k low).length_eq ((List.length_map _).trans mult.length_outputs)
    fun j v u a point seeded found => ?_
  obtain ⟨i, output, rfl⟩ := Option.map_eq_some_iff.1 (List.getElem?_map .. ▸ found)
  obtain ⟨u', z, given, written, stands⟩ := (levels.stand k low).get point
  obtain rfl := Option.some.inj (seeded.symm.trans given)
  have shape : c i = v.scale m := by
    simpa [output, point] using congrArg (·[j]?) mult.outputs
  have multiple : s i k = z.scale m := by
    simpa [output, written] using congrArg (·[j]?) (levels.outputs k)
  have computed := mult.carried ran inside levels k low i
    (mult.here.wellFormed.outputs i (List.mem_of_getElem? output))
  rw [shape, multiple] at computed
  exact (stands.map (· * m) False.elim False.elim).trans
    (computed.spread (SameShape.map (· * m) v).fits).symm

private theorem answers_eq (ran : e.Ran [[x]] rows answers e₁) :
    List.Forall₂ (List.Forall₂ (AllThree (fun v u y => ∃ w,
      Base.broadcastLike (u.scale m) v = .ok w ∧ Base.broadcastLike y v = .ok w) x))
      rows answers := by
  have even : ∀ seeds ∈ rows, seeds.length = r := fun seeds member => (fits seeds member).1
  rw [ran.answers_of_even even]
  nth_rewrite 1 [rows_eq_seedAt x even]
  rw [List.forall₂_map_left_iff, List.forall₂_map_right_iff, List.forall₂_same]
  intro k member
  have low := List.mem_range.1 member
  rw [List.forall₂_map_left_iff, List.forall₂_map_right_iff, List.forall₂_same]
  intro d among
  have along := List.mem_range.1 among
  have inside : d < e₁.numDirections := by
    rw [← ran.directions k rows[k] (by simp) (List.getElem?_eq_getElem low),
      even _ (List.getElem_mem low)]
    exact along
  rw [List.length_singleton, Nat.add_comm 1 k]
  exact (mult.outputs_carried fits ran (Nat.succ_lt_succ low) along inside).mono
    fun v u a carried => carried.exists_broadcast

private theorem shaped_of_ran (ran : e.Ran [[x]] rows answers e₁) (recorded : e₁.RecordedOfBuiltIns)
    (along : 0 < r) (positive : 0 < q) (low : q ≤ rows.length + 1) : e₁.Shaped q := by
  have here := mult.here
  obtain ⟨y, s, levels⟩ := mult.exists_levels (fun k => seedAt ([x] :: rows) k 0) rfl
    fun k low => seedAt_fits fits low along
  refine recorded.shaped positive (low.trans ran.cached.orders) fun j input k order => ?_
  have var : j < e.tape.size :=
    (ran.tape ▸ input : j < e.tape.numInputs).trans_le here.wellFormed.tape.inputs_le
  rw [shape, here.values_of_ran ran var]
  exact (mult.carried ran ran.wellFormed.table.directions levels k (order.trans_le low) j var).left

private theorem acceptsReverse (ran : e.Ran [[x]] rows answers e₁) (positive : 0 < q)
    (low : q ≤ rows.length + 1) (single : q = 1 ∨ r = 1) {ws : List (List (Value F))}
    (weights : List.Forall₂ (fun w v => w.length = q ∧ ∀ u ∈ w, u.Fits v) ws x) :
    e₁.AcceptsReverse q ws where
  positive := positive.ne'
  orders := low.trans ran.cached.orders
  directions several := by
    have above : 0 < rows.length := by omega
    rw [← ran.directions 0 rows[0] (by simp) (List.getElem?_eq_getElem above),
      (fits _ (List.getElem_mem above)).1]
    exact single.resolve_left several.ne'
  count := by rw [numOutputs, ran.outputs, mult.length_outputs, weights.length_eq]
  lengths w member := by
    obtain ⟨v, _, own, _⟩ := exists_of_mem_forall₂ weights.flip member
    exact own

/-- What an order brings back after a run has the same products with all directions as the multiple
of the weights has, so it stands for this multiple. -/
private theorem reverse_carried (ran : e.Ran [[x]] rows answers e₁)
    (recorded : e₁.RecordedOfBuiltIns)
    (along : 0 < r) (positive : 0 < q) (low : q ≤ rows.length + 1) (single : q = 1 ∨ r = 1)
    {ws : List (List (Value F))}
    (weights : List.Forall₂ (fun w v => w.length = q ∧ ∀ u ∈ w, u.Fits v) ws x) :
    ∃ received : Nat → Nat → Value F,
      e₁.reverse q ws =
        .ok ((List.range e₁.numInputs).map fun j => (List.range q).map (received j)) ∧
      ∀ k < q, List.Forall₂ SameShape ((List.range e₁.numInputs).map (received · k)) x ∧
        AllThree (·.Carried False False False) x ((List.range e₁.numInputs).map (received · k))
          ((ws.map fun w => Series.value w.toArray k).map (·.scale m)) := by
  have here := mult.here
  have outputs : e₁.outputs.map e₁.shape = x.map (·.scale m) := by
    rw [ran.outputs, ← mult.outputs]
    exact List.map_congr_left fun y output =>
      here.values_of_ran ran (here.wellFormed.outputs y output) 0
  have given : List.Forall₂ (fun v w => ∀ u ∈ w, u.Fits (e₁.shape v)) e₁.outputs ws := by
    have onPoint : List.Forall₂ (fun v w => ∀ u ∈ w, u.Fits v) (x.map (·.scale m)) ws := by
      rw [List.forall₂_map_left_iff]
      exact weights.flip.imp fun v w ⟨_, fit⟩ u member =>
        (fit u member).trans (SameShape.map (· * m) v).symm.fits
    rw [← outputs, List.forall₂_map_left_iff] at onPoint
    exact onPoint
  obtain ⟨received, done, shapes, balanced⟩ :=
    (mult.shaped_of_ran fits ran recorded along positive low).reverse_balanced
      (ran.tape ▸ mult.calls) (here.solves_shape ran)
      (here.arity.trans (congrArg Tape.numInputs ran.tape).symm)
      (mult.acceptsReverse fits ran positive low single weights) given
  refine ⟨received, done, fun k order => ⟨shapes k order, ?_⟩⟩
  have own : List.Forall₂ Fits (ws.map fun w => Series.value w.toArray k) x := by
    rw [List.forall₂_map_left_iff]
    refine weights.imp fun w v ⟨count, fit⟩ => ?_
    rw [Series.value, List.getElem?_toArray, List.getElem?_eq_getElem (count.symm ▸ order)]
    exact fit _ (List.getElem_mem _)
  refine all_carried_of_paired ((shapes k order).imp fun _ _ => SameShape.fits)
    (List.forall₂_map_left_iff.2 (own.imp fun _ _ fit => (SameShape.map (· * m) _).fits.trans fit))
    fun ds same => ?_
  obtain ⟨d, next, multiples⟩ := mult.solvable ds same
  rw [balanced ds d (ran.tape ▸ next) same k order, outputs, ran.outputs, multiples,
    paired_scale own (same.imp fun _ _ => SameShape.fits)]

private theorem reverse_eq (ran : e.Ran [[x]] rows answers e₁) (recorded : e₁.RecordedOfBuiltIns)
    (along : 0 < r) (positive : 0 < q) (low : q ≤ rows.length + 1) (single : q = 1 ∨ r = 1)
    {ws : List (List (Value F))}
    (weights : List.Forall₂ (fun w v => w.length = q ∧ ∀ u ∈ w, u.Fits v) ws x) :
    ∃ px, e₁.reverse q ws = .ok px ∧
      AllThree (fun v w p => List.Forall₂ (fun u z => Base.broadcastLike (u.scale m) v = .ok z) w p)
        x ws px := by
  have arity : x.length = e₁.numInputs :=
    mult.here.arity.trans (congrArg Tape.numInputs ran.tape).symm
  obtain ⟨received, done, each⟩ :=
    mult.reverse_carried fits ran recorded along positive low single weights
  refine ⟨_, done, allThree_of_get weights.length_eq (by simp [arity])
    fun j v w p point weight found => ?_⟩
  obtain ⟨inside, rfl⟩ := List.getElem?_eq_some_iff.1 point
  have input : j < e₁.numInputs := arity ▸ inside
  rw [List.getElem?_map, List.getElem?_range input] at found
  obtain rfl := Option.some.inj found
  obtain ⟨_, _, count, _⟩ :=
    exists_of_mem_forall₂ weights.flip (List.mem_of_getElem? weight)
  rw [List.forall₂_map_right_iff]
  refine List.forall₂_iff_get.2 ⟨by simpa using count, fun k room _ => ?_⟩
  rw [List.get_eq_getElem, List.get_eq_getElem, List.getElem_range]
  obtain ⟨shapes, carried⟩ := each k (count ▸ room)
  obtain ⟨a, b, there, there', same⟩ := carried.get point
  obtain rfl : received j k = a := by simpa [input] using there
  obtain rfl : w[k].scale m = b := by simpa [weight, Series.value, room] using there'
  have whole : (received j k).SameShape x[j] := by
    simpa using shapes.get (by simpa using input) inside
  exact same.broadcastLike_eq whole

end Seeds

end Multiplies

/-- Placed at inputs of some kind, the evaluator gives their image under a function; at each order
the answers are the image of the seeds, and what the inputs receive is the image of the weights,
everything in the shapes of the inputs. -/
def Applies (e : Evaluator (Value F)) (g : Value F → Value F) (kind : List (Value F) → Prop) :
    Prop :=
  ∀ x, kind x → ∃ e₀, forwardZero x e = (.ok (x.map g), e₀) ∧ ∀ (r : Nat)
    (rows : List (List (List (Value F)))), 0 < r →
    (∀ seeds ∈ rows, seeds.length = r ∧ ∀ seed ∈ seeds, List.Forall₂ Fits seed x) →
    ∃ answers e₁, forwardFrom 1 rows e₀ = (.ok answers, e₁) ∧
      List.Forall₂ (List.Forall₂ (AllThree (fun v u y => ∃ w, Base.broadcastLike (g u) v = .ok w ∧
        Base.broadcastLike y v = .ok w) x)) rows answers ∧
      ∀ q ws, 0 < q → q ≤ rows.length + 1 → q = 1 ∨ r = 1 →
        List.Forall₂ (fun w v => w.length = q ∧ ∀ u ∈ w, u.Fits v) ws x →
        ∃ px, e₁.reverse q ws = .ok px ∧
          AllThree (fun v w p => List.Forall₂ (fun u z => Base.broadcastLike (g u) v = .ok z) w p)
            x ws px

end Evaluator

/-- A program of calls that gives a multiple of its inputs wherever these are of some kind can be
recorded at all of them, and whatever is asked of its evaluator then, this gives that multiple at
every order and in both directions. -/
theorem Program.freeze_applies {registry : Registry (Value F)} {x : List (Value F)}
    {steps : List (Step (Value F))} {outputs : List Nat} {kind : List (Value F) → Prop} {m : F}
    (id : Nat) (faithful : registry.Faithful) (calls : ∀ s ∈ steps, s.OfCalls)
    (closed : ∀ y z, kind y → List.Forall₂ SameShape z y → kind z)
    (arity : ∀ y, kind y → y.length = x.length)
    (multiple : ∀ y, kind y → ∃ vs, evaluate steps y = .ok vs ∧
      Step.gather vs outputs = .ok (y.map (·.scale m))) (here : kind x) :
    ∃ f, freeze registry id x steps outputs = .ok f ∧
      ∀ e, f.evaluator.Later e → e.Applies (·.scale m) kind := by
  obtain ⟨vs, evaluated, gathered⟩ := multiple x here
  obtain ⟨f, frozen, resolved, only⟩ := freeze_ofCalls id calls faithful evaluated fun y asked => by
    obtain ⟨v, _, picked⟩ := exists_of_mem_forall₂ (mapM_eq_ok.1 gathered).flip asked
    exact (List.getElem?_eq_some_iff.1 (pick_eq_ok_iff.1 picked)).1
  have foreign : ∀ s ∈ steps, s.Foreign id := fun s member => (calls s member).foreign id
  have own : ∀ s ∈ steps, s.CallsBuiltIns := fun s member => (calls s member).callsBuiltIns
  have start : f.evaluator.RecordedOfBuiltIns :=
    ⟨registry, id, x, steps, outputs, f, faithful, foreign, own, frozen, .refl⟩
  refine ⟨f, frozen, fun e later y given => ?_⟩
  have recorded : e.RecordedOfBuiltIns :=
    ⟨registry, id, x, steps, outputs, f, faithful, foreign, own, frozen, later⟩
  obtain ⟨_, sameTape, sameOutputs⟩ := later.kept start.recorded.wellFormed
  have wf := recorded.recorded.wellFormed
  obtain ⟨vs, evaluated, gathered⟩ := multiple y given
  obtain ⟨us, gathered', answer⟩ := (freeze_replays faithful foreign own frozen later).1 y vs
    (arity y given) (resolved.symm ▸ evaluated)
  obtain rfl := Except.ok.inj (gathered.symm.trans gathered')
  obtain ⟨e₀, point⟩ : ∃ e₀, Evaluator.forwardZero y e = (.ok (y.map (·.scale m)), e₀) :=
    ⟨_, Prod.ext answer rfl⟩
  have advanced := Evaluator.forwardZero_sound wf point
  obtain ⟨c, at_, tape, outs, values⟩ :=
    Evaluator.atPoint_of_forwardZero wf recorded.onlyBuiltIns point
  have recorded₀ := recorded.forwardZero point
  have cached : e₀.Cached [[y]] := e.cached_nil.next wf advanced
  have mult : e₀.Multiplies y c m := {
    here := at_
    calls := tape.symm ▸ sameTape.symm ▸ only
    outputs := outs.symm ▸ values.symm
    solvable := fun z shapes => by
      obtain ⟨vs, evaluated, gathered⟩ := multiple z (closed y z given shapes)
      obtain ⟨_, d, solves, gathered'⟩ := freeze_solves faithful foreign own frozen
        (shapes.length_eq.trans (arity y given)) (resolved.symm ▸ evaluated)
      refine ⟨d, tape.symm ▸ sameTape.symm ▸ solves, ?_⟩
      rw [outs, sameOutputs]
      exact Except.ok.inj (gathered'.symm.trans gathered) }
  refine ⟨e₀, point, fun r rows positive fits => ?_⟩
  obtain ⟨answers, e₁, done⟩ := at_.run recorded₀ advanced.orders positive fits
  have ran := Evaluator.forwardFrom_sound at_.wellFormed cached done
  exact ⟨answers, e₁, done, mult.answers_eq fits ran, fun q ws some_ low single weights =>
    mult.reverse_eq fits ran (recorded₀.forwardFrom done) positive some_ low single weights⟩

end TaylorTape
