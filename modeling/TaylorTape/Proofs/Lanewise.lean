import Mathlib.Algebra.Order.Ring.Unbundled.Rat
import Mathlib.Data.Rat.Cast.CharZero
import TaylorTape.Proofs.Bundles
import TaylorTape.Proofs.Frozen

/-!
A tape over arrays as many tapes over elements.

A program of elementary operations over scalars and arrays of one length can be recorded, place by
place, over the elements.  Forward, each tape over elements has the elements at its place of what
the tape over arrays has.  Backward, the tape over arrays collects what the tapes over elements do:
their array with an array, and their sum with a scalar.
-/

set_option autoImplicit false
set_option relaxedAutoImplicit false

namespace TaylorTape

namespace Evaluator

variable {F : Type} {n : Nat}

private theorem Ran.seed {B : Type} [Scalar F] [Base B F] {e e₁ : Evaluator B}
    {rows answers : List (List (List B))} {k d j : Nat} (ran : e.Ran [] rows answers e₁)
    (low : k < rows.length) (along : d < e₁.numDirections) (input : j < e₁.numInputs) :
    (seedAt rows k d)[j]? = some (e₁.table.value j k d) := by
  have wf := ran.wellFormed.tape
  have inside := input.trans_le wf.inputs_le
  obtain ⟨entry, found⟩ := Tape.exists_entry inside
  exact (ran.cached.holds k low d along j inside).input
    (found.trans (congrArg Except.ok ((wf.inputs j entry found).2 input)))

private theorem Ran.wellShaped [Scalar F] {e e₁ : Evaluator (Value F)}
    {rows answers : List (List (List (Value F)))} {q : Nat} (ran : e.Ran [] rows answers e₁)
    (builtIns : e₁.tape.OnlyBuiltIns) (positive : 0 < q) (low : q ≤ rows.length)
    (inputs : ∀ k < q, ∀ (j : Nat) u s, (seedAt rows k 0)[j]? = some u →
      (seedAt rows 0 0)[j]? = some s → Base.Compatible u s) : e₁.WellShaped q 1 := by
  have wf := ran.wellFormed
  have along := wf.table.directions
  have holds : ∀ k < q, ∀ i < e₁.tape.size,
      e₁.tape.Holds k (seedAt rows k 0) (e₁.table.along 0) i := fun k below i inside =>
    ran.cached.holds k (below.trans_le low) 0 along i inside
  refine ⟨wf, builtIns, positive, low.trans ran.cached.orders, ⟨seedAt rows 0 0, ?_⟩, ?_⟩
  · exact Tape.solves_of_holds (c := e₁.table.along 0) (seedAt rows · 0) wf.tape positive holds
  · intro v inside k below d single
    obtain rfl : d = 0 := by omega
    exact Tape.compatible_of_holds (c := e₁.table.along 0) wf.tape builtIns positive
      (seedAt rows · 0) holds (fun j input k below => inputs k below j _ _
        (ran.seed (below.trans_le low) along input) (ran.seed (positive.trans_le low) along input))
      k below v inside

private theorem Ran.wellShaped_of_spans [Scalar F] {e e₁ : Evaluator (Value F)} {x : List (Value F)}
    {rows answers : List (List (List (Value F)))} {q : Nat}
    (ran : e.Ran [] ([x] :: rows) answers e₁) (builtIns : e₁.tape.OnlyBuiltIns) (positive : 0 < q)
    (low : q ≤ rows.length + 1)
    (spans : ∀ seeds ∈ [x] :: rows, ∀ seed ∈ seeds, ∀ u ∈ seed, u.Spans n)
    (scalars : ∀ seeds ∈ rows.take (q - 1), ∀ seed ∈ seeds,
      List.Forall₂ (fun s u => s.isScalar = true → u.isScalar = true) x seed) :
    e₁.WellShaped q 1 := by
  refine ran.wellShaped builtIns positive low fun k below j u s there point => ?_
  obtain ⟨seeds, seed, row, direction, here⟩ := exists_of_seedAt there
  have point : x[j]? = some s := point
  have seed' := List.mem_of_getElem? direction
  refine Value.compatible_of_spans
    (spans seeds (List.mem_of_getElem? row) seed seed' u (List.mem_of_getElem? here))
    (spans [x] List.mem_cons_self x List.mem_cons_self s (List.mem_of_getElem? point)) ?_
  cases k with
  | zero =>
    obtain rfl := Option.some.inj row
    obtain rfl := Option.some.inj direction
    obtain rfl := Option.some.inj (here.symm.trans point)
    exact fun scalar => scalar
  | succ k =>
    have taken : (rows.take (q - 1))[k]? = some seeds :=
      (List.getElem?_take_of_lt (by omega)).trans row
    have all := scalars seeds (List.mem_of_getElem? taken) seed seed'
    obtain ⟨room, rfl⟩ := List.getElem?_eq_some_iff.1 point
    obtain ⟨room', rfl⟩ := List.getElem?_eq_some_iff.1 here
    exact all.get room room'

private theorem Ran.map_point {B β : Type} [Scalar F] [Base B F] {e e₁ : Evaluator B} {x : List B}
    {rows answers : List (List (List B))} (ran : e.Ran [] ([x] :: rows) answers e₁)
    (length : x.length = e₁.numInputs) (g : B → Nat → β) :
    ((List.range e₁.numInputs).map fun j => g (e₁.table.value j 0 0) j) =
      x.zipIdx.map fun (s, j) => g s j := by
  refine (eq_map_range (by rw [List.length_map, List.length_zipIdx, length]) fun j input => ?_).symm
  have point : x[j]? = some (e₁.table.value j 0 0) :=
    ran.seed (Nat.succ_pos _) ran.wellFormed.table.directions input
  rw [List.getElem?_map, List.getElem?_zipIdx, point, Nat.zero_add]
  rfl

private theorem Imaged.acceptsReverse {B B' : Type} [Scalar F] [Base B F] [Base B' F] {D : B → Prop}
    {f : B → B'} {id' m r q : Nat} {e : Evaluator B} {e' : Evaluator B'}
    (imaged : Imaged D f id' m r e e') (low : q ≤ m) {weights : List (List B)}
    (accepts : e.AcceptsReverse q weights) :
    e'.AcceptsReverse q (weights.map (List.map f)) where
  positive := accepts.positive
  orders := low.trans (imaged.orders ((Nat.pos_of_ne_zero accepts.positive).trans_le low)).2.ge
  directions high := by
    obtain ⟨left, right⟩ := imaged.directions (high.trans_le low)
    rw [right, ← left, accepts.directions high]
  count := by rw [List.length_map, accepts.count, numOutputs, numOutputs, imaged.outputs]
  lengths w' member := by
    obtain ⟨w, given, rfl⟩ := List.mem_map.1 member
    rw [List.length_map, accepts.lengths w given]

variable [ExactScalar F] {e : Evaluator (Value F)} {b : Evaluator (Bundle n F)}
  {l : Nat → Evaluator F} {id' m r q : Nat} {weights : List (List (Value F))}

private theorem passes_weights {B B' : Type} [Base B F] [Base B' F] {P : Nat → B → B' → Prop}
    {e₁ : Evaluator B} {e₂ : Evaluator B'} (g : Value F → B) (g' : Value F → B')
    {outputs : List Nat} (count : weights.length = outputs.length)
    (lengths : ∀ w ∈ weights, w.length = q)
    (each : ∀ y ∈ outputs, ∀ w ∈ weights, ∀ u ∈ w, P y
      (Base.reduceLike (g u) (e₁.table.value y 0 0))
      (Base.reduceLike (g' u) (e₂.table.value y 0 0))) :
    AllThree (Passes e₁ e₂ P q) outputs ((weights.map (List.map g)).map List.toArray)
      ((weights.map (List.map g')).map List.toArray) := by
  refine allThree_of_get (by simpa using count) (by simpa using count) ?_
  intro j y x x' at_j here here'
  rw [List.map_map, List.getElem?_map, Option.map_eq_some_iff] at here here'
  obtain ⟨w, given, rfl⟩ := here
  obtain ⟨_, given', rfl⟩ := here'
  obtain rfl := Option.some.inj (given.symm.trans given')
  have member := List.mem_of_getElem? given
  refine ⟨by simpa using lengths w member, by simpa using lengths w member,
    fun k c c' read read' => ?_⟩
  simp only [Function.comp_apply, List.getElem?_toArray, List.getElem?_map,
    Option.map_eq_some_iff] at read read'
  obtain ⟨u, found, rfl⟩ := read
  obtain ⟨_, found', rfl⟩ := read'
  obtain rfl := Option.some.inj (found.symm.trans found')
  exact each y (List.mem_of_getElem? at_j) w member u (List.mem_of_getElem? found)

private theorem reverse_spread (imaged : Imaged (Value.Spans n) (Value.spread n) id' m r e b)
    (shaped : e.WellShaped q 1) (low : q ≤ m) (positive : 0 < r)
    (arrays : ∀ y ∈ e.outputs, (e.table.value y 0 0).isScalar = false)
    (full : ∀ w ∈ weights, ∀ u ∈ w, u.isScalar = false ∧ u.Spans n)
    (accepts : e.AcceptsReverse q weights) :
    ∃ U : Nat → Nat → Bundle n F,
      b.reverseWith (fun _ => false) q (weights.map (List.map (Value.spread n))) =
        .ok ((List.range e.numInputs).map fun j => (List.range q).map (U j)) ∧
      e.reverse q weights = .ok ((List.range e.numInputs).map fun j => (List.range q).map fun k =>
        (e.table.value j 0 0).collected (List.ofFn (U j k))) := by
  have some_ : 0 < m := shaped.positive.trans_le low
  have shares : AllThree (Passes e b (fun v => Value.Pools n (e.table.value v 0 0)) q) e.outputs
      ((weights.map (List.map id)).map List.toArray)
      ((weights.map (List.map (Value.spread n))).map List.toArray) :=
    passes_weights id (Value.spread n) accepts.count accepts.lengths
      fun y output w member u given =>
      have ⟨array, spans⟩ := full w member u given
      Value.Whole.pools ⟨spans, rfl, .inl array⟩ (arrays y output)
  rw [List.map_id_fun, List.map_id] at shares
  obtain ⟨y, U, collected, bundled, same⟩ :=
    (companions_of_spread imaged shaped low positive).reverse imaged.outputs imaged.numInputs
      accepts (imaged.acceptsReverse low accepts) shares
      (O := fun j u U => u = (e.table.value j 0 0).collected (List.ofFn U))
      fun j input u U pools => ⟨_, _, pools.deliver (imaged.meant j
        (input.trans_le shaped.wellFormed.tape.inputs_le) 0 some_ 0 positive), rfl, rfl⟩
  refine ⟨U, bundled, collected.trans (congrArg Except.ok ?_)⟩
  exact List.map_congr_left fun j input => List.map_congr_left fun k less =>
    same j (List.mem_range.1 input) k (List.mem_range.1 less)

private theorem reverse_component {i : Fin n} {l : Evaluator F} {id'' : Nat}
    (imaged : Imaged (Value.Spans n) (Value.spread n) id' m r e b)
    (beside : Imaged (Value.Spans n) (·.component i) id'' m r e l)
    (low : q ≤ m) (positive : 0 < r) (accepts : e.AcceptsReverse q weights)
    {U : Nat → Nat → Bundle n F}
    (bundled : b.reverseWith (fun _ => false) q (weights.map (List.map (Value.spread n))) =
      .ok ((List.range e.numInputs).map fun j => (List.range q).map (U j))) :
    l.reverse q (weights.map (List.map (·.component i))) =
      .ok ((List.range e.numInputs).map fun j => (List.range q).map fun k => U j k i) := by
  have some_ : 0 < q := Nat.pos_of_ne_zero accepts.positive
  have inputs : l.numInputs = e.numInputs := beside.numInputs
  have companions : Companions _ _ q l b := companions_of_component i some_ beside.wellFormed'
    imaged.wellFormed'
    (fun v entry found => imaged.lies.elementary (by rwa [beside.tape, Tape.entry_image] at found))
    (imaged.size.trans beside.size.symm)
    (fun v => by rw [imaged.tape, beside.tape, Tape.entry_image, Tape.entry_image])
    (low.trans (beside.orders (some_.trans_le low)).2.ge)
    (low.trans (imaged.orders (some_.trans_le low)).2.ge)
    fun v inside k less => by
      rw [beside.size] at inside
      rw [imaged.values v inside k (less.trans_le low) 0 positive,
        beside.values v inside k (less.trans_le low) 0 positive]
      rfl
  obtain ⟨x, V, done, bundled', same⟩ := companions.reverse
    (imaged.outputs.trans beside.outputs.symm) (imaged.numInputs.trans inputs.symm)
    (beside.acceptsReverse low accepts) (imaged.acceptsReverse low accepts)
    (passes_weights _ _ (beside.outputs ▸ accepts.count) accepts.lengths fun _ _ _ _ _ _ => rfl)
    (O := fun j x U => U i = x) fun j input x U same => ⟨_, _, rfl, rfl, same⟩
  rw [inputs] at done bundled' same
  rw [done]
  have equal := List.map_inj_left.1 (Except.ok.inj (bundled.symm.trans bundled'))
  refine congrArg Except.ok (List.map_congr_left fun j input =>
    List.map_congr_left fun k less => ?_)
  rw [List.map_inj_left.1 (equal j input) k less]
  exact (same j (List.mem_range.1 input) k (List.mem_range.1 less)).symm

private theorem reverse_lanes (imaged : Imaged (Value.Spans n) (Value.spread n) id' m r e b)
    {id'' : Nat} (lanes : ∀ i < n, Imaged (Value.Spans n) (·.component i) id'' m r e (l i))
    (shaped : e.WellShaped q 1) (low : q ≤ m) (positive : 0 < r)
    (arrays : ∀ y ∈ e.outputs, (e.table.value y 0 0).isScalar = false)
    (full : ∀ w ∈ weights, ∀ u ∈ w, u.isScalar = false ∧ u.Spans n)
    (accepts : e.AcceptsReverse q weights) :
    ∃ z : Nat → Nat → Nat → F,
      (∀ i < n, (l i).reverse q (weights.map (List.map (·.component i))) =
        .ok ((List.range e.numInputs).map fun j => (List.range q).map (z i j))) ∧
      e.reverse q weights = .ok ((List.range e.numInputs).map fun j => (List.range q).map fun k =>
        (e.table.value j 0 0).collected ((List.range n).map fun i => z i j k)) := by
  obtain ⟨U, bundled, collected⟩ := reverse_spread imaged shaped low positive arrays full accepts
  refine ⟨fun i j k => if below : i < n then U j k ⟨i, below⟩ else 0, fun i below => ?_, ?_⟩
  · rw [reverse_component (i := ⟨i, below⟩) imaged (lanes i below) low positive accepts bundled]
    simp only [dif_pos below]
  · rw [collected]
    refine congrArg Except.ok (List.map_congr_left fun j _ => List.map_congr_left fun k _ => ?_)
    refine congrArg _ (eq_map_range List.length_ofFn fun i below => ?_)
    rw [List.getElem?_ofFn, dif_pos below]
    refine congrArg some ?_
    show _ = dite _ _ _
    rw [dif_pos below]

end Evaluator

section Programs

open Evaluator

variable {F : Type} [Scalar F] {registry : Registry (Value F)} {id n r : Nat}
  {inputs x : List (Value F)} {steps : List (Step (Value F))} {outputs : List Nat}
  {p : Program.Frozen (Value F)} {rows : List (List (List (Value F)))} {e : Evaluator (Value F)}

/-- A program of elementary operations over scalars and arrays of one length is as many programs
over elements: forward each of these has the elements at its place of what the arrays have, and what
the arrays get back they collect from what the elements get back, where arithmetic is exact.  For
this a scalar has to stay one in the seeds that a reverse sweep looks at. -/
theorem arrays_are_bundles (numbered : registry.Numbered)
    (frozen : Program.freeze registry id inputs steps outputs = .ok p)
    (elementary : ∀ s ∈ steps, s.Elementary) (foreign : ∀ s ∈ steps, s.Foreign id)
    (constants : ∀ s ∈ steps, s.Within (Value.Spans n)) (recorded : ∀ u ∈ inputs, u.Spans n)
    (later : p.evaluator.Later e) (positive : 0 < r) (directions : ∀ seeds ∈ rows, seeds.length = r)
    (given : ∀ seeds ∈ [x] :: rows, ∀ seed ∈ seeds, seed.length = inputs.length ∧
      ∀ u ∈ seed, u.Spans n) :
    ∃ ys answers e₁, forwardFrom 0 ([x] :: rows) e = (.ok ([ys] :: answers), e₁) ∧
      ∀ (registry' : Registry F) (id' : Nat), ∃ g : Nat → Program.Frozen F,
        (∀ i < n, Program.freeze registry' id' (inputs.map (·.component i))
          (steps.map (Step.map (·.component i))) outputs = .ok (g i)) ∧
        ∀ l : Nat → Evaluator F, (∀ i < n, (g i).evaluator.Later (l i)) →
          ∃ l₁ : Nat → Evaluator F,
            (∀ i < n, forwardFrom 0 (([x] :: rows).map (List.map (List.map (·.component i)))) (l i) =
              (.ok (([ys] :: answers).map (List.map (List.map (·.component i)))), l₁ i)) ∧
            (∀ v < e₁.size, ∀ k ≤ rows.length, ∀ d < r, ∃ u z, e₁.table.coeff v k d = .ok u ∧
              u.broadcastTo n = .ok ((List.range n).map z) ∧
              ∀ i < n, (l₁ i).table.coeff v k d = .ok (z i)) ∧
            ∀ exact : ExactScalar F, exact.toRingScalar.toScalar = ‹Scalar F› →
              ∀ q weights, e₁.AcceptsReverse q weights →
              (∀ seeds ∈ rows.take (q - 1), ∀ seed ∈ seeds,
                List.Forall₂ (fun s u => s.isScalar = true → u.isScalar = true) x seed) →
              (∀ y ∈ ys, y.isScalar = false) →
              (∀ w ∈ weights, ∀ u ∈ w, u.isScalar = false ∧ u.Spans n) →
              ∃ z : Nat → Nat → Nat → F,
                (∀ i < n, (l₁ i).reverse q (weights.map (List.map (·.component i))) =
                  .ok ((List.range inputs.length).map fun j => (List.range q).map (z i j))) ∧
                e₁.reverse q weights = .ok (x.zipIdx.map fun (s, j) => (List.range q).map fun k =>
                  s.collected ((List.range n).map fun i => z i j k)) := by
  obtain ⟨_, _, _, _, _, freezes, arity, _⟩ := Program.freeze_spec numbered foreign frozen
  have arity : e.numInputs = inputs.length := by
    rw [numInputs, (later.kept freezes.wellFormed).2.1]
    exact freezes.inputs.trans arity
  obtain ⟨wf, sameTape, sameOutputs⟩ := later.kept freezes.wellFormed
  have lies₀ : p.evaluator.tape.Over (Value.Spans n) := (Program.freeze_image 0 Registry.builtins
    (Value.spread_homomorphism (n := n)) elementary foreign constants recorded frozen).1
  have lies : e.tape.Over (Value.Spans n) := sameTape ▸ lies₀
  have counts : ∀ k seeds, ([x] :: rows)[k]? = some seeds →
      seeds.length = if k = 0 then 1 else r := by
    rintro (_ | k) seeds there
    · obtain rfl := Option.some.inj there
      rfl
    · exact directions seeds (List.mem_of_getElem? there)
  rw [← arity] at given
  -- the bundles run beside the arrays
  obtain ⟨found, e₁, b₁, done, _, tape₁, imaged⟩ := (imaged_of_tape wf
    (wf.image lies : (e.image (Value.spread n) 0).WellFormed) lies rfl rfl r).forwardFrom
    Value.spread_homomorphism positive (by simpa only [Nat.zero_add] using counts) given
  rw [Nat.zero_add, List.length_cons] at imaged
  have ran := forwardFrom_zero wf done
  refine ⟨e₁.outputs.map fun y => e₁.table.value y 0 0, e₁.answers 1 rows, e₁,
    done.trans (Prod.ext (congrArg Except.ok ran.answers) rfl), fun registry' id' => ?_⟩
  have freeze : ∀ i (below : i < n), _ := fun i below => (Program.freeze_image id' registry'
    (Value.component_homomorphism below) elementary foreign constants recorded frozen).2
  refine ⟨_, freeze, fun l later' => ?_⟩
  -- and so do the elements at each place
  have each : ∀ i < n, ∃ l₁,
      forwardFrom 0 (([x] :: rows).map (List.map (List.map (·.component i)))) (l i) =
        (.ok (found.map (List.map (List.map (·.component i)))), l₁) ∧
      Imaged (Value.Spans n) (·.component i) id' (rows.length + 1) r e₁ l₁ := by
    intro i below
    obtain ⟨wf', tape', outputs'⟩ := (later' i below).kept (freezes.wellFormed.image lies₀)
    have tape' : (l i).tape = e.tape.image (·.component i) id' := by
      rw [sameTape]
      exact tape'
    exact forwardFrom_image (Value.component_homomorphism below) wf wf' lies tape'
      (outputs'.trans sameOutputs.symm) positive counts given done
  have : Nonempty (Evaluator F) := ⟨l 0⟩
  choose! l₁ runs beside using each
  refine ⟨l₁, fun i below => ?_, fun v inside k low d along => ?_, ?_⟩
  · rw [runs i below, ran.answers]
    rfl
  · have low : k < rows.length + 1 := Nat.lt_succ_of_le low
    exact ⟨_, fun i => (e₁.table.value v k d).component i, (imaged.coeff inside low along).1,
      (imaged.meant v inside k low d along).broadcastTo,
      fun i below => ((beside i below).coeff inside low along).2⟩
  · rintro exact rfl q weights accepts scalars arrays full
    have positive' := Nat.pos_of_ne_zero accepts.positive
    have low : q ≤ rows.length + 1 :=
      accepts.orders.trans_eq (imaged.orders (Nat.succ_pos _)).1
    have shaped : e₁.WellShaped q 1 := ran.wellShaped_of_spans imaged.lies.onlyBuiltIns positive' low
      (fun seeds row seed member => (given seeds row seed member).2) scalars
    obtain ⟨z, lanes, collected⟩ := reverse_lanes imaged beside shaped low positive
      (fun y output => arrays _ (List.mem_map_of_mem (ran.outputs ▸ output))) full accepts
    have count : x.length = inputs.length :=
      (given [x] List.mem_cons_self x List.mem_cons_self).1.trans arity
    have arity' : e₁.numInputs = inputs.length := by
      rw [← arity, numInputs, tape₁]
      rfl
    refine ⟨z, arity' ▸ lanes, collected.trans (congrArg Except.ok ?_)⟩
    exact ran.map_point (count.trans arity'.symm) fun s j => (List.range q).map fun k =>
      s.collected ((List.range n).map fun i => z i j k)

end Programs

section Rationals

open Evaluator

/-- The rational numbers; elementary functions that lead out of them are left out. -/
instance : ExactScalar ℚ where
  __ := (inferInstance : Field ℚ)
  cast_injective := Nat.cast_injective
  exp x := x
  ln x := x
  sqrt x := x
  sin x := x
  cos x := x
  abs x := |x|
  lt a b := decide (a < b)
  le a b := decide (a ≤ b)
  beq a b := decide (a = b)
  ofNat n := n
  ofNat_eq _ := rfl
  beq_iff _ _ := decide_eq_true_iff

/-- A scalar times an array: what the scalar gets back is the sum of what it gets back at the two
places. -/
theorem arrays_are_bundles_mul : ∃ (p : Program.Frozen (Value ℚ)) (g : Nat → Program.Frozen ℚ)
    (answers : List (List (List (Value ℚ)))) (e₁ : Evaluator (Value ℚ)) (l₁ : Nat → Evaluator ℚ)
    (z : Nat → Nat → Nat → ℚ),
    Program.freeze Registry.builtins 7 [.scalar 3, .array [1, 2]] [.binary .mul 0 1] [2] = .ok p ∧
    (∀ i < 2, Program.freeze Registry.builtins 8
      ([.scalar 3, .array [1, 2]].map (Value.component · i)) [.binary .mul 0 1] [2] = .ok (g i)) ∧
    forwardFrom 0 [[[.scalar 2, .array [4, 5]]], [[.scalar 1, .array [1, 0]]]] p.evaluator =
      (.ok answers, e₁) ∧
    (∀ i < 2, forwardFrom 0 ([[[.scalar 2, .array [4, 5]]], [[.scalar 1, .array [1, 0]]]].map
      (List.map (List.map (Value.component · i)))) (g i).evaluator =
        (.ok (answers.map (List.map (List.map (Value.component · i)))), l₁ i)) ∧
    (∀ i < 2, (l₁ i).reverse 2 ([[.array [1, 2], .array [0, 1]]].map
      (List.map (Value.component · i))) = .ok [[z i 0 0, z i 0 1], [z i 1 0, z i 1 1]]) ∧
    e₁.reverse 2 [[.array [1, 2], .array [0, 1]]] =
      .ok [[.scalar (0 + z 0 0 0 + z 1 0 0), .scalar (0 + z 0 0 1 + z 1 0 1)],
        [.array [z 0 1 0, z 1 1 0], .array [z 0 1 1, z 1 1 1]]] := by
  let tape : Tape (Value ℚ) := {
    id := 7
    nodes := #[⟨.input, .scalar 3⟩, ⟨.input, .array [1, 2]⟩,
      ⟨.binary .mul 0 1, .array [3 * 1, 3 * 2]⟩]
    numInputs := 2
    atomics := #[] }
  have frozen : Program.freeze Registry.builtins 7 [.scalar 3, .array [1, 2]]
      [.binary .mul 0 1] [2] =
        .ok ⟨[.array [3 * 1, 3 * 2]], [.binary .mul 0 1], Evaluator.ofTape tape [2]⟩ := rfl
  have spans : ∀ a b c : ℚ, ∀ u ∈ [Value.scalar a, .array [b, c]], u.Spans 2 := by
    simp [Value.Spans]
  have counts : ∀ seeds ∈ [[[Value.scalar (1 : ℚ), .array [1, 0]]]], seeds.length = 1 := by
    intro seeds member
    obtain rfl := List.mem_singleton.1 member
    rfl
  obtain ⟨ys, answers, e₁, done, places⟩ := arrays_are_bundles (n := 2)
    (x := [.scalar 2, .array [4, 5]]) Registry.builtins_faithful.numbered frozen
    (by simp [Step.Elementary]) (by simp [Step.Foreign]) (by simp [Step.Within]) (spans 3 1 2) .refl
    Nat.one_pos counts (by simp [Value.Spans])
  obtain ⟨g, frozen', runs⟩ := places Registry.builtins 8
  obtain ⟨l₁, done', _, back⟩ := runs (fun i => (g i).evaluator) fun _ _ => .refl
  obtain ⟨_, _, _, _, _, freezes, _⟩ := Program.freeze_spec Registry.builtins_faithful.numbered
    (by simp [Step.Foreign]) frozen
  have ran := forwardFrom_zero freezes.wellFormed done
  have answered : (forwardFrom 0 [[[.scalar 2, .array [4, 5]]], [[.scalar 1, .array [1, 0]]]]
      (Evaluator.ofTape tape [2])).1 = .ok [[[.array [8, 10]]], [[.array [6, 5]]]] := by
    decide +kernel
  obtain ⟨rfl, -⟩ : ys = [.array [8, 10]] ∧ answers = [[[.array [6, 5]]]] := by
    simpa using (congrArg Prod.fst done).symm.trans answered
  obtain ⟨z, swept', swept⟩ := back inferInstance rfl 2 [[.array [1, 2], .array [0, 1]]]
    ⟨by decide, (ran.orders (by simp)).ge, fun _ => (ran.directions 1 _ (by simp) rfl).symm,
      by rw [numOutputs, ran.outputs]; rfl, by simp⟩
    (by simp [Value.isScalar]) (by simp [Value.isScalar]) (by simp [Value.isScalar, Value.Spans])
  exact ⟨_, g, _, e₁, l₁, z, frozen, frozen', done, done', swept', swept⟩

/-- A square of a scalar shifted by an array, along a direction that spreads the scalar: what the
scalar gets back is twice the weight times the sum of its seed, which is eight, where the two places
get back two and nothing. -/
theorem spread_scalar_collects_no_sum : ∃ (p : Program.Frozen (Value ℚ))
    (g : Nat → Program.Frozen ℚ) (answers : List (List (List (Value ℚ))))
    (e₁ : Evaluator (Value ℚ)) (l₁ : Nat → Evaluator ℚ),
    Program.freeze Registry.builtins 7 [.scalar 2, .array [1, 1]]
      [.binary .mul 0 0, .binary .add 2 1] [3] = .ok p ∧
    (∀ i < 2, Program.freeze Registry.builtins 8
      ([.scalar 2, .array [1, 1]].map (Value.component · i))
      [.binary .mul 0 0, .binary .add 2 1] [3] = .ok (g i)) ∧
    forwardFrom 0 [[[.scalar 2, .array [1, 1]]], [[.array [1, 3], .scalar 0]]] p.evaluator =
      (.ok ([[.array [5, 5]]] :: answers), e₁) ∧
    (∀ i < 2, forwardFrom 0 ([[[.scalar 2, .array [1, 1]]], [[.array [1, 3], .scalar 0]]].map
      (List.map (List.map (Value.component · i)))) (g i).evaluator =
        (.ok (([[.array [5, 5]]] :: answers).map (List.map (List.map (Value.component · i)))),
          l₁ i)) ∧
    ¬ ∃ z : Nat → Nat → Nat → ℚ,
      (∀ i < 2, (l₁ i).reverse 2 ([[.array [0, 0], .array [1, 0]]].map
        (List.map (Value.component · i))) = .ok [[z i 0 0, z i 0 1], [z i 1 0, z i 1 1]]) ∧
      e₁.reverse 2 [[.array [0, 0], .array [1, 0]]] =
        .ok [[.scalar (0 + z 0 0 0 + z 1 0 0), .scalar (0 + z 0 0 1 + z 1 0 1)],
          [.array [z 0 1 0, z 1 1 0], .array [z 0 1 1, z 1 1 1]]] := by
  let tape : Tape (Value ℚ) := {
    id := 7
    nodes := #[⟨.input, .scalar 2⟩, ⟨.input, .array [1, 1]⟩, ⟨.binary .mul 0 0, .scalar (2 * 2)⟩,
      ⟨.binary .add 2 1, .array [2 * 2 + 1, 2 * 2 + 1]⟩]
    numInputs := 2
    atomics := #[] }
  let lane : Tape ℚ := {
    id := 8
    nodes := #[⟨.input, 2⟩, ⟨.input, 1⟩, ⟨.binary .mul 0 0, 2 * 2⟩, ⟨.binary .add 2 1, 2 * 2 + 1⟩]
    numInputs := 2
    atomics := #[] }
  have frozen : Program.freeze Registry.builtins 7 [.scalar 2, .array [1, 1]]
      [.binary .mul 0 0, .binary .add 2 1] [3] = .ok ⟨[.array [2 * 2 + 1, 2 * 2 + 1]],
        [.binary .mul 0 0, .binary .add 2 1], .ofTape tape [3]⟩ := rfl
  have places : ∀ i < 2, Program.freeze Registry.builtins 8
      ([.scalar 2, .array [1, 1]].map (Value.component · i))
      [.binary .mul 0 0, .binary .add 2 1] [3] =
        .ok ⟨[2 * 2 + 1], [.binary .mul 0 0, .binary .add 2 1], .ofTape lane [3]⟩ := by
    intro i below
    obtain rfl | rfl : i = 0 ∨ i = 1 := by omega
    all_goals rfl
  let ran := forwardFrom 0 [[[.scalar 2, .array [1, 1]]], [[.array [1, 3], .scalar 0]]]
    (Evaluator.ofTape tape [3])
  let ranAt : Nat → Except Error (List (List (List ℚ))) × Evaluator ℚ := fun i =>
    forwardFrom 0 ([[[.scalar 2, .array [1, 1]]], [[.array [1, 3], .scalar 0]]].map
      (List.map (List.map (Value.component · i)))) (Evaluator.ofTape lane [3])
  have done : ran.1 = .ok [[[.array [5, 5]]], [[.array [4, 12]]]] := by
    unfold ran tape
    decide +kernel
  have done' : ∀ i < 2, (ranAt i).1 = .ok ([[[.array [5, 5]]], [[.array [4, 12]]]].map
      (List.map (List.map (Value.component · i)))) := by
    unfold ranAt lane
    decide +kernel
  have back : ran.2.reverse 2 [[.array [0, 0], .array [1, 0]]] =
      .ok [[.scalar 8, .scalar 4], [.array [0, 0], .array [1, 0]]] := by
    unfold ran tape
    decide +kernel
  have first : (ranAt 0).2.reverse 2 ([[.array [0, 0], .array [1, 0]]].map
      (List.map (Value.component · 0))) = .ok [[2, 4], [0, 1]] := by
    unfold ranAt lane
    decide +kernel
  have second : (ranAt 1).2.reverse 2 ([[.array [0, 0], .array [1, 0]]].map
      (List.map (Value.component · 1))) = .ok [[0, 0], [0, 0]] := by
    unfold ranAt lane
    decide +kernel
  refine ⟨_, fun _ => _, [[[.array [4, 12]]]], ran.2, fun i => (ranAt i).2, frozen, places,
    Prod.fst_eq_iff.1 done, fun i below => Prod.fst_eq_iff.1 (done' i below), ?_⟩
  rintro ⟨z, lanes, collected⟩
  have one := first.symm.trans (lanes 0 Nat.two_pos)
  have other := second.symm.trans (lanes 1 Nat.one_lt_two)
  have sum := back.symm.trans collected
  simp only [Except.ok.injEq, List.cons.injEq, Value.scalar.injEq, and_true] at one other sum
  rw [← one.1.1, ← other.1.1] at sum
  exact absurd sum.1.1 (by decide +kernel)

end Rationals

end TaylorTape
