import Mathlib.Algebra.Order.PUnit
import TaylorTape.Proofs.Compatible
import TaylorTape.Proofs.History
import TaylorTape.Proofs.Lockstep

/-!
Calls whose seeds and weights have fitting shapes succeed.

The value that a variable has at order zero gives its shape.  If the seeds are compatible with the
shapes of the inputs, then what every entry yields is compatible with its own shape, at every order,
so that no rule is ever refused.  In the same way compatible weights lead to partials that are
compatible with the shapes of the variables, and what the inputs receive in the end has exactly
their shapes.
-/

set_option autoImplicit false
set_option relaxedAutoImplicit false

namespace TaylorTape

open Base Series

variable {B F : Type} [Scalar F] [Base B F] [ShapedBase B]

private theorem UnaryOp.sameShape_eval (op : UnaryOp) (u : B) : SameShape (op.eval u) u :=
  ShapedBase.map op.onElem u

private theorem BinaryOp.compatible_of_eval {op : BinaryOp} {u v w : B}
    (done : op.eval u v = .ok w) :
    Compatible u w ∧ Compatible v w := by
  cases op with
  | add | sub | mul | div => exact ShapedBase.compatible_of_zipWith done

namespace Tape

variable {tape : Tape B} {x : List B} {s : Nat → B} {q i : Nat}

/-- What an operation reads is compatible with the value that it yields. -/
theorem Solves.compatible_operand (solves : tape.Solves x s) {e : Entry}
    (found : tape.entry i = .ok e) (plain : ∀ place args n, e ≠ .call place args n) {a : Nat}
    (reads : a ∈ e.operands) : Compatible (s a) (s i) := by
  cases e with
  | input | const | result owner => cases reads
  | call place args n => exact absurd rfl (plain place args n)
  | unary op b =>
    obtain rfl := List.mem_singleton.1 reads
    rw [solves.unary found]
    exact (op.sameShape_eval _).symm.compatible
  | binary op b b' =>
    obtain ⟨left, right⟩ := BinaryOp.compatible_of_eval (solves.binary found)
    rcases List.mem_pair.1 reads with rfl | rfl
    · exact left
    · exact right

omit [Scalar F] [ShapedBase B] in
private theorem bothFit_iff {vs : List Nat} {us us' : List B} :
    AllThree (fun v => BothFit (s v) False) vs us us' ↔
      List.Forall₂ Compatible us (vs.map s) ∧ List.Forall₂ Compatible us' (vs.map s) := by
  constructor
  · intro all
    induction all with
    | nil => exact ⟨.nil, .nil⟩
    | cons head _ ih => exact ⟨.cons head.1 ih.1, .cons head.2 ih.2⟩
  · rintro ⟨left, right⟩
    induction vs generalizing us us' with
    | nil =>
      cases left
      cases right
      exact .nil
    | cons v vs ih =>
      rw [List.map_cons] at left right
      cases left with
      | cons head tail =>
        cases right with
        | cons head' tail' => exact .cons ⟨head, head'⟩ (ih tail tail')

private theorem Solves.keeps_compatible (solves : tape.Solves x s) :
    tape.Keeps s s fun v => BothFit (s v) where
  respected i _ := respected_bothFit (s i)
  operand i e found plain a reads u u' both :=
    have fits := solves.compatible_operand found plain reads
    ⟨both.1.trans fits, both.2.trans fits⟩
  call i place args n r found there builtIn us us' all := by
    obtain ⟨b, op, stepped⟩ := solves.call found there builtIn
    obtain ⟨left, right⟩ := bothFit_iff.1 all
    obtain ⟨ys, done, fits⟩ := (b.keepsShapes stepped).forth left
    obtain ⟨ys', done', fits'⟩ := (b.keepsShapes stepped).forth right
    exact ⟨b, op, ys, ys', done, done', bothFit_iff.2 ⟨fits, fits'⟩⟩

theorem compatible_of_holds (wf : tape.WellFormed) (builtIns : tape.OnlyBuiltIns) (positive : 0 < q)
    (seed : Nat → List B) {c : Nat → Nat → B}
    (holds : ∀ k < q, ∀ i < tape.size, tape.Holds k (seed k) c i)
    (inputs : ∀ j < tape.numInputs, ∀ k < q, Compatible (c j k) (c j 0)) :
    ∀ k < q, ∀ v < tape.size, Compatible (c v k) (c v 0) := by
  have keeps := (solves_of_holds seed wf positive holds).keeps_compatible
  intro k below v inside
  exact (keeps.related_of_holds wf builtIns
    (fun v _ => ⟨rfl, rfl, bothFit_of_compatible (.refl _)⟩) holds holds
    (fun j input k below => bothFit_of_compatible (inputs j input k below)) k below v inside).1

end Tape

namespace Evaluator

variable {e : Evaluator B} {q r : Nat}

/-- An evaluator that has the coefficients of some orders along some directions, each compatible
with the value of its variable. -/
structure WellShaped (e : Evaluator B) (q r : Nat) : Prop where
  wellFormed : e.WellFormed
  builtIns : e.tape.OnlyBuiltIns
  positive : 0 < q
  orders : q ≤ e.numOrders
  solves : ∃ x, e.tape.Solves x (e.table.value · 0 0)
  compatible : ∀ v < e.tape.size, ∀ k < q, ∀ d < r,
    Compatible (e.table.value v k d) (e.table.value v 0 0)

/-- A recorded evaluator is well-shaped along the directions along which its inputs are. -/
theorem RecordedOfBuiltIns.wellShaped (recorded : e.RecordedOfBuiltIns) (positive : 0 < q)
    (orders : q ≤ e.numOrders) (directions : r ≤ e.numDirections)
    (inputs : ∀ j < e.numInputs, ∀ k < q, ∀ d < r,
      Compatible (e.table.value j k d) (e.table.value j 0 0)) : e.WellShaped q r := by
  have wf := recorded.recorded.wellFormed
  obtain ⟨rows, count, cached⟩ := recorded.exists_cached
  have holds : ∀ d < e.numDirections, ∀ k < q, ∀ i < e.tape.size,
      e.tape.Holds k (seedAt rows k d) (e.table.along d) i := fun d along k below =>
    cached.holds k (by omega) d along
  refine ⟨wf, recorded.onlyBuiltIns, positive, orders, ⟨seedAt rows 0 0, ?_⟩, ?_⟩
  · exact Tape.solves_of_holds (c := e.table.along 0) (seedAt rows · 0) wf.tape positive
      (holds 0 wf.table.directions)
  · intro v inside k below d along
    exact Tape.compatible_of_holds (c := e.table.along d) wf.tape recorded.onlyBuiltIns positive
      (seedAt rows · d) (holds d (by omega))
      (fun j input k below => inputs j input k below d along) k below v inside

namespace WellShaped

/-- A call for one more order succeeds along seeds that are compatible with the inputs, and leaves
coefficients that are compatible with the values of their variables. -/
private theorem forward (shaped : e.WellShaped q e.numDirections) {seeds : List (List B)}
    (accepts : e.Accepts q r seeds)
    (fits : ∀ seed ∈ seeds, List.Forall₂ (fun j u => Compatible u (e.table.value j 0 0))
      (List.range e.numInputs) seed) :
    ∃ ys e', Evaluator.forward q r seeds e = (.ok ys, e') ∧ e.Advanced q r seeds ys e' ∧
      e'.WellShaped (q + 1) r := by
  have wf := shaped.wellFormed
  have positive := shaped.positive
  obtain ⟨x, solves⟩ := shaped.solves
  have keeps := solves.keeps_compatible
  -- above order zero there are lower orders along the directions that are asked for
  have lower : ∀ v < e.tape.size, ∀ k < q, ∀ d < r,
      Compatible (e.table.value v k d) (e.table.value v 0 0) := by
    intro v inside k below d along
    by_cases zero : k = 0
    · subst zero
      exact .refl _
    · exact shaped.compatible v inside k below d (accepts.directions (by omega) ▸ along)
  obtain ⟨ys, e', done, advanced, good⟩ := forward_total wf shaped.builtIns accepts
    (fun _ v u => Compatible u (e.table.value v 0 0)) fun d seed found i inside c low before => by
      have along : d < r := accepts.count ▸ (List.getElem?_eq_some_iff.1 found).1
      obtain ⟨entry, there⟩ := Tape.exists_entry inside
      have earlier : ∀ v < e.tape.size, ∀ k < q, Compatible (c v k) (e.table.value v 0 0) :=
        fun v var k below => low v var k below ▸ lower v var k below d along
      obtain ⟨us, us', yields, _, all⟩ : ∃ us us', e.tape.Yields q seed c i us ∧
          e.tape.Yields q seed c i us' ∧ _ := keeps.yields shaped.builtIns there positive.ne'
        (fun a reads => by
          have var := wf.tape.operand_lt there reads
          exact ⟨low a var 0 positive, low a var 0 positive⟩)
        (fun a reads k le => bothFit_of_compatible <| (Nat.lt_or_eq_of_le le).elim
          (earlier a (wf.tape.operand_lt there reads) k)
          fun same => same ▸ before a (wf.tape.produced_operand there reads))
        (fun k below => bothFit_of_compatible (earlier i inside k below))
        (fun plain => by
          have input : i < e.numInputs := (wf.tape.inputs i entry there).1 plain
          obtain ⟨lengths, each⟩ := List.forall₂_iff_get.1 (fits seed (List.mem_of_getElem? found))
          rw [List.length_range] at lengths
          have own := each i (by simpa using input) (lengths ▸ input)
          rw [List.get_eq_getElem, List.get_eq_getElem, List.getElem_range] at own
          have here := List.getElem?_eq_getElem (lengths ▸ input)
          exact ⟨_, _, here, here, bothFit_of_compatible own⟩)
      refine ⟨us, yields, fun s u at_s => ?_⟩
      obtain ⟨room, rfl⟩ := List.getElem?_eq_some_iff.1 at_s
      have each := (List.forall₂_iff_get.1 (Tape.bothFit_iff.1 all).1).2 s room (by
        rw [List.length_map, all.length_eq.1]
        exact room)
      rwa [List.get_eq_getElem, List.get_eq_getElem, List.getElem_map, List.getElem_range',
        Nat.one_mul] at each
  have same : ∀ v < e.tape.size, e'.table.value v 0 0 = e.table.value v 0 0 := fun v inside =>
    advanced.low v inside 0 positive 0 (.inl rfl)
  refine ⟨ys, e', done, advanced, advanced.wellFormed, advanced.tape ▸ shaped.builtIns, by omega,
    advanced.orders.ge, ⟨x, ?_⟩, fun v inside k below d along => ?_⟩
  · rw [advanced.tape]
    exact fun i inside => (solves i inside).congr wf.tape fun v made _ _ =>
      (same v (wf.tape.lt_of_produced made)).symm
  · rw [advanced.tape] at inside
    rw [same v inside]
    rcases Nat.lt_succ_iff_lt_or_eq.1 below with less | rfl
    · have directions : e'.numDirections = r := by rw [advanced.directions, if_neg positive.ne']
      rw [advanced.low v inside k less d (.inr (directions ▸ along))]
      exact lower v inside k less d along
    · exact good d along v inside

/-- A run of calls for the next orders succeeds along seeds that are compatible with the inputs. -/
theorem forwardFrom {n : Nat} {rows : List (List (List B))} (shaped : e.WellShaped n e.numDirections)
    (positive : 0 < r) (orders : e.numOrders = n) (directions : 1 < n → e.numDirections = r)
    (fits : ∀ seeds ∈ rows, seeds.length = r ∧ ∀ seed ∈ seeds,
      List.Forall₂ (fun j u => Compatible u (e.table.value j 0 0)) (List.range e.numInputs) seed) :
    ∃ answers e', Evaluator.forwardFrom n rows e = (.ok answers, e') := by
  induction rows generalizing e n with
  | nil => exact ⟨[], e, rfl⟩
  | cons seeds rows ih =>
    obtain ⟨count, own⟩ := fits seeds List.mem_cons_self
    have accepts : e.Accepts n seeds.length seeds :=
      ⟨by omega, rfl, fun seed member => (own seed member).length_eq.symm.trans List.length_range,
        fun zero => absurd zero shaped.positive.ne', orders.ge,
        fun higher => count.trans (directions higher).symm⟩
    obtain ⟨ys, e₁, first, advanced, next⟩ := shaped.forward accepts own
    have along : e₁.numDirections = seeds.length := by
      rw [advanced.directions, if_neg shaped.positive.ne']
    have inputs : e₁.numInputs = e.numInputs := congrArg Tape.numInputs advanced.tape
    obtain ⟨zs, e₂, rest⟩ := ih (along.symm ▸ next) advanced.orders (fun _ => along.trans count)
      fun seeds' member => by
        obtain ⟨count', later⟩ := fits seeds' (List.mem_cons_of_mem _ member)
        refine ⟨count', fun seed given => inputs.symm ▸ ?_⟩
        have each := (List.forall₂_and_left (p := (· < e.numInputs)) _ _).2
          ⟨fun j among => List.mem_range.1 among, later seed given⟩
        refine each.imp fun j u ⟨below, compatible⟩ => ?_
        have inside : j < e.tape.size := below.trans_le shaped.wellFormed.tape.inputs_le
        rwa [advanced.low j inside 0 shaped.positive 0 (.inl rfl)]
    exact ⟨ys :: zs, e₂, run_bind_eq_ok.2 ⟨ys, e₁, first, run_bind_eq_ok.2 ⟨zs, e₂, rest, rfl⟩⟩⟩

end WellShaped

/-- Partials of a variable that are compatible with its value. -/
def Upholds (e : Evaluator B) (q v : Nat) (p : Series B) : Prop :=
  Related q (BothFit (e.table.value v 0 0)) (fun _ => False) p p

/-- What can be passed on to a variable: collapsed onto its shape, it is compatible with its value. -/
def Collapses (e : Evaluator B) (q v : Nat) (x : Series B) : Prop :=
  Related q (fun _ u _ => Compatible (Base.reduceLike u (e.table.value v 0 0)) (e.table.value v 0 0))
    (fun _ => False) x x

section Passing

variable {v i : Nat} {x pz : Series B}

omit [ShapedBase B] in
private theorem exists_of_upholds {m : Nat} {vs : List Nat} {pzs : List (Series B)}
    (own : List.Forall₂ (e.Upholds (m + 1)) vs pzs) :
    ∃ fs : List (Nat → B), pzs = fs.map (.of · (m + 1)) ∧
      ∀ k < m + 1, List.Forall₂ Compatible (fs.map (· k)) (vs.map (e.table.value · 0 0)) := by
  induction own with
  | nil => exact ⟨[], rfl, fun _ _ => .nil⟩
  | cons head _ ih =>
    obtain ⟨fs, rfl, all⟩ := ih
    obtain ⟨f, _, rfl, _, each⟩ := head.exists_of Base.zero Base.zero
    exact ⟨f :: fs, rfl, fun k below => .cons (each k below).1 (all k below)⟩

private theorem collapses_of_related {s : B} {grade : Nat → Prop}
    (share : Related q (BothFit s) grade x x)
    (fits : Compatible (e.table.value v 0 0) s) : e.Collapses q v x :=
  ⟨share.size, share.size, fun k u u' here here' =>
    ShapedBase.reduceLike (share.each k u u' here here').1 fits⟩

private theorem gathered_upholds (inside : e.table.coeff v 0 0 = .ok (e.table.value v 0 0))
    (former : e.Upholds q v pz) (share : e.Collapses q v x) :
    ∃ p, e.gathered v pz x = .ok p ∧ e.Upholds q v p := by
  unfold gathered
  rw [inside, ok_bind, share.size, List.range_eq_range']
  refine foldlM_up (P := fun _ => e.Upholds q v) (fun k s low high upholds => ?_) former
  obtain ⟨u, u', here, here', fits⟩ := share.coeff (show k < q by omega)
  obtain ⟨t, t', done, done', next⟩ := upholds.addAt (respected_bothFit _).linear (fun _ => False)
    (show k < q by omega) (bothFit_of_compatible (p := False) fits) fun _ _ => False.elim
  obtain rfl := Except.ok.inj (done.symm.trans done')
  exact ⟨t, bind_eq_ok.2 ⟨u, here, done⟩, next⟩

end Passing

namespace WellShaped

variable {i : Nat} (shaped : e.WellShaped q 1)
include shaped

omit [ShapedBase B] in
private theorem coeff {v : Nat} (inside : v < e.tape.size) :
    e.table.coeff v 0 0 = .ok (e.table.value v 0 0) :=
  shaped.wellFormed.coeff inside

omit [ShapedBase B] in
private theorem series {v : Nat} (inside : v < e.tape.size) :
    e.table.series v q 0 = .ok (.of (e.table.along 0 v) q) :=
  shaped.wellFormed.series inside shaped.orders

omit [ShapedBase B] in
private theorem known {v : Nat} (inside : v < e.tape.size) {s : B}
    (fits : Compatible (e.table.value v 0 0) s) (grade : Nat → Prop) :
    Related q (BothFit s) grade (.of (e.table.along 0 v) q) (.of (e.table.along 0 v) q) :=
  related_of fun k below =>
    bothFit_of_compatible ((shaped.compatible v inside k below 0 Nat.one_pos).trans fits)

private theorem unary_collapses {op : UnaryOp} {a : Nat} {pz : Series B}
    (found : e.tape.entry i = .ok (.unary op a)) (own : e.Upholds q i pz) :
    ∃ pa, op.pullback (.of (e.table.along 0 a) q) (.of (e.table.along 0 i) q) pz (Series.zeros q) =
      .ok pa ∧ e.Collapses q a pa := by
  obtain ⟨x, solves⟩ := shaped.solves
  have fits := solves.compatible_operand found nofun (a := a) (by simp [Entry.operands])
  obtain ⟨pa, pa', done, done', share⟩ := op.pullback_both (respected_bothFit _)
    (respected_bothFit _).linear shaped.positive
    (shaped.known (shaped.wellFormed.tape.operand_lt found (by simp [Entry.operands])) fits _)
    (shaped.known (Tape.lt_size_of_entry found) (.refl _) _) own
  obtain rfl := Except.ok.inj (done.symm.trans done')
  exact ⟨pa, done, collapses_of_related share fits⟩

private theorem binary_collapses {op : BinaryOp} {a b : Nat} {pz : Series B}
    (found : e.tape.entry i = .ok (.binary op a b)) (own : e.Upholds q i pz) :
    ∃ pa pb, op.pullback (.of (e.table.along 0 a) q) (.of (e.table.along 0 b) q)
        (.of (e.table.along 0 i) q) pz (Series.zeros q) (Series.zeros q) = .ok (pa, pb) ∧
      e.Collapses q a pa ∧ e.Collapses q b pb := by
  obtain ⟨x, solves⟩ := shaped.solves
  have fits := solves.compatible_operand found nofun (a := a) (by simp [Entry.operands])
  have fits' := solves.compatible_operand found nofun (a := b) (by simp [Entry.operands])
  obtain ⟨⟨pa, pb⟩, w', done, done', share, share'⟩ := op.pullback_both (f := False) (g := False)
    (respected_bothFit _).linear shaped.positive
    (shaped.known (shaped.wellFormed.tape.operand_lt found (by simp [Entry.operands])) fits _)
    (shaped.known (shaped.wellFormed.tape.operand_lt found (by simp [Entry.operands])) fits' _)
    (shaped.known (Tape.lt_size_of_entry found) (.refl _) _) own
  obtain rfl := Except.ok.inj (done.symm.trans done')
  exact ⟨pa, pb, done, collapses_of_related share fits, collapses_of_related share' fits'⟩

private theorem call_collapses {place n : Nat} {args : List Nat} {pzs : List (Series B)}
    (found : e.tape.entry i = .ok (.call place args n))
    (own : List.Forall₂ (e.Upholds q) (List.range' i n) pzs) {r : Registered B}
    (there : e.tape.atomics[place]? = some r) (ys : List (Series B)) :
    ∃ shares, r.op.reverse (q - 1) (args.map fun a => .of (e.table.along 0 a) q) ys pzs =
      .ok (some shares) ∧ List.Forall₂ (e.Collapses q) args shares := by
  obtain ⟨x, solves⟩ := shaped.solves
  obtain ⟨_, there', builtIn⟩ := shaped.builtIns i place args n found
  obtain rfl := Option.some.inj (there.symm.trans there')
  obtain ⟨b, op, stepped⟩ := solves.call found there builtIn
  obtain ⟨m, rfl⟩ : ∃ m, q = m + 1 := ⟨q - 1, (Nat.sub_add_cancel shaped.positive).symm⟩
  obtain ⟨fs, rfl, given⟩ := exists_of_upholds own
  have each : ∀ k < m + 1, ∃ px,
      b.back ((args.map (e.table.along 0)).map (· 0)) (fs.map (· k)) = .ok px ∧
      List.Forall₂ Compatible px (args.map (e.table.value · 0 0)) := by
    intro k below
    rw [List.map_map]
    exact (b.keepsShapes stepped).back (given k below)
  choose! ps back fits using each
  have count : fs.length = b.count := by
    have lengths := own.length_eq
    rw [List.length_map] at lengths
    rw [← lengths, ← BuiltIn.length_step stepped, List.length_map]
  have done := BuiltIn.reverse_eq _ count back ys
  rw [List.map_map, List.length_map] at done
  refine ⟨_, op ▸ done, List.forall₂_iff_get.2 ⟨by simp, fun j inside room => ?_⟩⟩
  rw [List.get_eq_getElem, List.get_eq_getElem, List.getElem_map, List.getElem_range]
  refine related_of fun k below => ?_
  obtain ⟨lengths, all⟩ := List.forall₂_iff_get.1 (fits k below)
  have there : j < (ps k).length := by
    rw [lengths, List.length_map]
    exact inside
  have own := all j there (lengths ▸ there)
  rw [List.get_eq_getElem, List.get_eq_getElem, List.getElem_map] at own
  rw [List.getElem?_eq_getElem there]
  exact ShapedBase.reduceLike own (.refl _)

private theorem adjoint (idle : B → Bool) :
    e.Adjoint idle q (e.Upholds q) (e.Collapses q) fun _ _ => PUnit.unit where
  zeros v _ := ⟨related_zeros (respected_bothFit _).linear q, rfl⟩
  gather v inside p x former share := by
    obtain ⟨sum, done, upholds⟩ := gathered_upholds (shaped.coeff inside) former share
    exact ⟨sum, done, upholds, rfl⟩
  const _ _ _ := rfl
  skip _ _ _ _ _ := rfl
  unary i op a pz found own _ := by
    obtain ⟨pa, done, share⟩ := shaped.unary_collapses found own
    exact ⟨_, _, pa,
      shaped.series (shaped.wellFormed.tape.operand_lt found (by simp [Entry.operands])),
      shaped.series (Tape.lt_size_of_entry found), done, share, rfl⟩
  binary i op a b pz found own _ := by
    obtain ⟨pa, pb, done, share, share'⟩ := shaped.binary_collapses found own
    exact ⟨_, _, _, pa, pb,
      shaped.series (shaped.wellFormed.tape.operand_lt found (by simp [Entry.operands])),
      shaped.series (shaped.wellFormed.tape.operand_lt found (by simp [Entry.operands])),
      shaped.series (Tape.lt_size_of_entry found), done, share, share', rfl⟩
  call i place args n pzs found own _ := by
    obtain ⟨r, there, _⟩ := shaped.builtIns i place args n found
    obtain ⟨shares, done, all⟩ := shaped.call_collapses found own there
      ((List.range' i n).map fun j => .of (e.table.along 0 j) q)
    have room : i + n ≤ e.tape.size := shaped.wellFormed.tape.span_le found
    have read : args.mapM (fun a => e.table.series a q 0) = .ok _ :=
      mapM_eq_map fun a reads => shaped.series (shaped.wellFormed.tape.operand_lt found reads)
    have read' : (List.range' i n).mapM (fun j => e.table.series j q 0) = .ok _ :=
      mapM_eq_map fun j member => shaped.series (by
        have := List.mem_range'_1.1 member
        omega)
    exact ⟨r, _, _, shares, fetch_eq_ok_iff.2 there, read, read', done, all, rfl⟩

private theorem received {partials : Array (Series B)}
    (carries : e.Carries (e.Upholds q) partials) :
    ∃ px, e.received partials = .ok px ∧ List.Forall₂
      (fun j row => row.length = q ∧ ∀ u ∈ row, SameShape u (e.table.value j 0 0))
      (List.range e.numInputs) px := by
  have : Nonempty B := ⟨Base.zero⟩
  have each : ∀ j, j ∈ List.range e.numInputs → ∃ row,
      (do let x0 ← e.table.coeff j 0 0
          (← fetch partials j).toList.mapM fun p => Base.broadcastLike (Base.reduceLike p x0) x0) =
        .ok row ∧ row.length = q ∧ ∀ u ∈ row, SameShape u (e.table.value j 0 0) := by
    intro j member
    have inside : j < e.tape.size :=
      lt_of_lt_of_le (List.mem_range.1 member) shaped.wellFormed.tape.inputs_le
    obtain ⟨p, there, upholds⟩ := carries.exists_partials inside
    obtain ⟨a, _, rfl, _, fits⟩ := upholds.exists_of Base.zero Base.zero
    have given : ∀ k, k < q → ∃ w, Base.broadcastLike
        (Base.reduceLike (a k) (e.table.value j 0 0)) (e.table.value j 0 0) = .ok w ∧
        SameShape w (e.table.value j 0 0) := fun k below =>
      ShapedBase.broadcastLike (ShapedBase.reduceLike (fits k below).1 (.refl _))
    choose! w done same using given
    refine ⟨(List.range q).map w, ?_, by simp, fun u member => ?_⟩
    · rw [shaped.coeff inside, ok_bind, fetch_eq_ok_iff.2 there, ok_bind, toList_of,
        List.mapM_map]
      exact mapM_eq_map fun k member => done k (List.mem_range.1 member)
    · obtain ⟨k, among, rfl⟩ := List.mem_map.1 member
      exact same k (List.mem_range.1 among)
  choose! row done shapes using each
  refine ⟨_, mapM_eq_map done, ?_⟩
  rw [List.forall₂_map_right_iff, List.forall₂_same]
  exact shapes

/-- A reverse sweep succeeds from weights that are compatible with the outputs. -/
theorem reverse {weights : List (List B)} (accepts : e.AcceptsReverse q weights)
    (fits : List.Forall₂ (fun y w => ∀ u ∈ w, Compatible u (e.table.value y 0 0)) e.outputs
      weights) :
    ∃ px, e.reverse q weights = .ok px ∧ List.Forall₂
      (fun j row => row.length = q ∧ ∀ u ∈ row, SameShape u (e.table.value j 0 0))
      (List.range e.numInputs) px := by
  have shares : List.Forall₂ (fun y w => e.Collapses q y w.toArray) e.outputs weights := by
    refine List.forall₂_iff_get.2 ⟨fits.length_eq, fun j inside room => ?_⟩
    have own := (List.forall₂_iff_get.1 fits).2 j inside room
    have size : (weights.get ⟨j, room⟩).toArray.size = q :=
      accepts.lengths _ (List.getElem_mem room)
    refine ⟨size, size, fun k u _ here _ => ShapedBase.reduceLike (own u ?_) (.refl _)⟩
    exact List.mem_of_getElem? ((List.getElem?_toArray ..).symm.trans here)
  obtain ⟨partials, done, carries, _⟩ :=
    reverseWith_spec shaped.wellFormed (shaped.adjoint Base.isAllZero) accepts shares
  obtain ⟨px, received, shapes⟩ := shaped.received carries
  exact ⟨px, done.trans received, shapes⟩

end WellShaped

/-- Well-shaped calls succeed.  Where the lower orders of the inputs are compatible with the values
of the inputs, a call for the next order along compatible seeds leaves every coefficient compatible
with the value of its variable, and a reverse sweep from weights that are compatible with the outputs
gives partials that have exactly the shapes of the inputs. -/
theorem calls_succeed (recorded : e.RecordedOfBuiltIns) (positive : 0 < q)
    (inputs : ∀ j < e.numInputs, ∀ k < q, ∀ d < e.numDirections,
      Compatible (e.table.value j k d) (e.table.value j 0 0)) :
    (∀ r seeds, e.Accepts q r seeds →
      (∀ seed ∈ seeds, List.Forall₂ (fun j u => Compatible u (e.table.value j 0 0))
        (List.range e.numInputs) seed) →
      ∃ ys e', Evaluator.forward q r seeds e = (.ok ys, e') ∧ e'.tape = e.tape ∧
        e'.numOrders = q + 1 ∧ e'.numDirections = r ∧
        ∀ v < e.tape.size, e'.table.value v 0 0 = e.table.value v 0 0 ∧
          ∀ k < e'.numOrders, ∀ d < e'.numDirections,
            Compatible (e'.table.value v k d) (e.table.value v 0 0)) ∧
    ∀ weights, e.AcceptsReverse q weights →
      List.Forall₂ (fun y w => ∀ u ∈ w, Compatible u (e.table.value y 0 0)) e.outputs weights →
      ∃ px, e.reverse q weights = .ok px ∧ List.Forall₂
        (fun j row => row.length = q ∧ ∀ u ∈ row, SameShape u (e.table.value j 0 0))
        (List.range e.numInputs) px := by
  have first := recorded.recorded.wellFormed.table.directions
  constructor
  · intro r seeds accepts fits
    have shaped := recorded.wellShaped positive accepts.orders le_rfl inputs
    obtain ⟨ys, e', done, advanced, next⟩ := shaped.forward accepts fits
    have directions : e'.numDirections = r := by rw [advanced.directions, if_neg positive.ne']
    refine ⟨ys, e', done, advanced.tape, advanced.orders, directions, fun v inside => ?_⟩
    have same := advanced.low v inside 0 positive 0 (.inl rfl)
    refine ⟨same, fun k below d along => ?_⟩
    rw [← same]
    rw [advanced.orders] at below
    exact next.compatible v (advanced.tape ▸ inside) k below d (directions ▸ along)
  · intro weights accepts fits
    have shaped := recorded.wellShaped (r := 1) positive accepts.orders first
      fun j input k below d along => inputs j input k below d (along.trans_le first)
    exact shaped.reverse accepts fits

/-- The sine of a product of an array and a scalar, along two directions, of which one is written
out as an array, and back from a scalar weight. -/
theorem calls_succeed_sin :
    ∃ (f : Program.Frozen (Value Float)) (e : Evaluator (Value Float)),
      Program.freeze Registry.builtins 7 [.array [1, 2], .scalar 3]
        [.binary .mul 0 1, .unary .sin 2] [3] = .ok f ∧
      (∃ ys, forwardZero [.array [4, 5], .scalar 2] f.evaluator = (.ok ys, e)) ∧
      (∃ ys e', Evaluator.forward 1 2 [[.array [1, 0], .scalar 0], [.scalar 0, .scalar 1]] e =
        (.ok ys, e') ∧ e'.numOrders = 2 ∧ e'.numDirections = 2) ∧
      ∃ px, e.reverse 1 [[.scalar 1]] = .ok px ∧ List.Forall₂
        (fun j row => row.length = 1 ∧ ∀ u ∈ row, SameShape u (e.table.value j 0 0)) [0, 1] px := by
  let tape : Tape (Value Float) := {
    id := 7
    nodes := #[⟨.input, .array [1, 2]⟩, ⟨.input, .scalar 3⟩,
      ⟨.binary .mul 0 1, .array [1 * 3, 2 * 3]⟩,
      ⟨.unary .sin 2, .array [Float.sin (1 * 3), Float.sin (2 * 3)]⟩]
    numInputs := 2
    atomics := #[] }
  have frozen : Program.freeze Registry.builtins 7 [.array [1, 2], .scalar 3]
      [.binary .mul 0 1, .unary .sin 2] [3] =
      .ok ⟨[.array [Float.sin (1 * 3), Float.sin (2 * 3)]], [.binary .mul 0 1, .unary .sin 2],
        .ofTape tape [3]⟩ := rfl
  have start : (Evaluator.ofTape tape [3]).RecordedOfBuiltIns :=
    ⟨_, 7, _, _, [3], _, Registry.builtins_faithful, by simp [Step.Foreign],
      by simp [Step.CallsBuiltIns], frozen, .refl⟩
  obtain ⟨e, point⟩ : ∃ e, forwardZero [.array [4, 5], .scalar 2] (.ofTape tape [3]) =
      (.ok [.array [Float.sin (4 * 2), Float.sin (5 * 2)]], e) := ⟨_, rfl⟩
  have recorded := start.forwardZero point
  have advanced := forwardZero_sound start.recorded.wellFormed point
  have inputs : e.numInputs = 2 := congrArg Tape.numInputs advanced.tape
  have first : e.table.value 0 0 0 = .array [4, 5] :=
    (Option.some.inj ((advanced.holds 0 _ rfl 0 (by decide)).input rfl)).symm
  have written : Compatible (.array [1, 0]) (e.table.value 0 0 0) := by
    rw [first]
    exact Value.compatible_array (by simp)
  obtain ⟨ahead, back⟩ := calls_succeed (q := 1) recorded Nat.one_pos fun j _ k below d _ => by
    obtain rfl := Nat.lt_one_iff.1 below
    exact .refl _
  obtain ⟨ys, e', done, _, orders, directions, _⟩ :=
    ahead 2 [[.array [1, 0], .scalar 0], [.scalar 0, .scalar 1]]
      ⟨by decide, rfl, by simp [inputs], by simp, advanced.orders.ge, by simp⟩ (by
      rw [inputs]
      intro seed member
      rcases List.mem_pair.1 member with rfl | rfl
      · exact .cons written (.cons (Value.compatible_scalar _ _) .nil)
      · exact .cons (Value.compatible_scalar _ _) (.cons (Value.compatible_scalar _ _) .nil))
  obtain ⟨px, received, shapes⟩ := back [[.scalar 1]]
    ⟨by decide, advanced.orders.ge, by simp, by rw [numOutputs, advanced.outputs]; rfl, by simp⟩ (by
      rw [advanced.outputs]
      exact .cons (fun u member => List.mem_singleton.1 member ▸ Value.compatible_scalar _ _) .nil)
  rw [inputs] at shapes
  exact ⟨_, e, frozen, ⟨_, point⟩, ⟨ys, e', done, orders, directions⟩, px, received, shapes⟩

end Evaluator

end TaylorTape
