import TaylorTape.Proofs.Abreast
import TaylorTape.Proofs.Images
import TaylorTape.Proofs.Shares
import TaylorTape.Proofs.Zeros

/-!
A reverse sweep beside one that leaves nothing out, over another base.

The two tapes have the same elementary entries.  Their coefficients are related, and so are the
partials of each variable, by relations that what is done with partials keeps.  An entry whose
partials are all zero is left out in the first sweep.  In the second sweep it may pass something on,
but that is related to zeros, because this is what the first sweep would have passed on.
-/

set_option autoImplicit false
set_option relaxedAutoImplicit false

namespace TaylorTape

open Series

section Zeros

variable {F : Type} [ExactScalar F]

/-- A base over which elements that are combined to zero make zeros. -/
class NullBase (B : Type) [Base B F] : Prop where
  map : ∀ {h : F → F} {u : B}, Base.isAllZero u = true → h 0 = 0 →
    Base.isAllZero (Base.map h u) = true
  zipWith : ∀ {context : String} {h : F → F → F} {u v w : B},
    Base.zipWith context h u v = .ok w →
    (∀ x ∈ Base.toList u, ∀ y ∈ Base.toList v, h x y = 0) → Base.isAllZero w = true

theorem isAllZero_iff_zero {B : Type} [Base B F] {u : B} :
    Base.isAllZero u = true ↔ ∀ x ∈ Base.toList u, x = 0 := by
  simp only [isAllZero_iff, ExactScalar.beq_iff]

instance : NullBase F where
  map zero kept := by
    rw [isAllZero_iff_zero] at zero ⊢
    obtain rfl := zero _ (List.mem_singleton_self _)
    exact List.forall_mem_singleton.2 kept
  zipWith {_ h u v w} done null := by
    obtain rfl : h u v = w := Except.ok.inj done
    exact isAllZero_iff_zero.2 (List.forall_mem_singleton.2
      (null u (List.mem_singleton_self u) v (List.mem_singleton_self v)))

instance : NullBase (Value F) where
  map {h u} zero kept := by
    rw [isAllZero_iff_zero] at zero ⊢
    cases u with
    | scalar x =>
      obtain rfl := zero x (List.mem_singleton_self x)
      exact List.forall_mem_singleton.2 kept
    | array xs =>
      intro z member
      obtain ⟨x, inside, rfl⟩ := List.mem_map.1 member
      rw [zero x inside, kept]
  zipWith done null := isAllZero_iff_zero.2 fun z member => by
    obtain ⟨x, inside, y, inside', rfl⟩ := Value.exists_of_mem_zipWith done member
    exact null x inside y inside'

variable {B B' : Type} [Base B F] [Base B' F] [NullBase B] [ZeroBase B]
  {C P : Prop → B → B' → Prop}

private theorem Linear.null (linear : Linear C P) :
    Linear C fun p u u' => P p u u' ∧ Base.isAllZero u = true := by
  have zipped : ∀ {p : Prop} {context : String} {h : F → F → F} {u v : B} {x : Except Error B'},
      Both (P p) (Base.zipWith context h u v) x →
      (∀ a ∈ Base.toList u, ∀ b ∈ Base.toList v, h a b = 0) →
      Both (fun u u' => P p u u' ∧ Base.isAllZero u = true) (Base.zipWith context h u v) x := by
    rintro p context h u v x ⟨w, w', done, rfl, related⟩ null
    exact ⟨w, w', done, rfl, related, NullBase.zipWith done null⟩
  exact {
    weaken := fun related less => ⟨linear.weaken related.1 less, related.2⟩
    zero := ⟨linear.zero, LawfulZero.zero⟩
    negate := fun related => ⟨linear.negate related.1, NullBase.map related.2 neg_zero⟩
    scale := fun x related => ⟨linear.scale x related.1, NullBase.map related.2 (zero_mul x)⟩
    add := fun left right => zipped (linear.add left.1 right.1) fun a inside b inside' => by
      rw [isAllZero_iff_zero.1 left.2 a inside, isAllZero_iff_zero.1 right.2 b inside', add_zero]
    sub := fun left right => zipped (linear.sub left.1 right.1) fun a inside b inside' => by
      rw [isAllZero_iff_zero.1 left.2 a inside, isAllZero_iff_zero.1 right.2 b inside', sub_zero]
    mul := fun left right => zipped (linear.mul left.1 right) fun a inside b _ => by
      rw [isAllZero_iff_zero.1 left.2 a inside, zero_mul]
    mul' := fun left right => zipped (linear.mul' left right.1) fun a _ b inside => by
      rw [isAllZero_iff_zero.1 right.2 b inside, mul_zero]
    div := fun left right => zipped (linear.div left.1 right) fun a inside b _ => by
      rw [isAllZero_iff_zero.1 left.2 a inside, zero_div] }

end Zeros

namespace Evaluator

variable {B B' F : Type} [ExactScalar F] [Base B F] [Base B' F] {C P : Nat → B → B' → Prop}
  {q i : Nat} {e : Evaluator B} {e' : Evaluator B'}

/-- Two evaluators whose tapes have the same elementary entries, with related coefficients, and a
way to relate the partials of each variable. -/
structure Companions (C P : Nat → B → B' → Prop) (q : Nat) (e : Evaluator B) (e' : Evaluator B') :
    Prop where
  positive : 0 < q
  left : e.WellFormed
  right : e'.WellFormed
  elementary : ∀ i entry, e.tape.entry i = .ok entry → entry.Elementary
  size : e'.tape.size = e.tape.size
  entries : ∀ i, e'.tape.entry i = e.tape.entry i
  orders : q ≤ e.numOrders
  orders' : q ≤ e'.numOrders
  respected : ∀ v, Respected fun _ => C v
  linear : ∀ v, Linear (fun _ => C v) fun _ => P v
  coefficient : ∀ v < e.tape.size, ∀ k < q, C v (e.table.value v k 0) (e'.table.value v k 0)
  /-- What is read has the shape of the entry that reads it. -/
  operand : ∀ i entry, e.tape.entry i = .ok entry → ∀ a ∈ entry.operands, ∀ u u',
    C a u u' → C i u u'
  /-- What is passed on is collapsed onto the shape of the operand. -/
  collapse : ∀ i entry, e.tape.entry i = .ok entry → ∀ a ∈ entry.operands, ∀ u u', P i u u' →
    P a (Base.reduceLike u (e.table.value a 0 0)) (Base.reduceLike u' (e'.table.value a 0 0))
  /-- What is related to zeros adds nothing. -/
  dull : ∀ v u u' x x', P v u u' → P v x x' → Base.isAllZero x = true →
    ∃ w', Base.add u' x' = .ok w' ∧ P v u w'

/-- Partials of a variable that are related. -/
def Pairs (P : Nat → B → B' → Prop) (q v : Nat) (p : Series B) (p' : Series B') : Prop :=
  Related q (fun _ => P v) (fun _ => False) p p'

/-- What is passed on to a variable in two sweeps and related on its shape. -/
def Passes (e : Evaluator B) (e' : Evaluator B') (P : Nat → B → B' → Prop) (q v : Nat)
    (x : Series B) (x' : Series B') : Prop :=
  Related q (fun _ u u' => P v (Base.reduceLike u (e.table.value v 0 0))
    (Base.reduceLike u' (e'.table.value v 0 0))) (fun _ => False) x x'

/-- Partials that are related, the first of which are all zero. -/
def Dull (P : Nat → B → B' → Prop) (v : Nat) (u : B) (u' : B') : Prop :=
  P v u u' ∧ Base.isAllZero u = true

namespace Companions

private theorem coeff (companions : Companions C P q e e') {v : Nat} (inside : v < e.tape.size) :
    e.table.coeff v 0 0 = .ok (e.table.value v 0 0) :=
  companions.left.coeff inside

private theorem coeff' (companions : Companions C P q e e') {v : Nat} (inside : v < e.tape.size) :
    e'.table.coeff v 0 0 = .ok (e'.table.value v 0 0) :=
  companions.right.coeff (companions.size ▸ inside)

private theorem series (companions : Companions C P q e e') {v : Nat} (inside : v < e.tape.size) :
    e.table.series v q 0 = .ok (.of (e.table.along 0 v) q) :=
  companions.left.series inside companions.orders

private theorem series' (companions : Companions C P q e e') {v : Nat} (inside : v < e.tape.size) :
    e'.table.series v q 0 = .ok (.of (e'.table.along 0 v) q) :=
  companions.right.series (companions.size ▸ inside) companions.orders'

variable (companions : Companions C P q e e')
include companions

private theorem gather {v : Nat} (inside : v < e.tape.size) {p x : Series B} {p' x' : Series B'}
    (pairs : Pairs P q v p p') (share : Passes e e' P q v x x') :
    Both (Pairs P q v) (e.gathered v p x) (e'.gathered v p' x') :=
  gathered_related (companions.coeff inside) (companions.coeff' inside) pairs (companions.linear v)
    share

private theorem gather_right {v : Nat} (inside : v < e.tape.size) {p x : Series B}
    {p' x' : Series B'} (pairs : Pairs P q v p p') (share : Passes e e' (Dull P) q v x x') :
    ∃ r, e'.gathered v p' x' = .ok r ∧ Pairs P q v p r :=
  gathered_right (companions.coeff' inside) pairs
    (fun u u' y y' own zeros => companions.dull v u u' y y' own zeros.1 zeros.2) share

/-- What an entry passes on in both sweeps. -/
private theorem pass {Q : Nat → B → B' → Prop} (linear : Linear (fun _ => C i) fun _ => Q i)
    (collapse : ∀ entry, e.tape.entry i = .ok entry → ∀ a ∈ entry.operands, ∀ u u', Q i u u' →
      Q a (Base.reduceLike u (e.table.value a 0 0)) (Base.reduceLike u' (e'.table.value a 0 0)))
    {entry : Entry} (found : e.tape.entry i = .ok entry) {own : List (Series B)}
    {own' : List (Series B')} (all : AllThree (Pairs Q q) (List.range' i entry.span) own own') :
    Both (AllThree (Passes e e' Q q) entry.operands) (e.passed q i entry own)
      (e'.passed q i entry own') := by
  have inside := Tape.lt_size_of_entry found
  have below : ∀ a ∈ entry.operands, a < e.tape.size := fun a reads =>
    companions.left.tape.operand_lt found reads
  have read : ∀ a ∈ entry.operands, ∀ grade, Related q (fun _ => C i) grade
      (.of (e.table.along 0 a) q) (.of (e'.table.along 0 a) q) := fun a reads grade =>
    related_of fun k low => companions.operand i entry found a reads _ _
      (companions.coefficient a (below a reads) k low)
  have known : ∀ grade, Related q (fun _ => C i) grade (.of (e.table.along 0 i) q)
      (.of (e'.table.along 0 i) q) := fun grade =>
    related_of fun k low => companions.coefficient i inside k low
  have passes : ∀ {grade : Nat → Prop} {a x x'}, a ∈ entry.operands →
      Related q (fun _ => Q i) grade x x' → Passes e e' Q q a x x' := fun reads related =>
    ⟨related.size, related.size', fun k u u' here here' =>
      collapse entry found _ reads u u' (related.each k u u' here here')⟩
  cases entry with
  | input | const => exact .ok .nil
  | unary op a =>
    have left := below a (by simp [Entry.operands])
    cases all with
    | cons head tail =>
      cases tail
      simp only [passed, companions.series left, companions.series' left, companions.series inside,
        companions.series' inside, ok_bind]
      apply ((op.pullback_both (companions.respected i) linear companions.positive
        (read a (by simp [Entry.operands]) _) (known _) head).mapError _ _).bind
      intro x x' share
      exact .ok (.single (passes (by simp [Entry.operands]) share))
  | binary op a b =>
    have left := below a (by simp [Entry.operands])
    have right := below b (by simp [Entry.operands])
    cases all with
    | cons head tail =>
      cases tail
      simp only [passed, companions.series left, companions.series' left, companions.series right,
        companions.series' right, companions.series inside, companions.series' inside, ok_bind]
      apply ((op.pullback_both (f := False) (g := False) linear companions.positive
        (read a (by simp [Entry.operands]) _) (read b (by simp [Entry.operands]) _) (known _)
        head).mapError _ _).bind
      rintro ⟨x, y⟩ ⟨x', y'⟩ ⟨share, share'⟩
      exact .ok (.cons (passes (by simp [Entry.operands]) share)
        (.single (passes (by simp [Entry.operands]) share')))
  | call | result => exact absurd (companions.elementary i _ found) id

private theorem busy {entry : Entry} (found : e.tape.entry i = .ok entry) {own : List (Series B)}
    {own' : List (Series B')} (all : AllThree (Pairs P q) (List.range' i entry.span) own own') :
    own'.all (·.all fun _ => false) = false := by
  have span : entry.span = 1 := by
    cases entry with
    | input | const | unary | binary => rfl
    | call | result => exact absurd (companions.elementary i _ found) id
  rw [span, List.range'_one] at all
  cases all with
  | cons head tail =>
    rw [List.all_cons, Bool.and_eq_false_iff]
    exact .inl (Array.all_eq_false.2 ⟨0, head.size'.symm ▸ companions.positive, Bool.false_ne_true⟩)

variable [NullBase B] [ZeroBase B]

private theorem pass_right {entry : Entry} (found : e.tape.entry i = .ok entry)
    {own : List (Series B)}
    {own' : List (Series B')} (all : AllThree (Pairs P q) (List.range' i entry.span) own own')
    (idles : own.all (·.all Base.isAllZero) = true) :
    ∃ xs', e'.passed q i entry own' = .ok xs' ∧
      List.Forall₂ (fun v x' => ∃ x, Passes e e' (Dull P) q v x x') entry.operands xs' := by
  have dull : AllThree (Pairs (Dull P) q) (List.range' i entry.span) own own' := by
    refine allThree_of_get all.length_eq.1.symm all.length_eq.2.symm
      fun j v p p' at_j here here' => ?_
    obtain ⟨_, _, there, there', pairs⟩ := all.get at_j
    obtain rfl := Option.some.inj (there.symm.trans here)
    obtain rfl := Option.some.inj (there'.symm.trans here')
    refine ⟨pairs.size, pairs.size', fun k u u' read read' => ⟨pairs.each k u u' read read', ?_⟩⟩
    obtain ⟨room, rfl⟩ := Array.getElem?_eq_some_iff.1 read
    exact Array.all_eq_true.1 (List.all_eq_true.1 idles _ (List.mem_of_getElem? here)) k room
  obtain ⟨xs, xs', _, done', shares⟩ := companions.pass (companions.linear i).null
    (fun entry found a reads u u' both => ⟨companions.collapse i entry found a reads u u' both.1,
      ZeroBase.reduceLike u _ both.2⟩) found dull
  exact ⟨xs', done', shares.forall₂_right⟩

private theorem abreast :
    Abreast e e' Base.isAllZero (fun _ => false) q (Pairs P q) (Passes e e' P q)
    (fun _ _ => False) fun v x' => ∃ x, Passes e e' (Dull P) q v x x' where
  wellFormed := companions.left.tape
  wellFormed' := companions.right.tape
  size := companions.size
  entries := companions.entries
  zeros v _ := related_zeros (companions.linear v) q
  gather _ inside _ _ _ _ _ pairs share := companions.gather inside pairs share
  gather_left _ _ _ _ _ _ _ := False.elim
  gather_right _ inside _ _ _ _ pairs share :=
    share.elim fun _ share => companions.gather_right inside pairs share
  pass i _ _ _ found all _ _ := companions.pass (companions.linear i)
    (fun entry found a reads u u' => companions.collapse i entry found a reads u u') found all
  pass_left _ _ _ _ found all _ idles :=
    absurd ((companions.busy found all).symm.trans idles) Bool.false_ne_true
  pass_right _ _ _ _ found all idles _ := companions.pass_right found all idles

/-- Sweeps from related weights give what the partials of the inputs are delivered as. -/
theorem reverse (outputs : e'.outputs = e.outputs) (inputs : e'.numInputs = e.numInputs)
    {weights : List (List B)} {weights' : List (List B')} (accepts : e.AcceptsReverse q weights)
    (accepts' : e'.AcceptsReverse q weights')
    (shares : AllThree (Passes e e' P q) e.outputs (weights.map List.toArray)
      (weights'.map List.toArray)) {O : Nat → B → B' → Prop}
    (deliver : ∀ j < e.numInputs, ∀ u u', P j u u' → Both (O j)
      (Base.broadcastLike (Base.reduceLike u (e.table.value j 0 0)) (e.table.value j 0 0))
      (Base.broadcastLike (Base.reduceLike u' (e'.table.value j 0 0)) (e'.table.value j 0 0))) :
    ∃ (z : Nat → Nat → B) (z' : Nat → Nat → B'), e.reverse q weights =
        .ok ((List.range e.numInputs).map fun j => (List.range q).map (z j)) ∧
      e'.reverseWith (fun _ => false) q weights' =
        .ok ((List.range e.numInputs).map fun j => (List.range q).map (z' j)) ∧
      ∀ j < e.numInputs, ∀ k < q, O j (z j k) (z' j k) := by
  obtain ⟨rows, rows', done, done', all⟩ := companions.abreast.reverseWith outputs
    companions.left.outputs inputs accepts accepts' shares
    (O := fun j row row' => ∃ z z', row = (List.range q).map z ∧ row' = (List.range q).map z' ∧
      ∀ k < q, O j (z k) (z' k))
    fun j input p p' pairs => by
      have inside := input.trans_le companions.left.tape.inputs_le
      obtain ⟨z, z', done, done', out⟩ := delivered_related (companions.coeff inside)
        (companions.coeff' inside) pairs (deliver j input)
      exact ⟨_, _, done, done', z, z', rfl, rfl, out⟩
  have each : ∀ j < e.numInputs, ∃ z z', rows[j]? = some ((List.range q).map z) ∧
      rows'[j]? = some ((List.range q).map z') ∧ ∀ k < q, O j (z k) (z' k) := fun j input => by
    obtain ⟨_, _, there, there', z, z', rfl, rfl, out⟩ := all.get (List.getElem?_range input)
    exact ⟨z, z', there, there', out⟩
  have : Nonempty (Nat → B) := ⟨fun _ => Base.zero⟩
  have : Nonempty (Nat → B') := ⟨fun _ => Base.zero⟩
  choose! z z' there there' out using each
  obtain ⟨count, count'⟩ := all.length_eq
  rw [List.length_range] at count count'
  refine ⟨z, z', ?_, ?_, out⟩
  · rw [Evaluator.reverse, done, eq_map_range count.symm there]
  · rw [done', eq_map_range count'.symm there']

end Companions

end Evaluator

end TaylorTape
