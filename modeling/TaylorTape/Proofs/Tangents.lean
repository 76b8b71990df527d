import TaylorTape.Proofs.Arrays
import TaylorTape.Proofs.Frozen
import TaylorTape.Proofs.Slopes

/-!
Directions at a point, over scalars and arrays.

After an order-zero sweep the tape is solved by the values of its variables.  From there a sweep of
order one succeeds along every direction whose parts are scalars or have the shapes of the inputs,
and it leaves a coefficient of order one that fits its value with every variable.
-/

set_option autoImplicit false
set_option relaxedAutoImplicit false

namespace TaylorTape

open Value

section Shapes

variable {F : Type} [Scalar F] {op : BinaryOp} {u v w : Value F}

theorem BinaryOp.fits_of_eval (done : op.eval u v = .ok w) : u.Fits w ∧ v.Fits w := by
  cases op with
  | add | sub | mul | div => exact fits_of_zipWith done

theorem BinaryOp.sameShape_of_eval (done : op.eval u v = .ok w) :
    u.SameShape w ∨ v.SameShape w := by
  cases op with
  | add | sub | mul | div => exact sameShape_of_zipWith done

end Shapes

variable {F : Type} [ExactScalar F]

namespace Tape

variable {tape : Tape (Value F)} {x dx : List (Value F)} {c d : Nat → Value F} {i : Nat}

/-- The values of order zero and of order one as coefficients of variables. -/
def line (c d : Nat → Value F) (v : Nat) : Nat → Value F
  | 0 => c v
  | _ + 1 => d v

/-- The coefficients of order one along a direction, where the tape is solved by some values. -/
structure Tangent (tape : Tape (Value F)) (c : Nat → Value F) (dx : List (Value F))
    (d : Nat → Value F) : Prop where
  fits : ∀ v < tape.size, (d v).Fits (c v)
  holds : ∀ i < tape.size, tape.Holds 1 dx (line c d) i

namespace Solves

theorem inputs_eq (solves : tape.Solves x c) (wf : tape.WellFormed)
    (arity : x.length = tape.numInputs) : x = (List.range tape.numInputs).map c := by
  apply eq_map_range arity
  intro j input
  have inside : j < tape.size := input.trans_le wf.inputs_le
  obtain ⟨entry, found⟩ := exists_entry inside
  obtain rfl := (wf.inputs j entry found).2 input
  exact (solves j inside).input found

/-- From fitting coefficients of what it reads an entry yields fitting ones of order one. -/
private theorem yields_one (wf : tape.WellFormed) (builtIns : tape.OnlyBuiltIns)
    (solves : tape.Solves x c) (fits : List.Forall₂ Value.Fits dx x) (inside : i < tape.size)
    {c' : Nat → Nat → Value F} (low : ∀ v < tape.size, c' v 0 = c v)
    (before : ∀ v, tape.Produced i v → (c' v 1).Fits (c v)) :
    ∃ us, tape.Yields 1 dx c' i us ∧ ∀ r (u : Value F), us[r]? = some u → u.Fits (c (i + r)) := by
  have single : ∀ {w : Value F}, w.Fits (c i) →
      ∀ r (u : Value F), [w][r]? = some u → u.Fits (c (i + r)) := by
    intro w fits r u found
    obtain ⟨here, rfl⟩ := List.getElem?_eq_some_iff.1 found
    obtain rfl : r = 0 := Nat.lt_one_iff.1 here
    exact fits
  obtain ⟨⟨entry, value⟩, node⟩ := exists_node inside
  have found := entry_of_node node
  have operand : ∀ a ∈ entry.operands, c' a 0 = c a ∧ (c' a 1).Fits (c a) := fun a reads =>
    have made := wf.produced_operand found reads
    ⟨low a (wf.lt_of_produced made), before a made⟩
  cases entry with
  | input =>
    have point := (solves i inside).input found
    have room : i < dx.length := fits.length_eq ▸ (List.getElem?_eq_some_iff.1 point).1
    refine ⟨[dx[i]], ⟨_, node, dx[i], List.getElem?_eq_getElem room, rfl⟩, single ?_⟩
    obtain ⟨room', same⟩ := List.getElem?_eq_some_iff.1 point
    rw [← show x[i] = c i from same]
    exact (List.forall₂_iff_get.1 fits).2 i room room'
  | const => exact ⟨[.scalar 0], ⟨_, node, rfl⟩, single (.scalar 0 _)⟩
  | unary op a =>
    obtain ⟨first, last⟩ := operand a (by simp [Entry.operands])
    have start : c' i 0 = op.eval (c' a 0) := by rw [low i inside, first, solves.unary found]
    obtain ⟨w, next, stands⟩ := op.next_one start (first ▸ last)
    have shape : (c i).SameShape (c a) := solves.unary found ▸ SameShape.map _ _
    exact ⟨[w], ⟨_, node, w, next, rfl⟩, single ((first ▸ stands.fits).trans shape.symm.fits)⟩
  | binary op a b =>
    obtain ⟨first, last⟩ := operand a (by simp [Entry.operands])
    obtain ⟨first', last'⟩ := operand b (by simp [Entry.operands])
    obtain ⟨left, right⟩ := BinaryOp.fits_of_eval (solves.binary found)
    have own := low i inside
    rw [← own, ← first] at left
    rw [← own, ← first'] at right
    obtain ⟨w, next, stands⟩ := op.next_one left right (first ▸ last) (first' ▸ last')
    exact ⟨[w], ⟨_, node, w, next, rfl⟩, single (own ▸ stands.fits)⟩
  | call place args n =>
    obtain ⟨r, there, builtIn⟩ := builtIns i place args n found
    obtain ⟨b, op, stepped⟩ := solves.call found there builtIn
    have along : List.Forall₂ Value.Fits (args.map (c' · 1)) (args.map c) := by
      rw [List.forall₂_map_left_iff, List.forall₂_map_right_iff, List.forall₂_same]
      exact fun a reads => (operand a reads).2
    obtain ⟨dy, done, fits', _⟩ := b.transposes stepped _ along
    have first : args.map (c' · 0) = args.map c :=
      List.map_congr_left fun a reads => (operand a reads).1
    refine ⟨dy, ⟨_, node, fun r' there' _ => ⟨b, ?_, first ▸ done⟩⟩, fun k u at_k => ?_⟩
    · obtain rfl : r = r' := Option.some.inj (there.symm.trans there')
      exact op
    · obtain ⟨room, rfl⟩ := List.getElem?_eq_some_iff.1 at_k
      rw [List.forall₂_map_right_iff, List.forall₂_iff_get] at fits'
      have each := fits'.2 k room (fits'.1 ▸ room)
      rwa [List.get_eq_getElem, List.get_eq_getElem, List.getElem_range', Nat.one_mul] at each
  | result owner => exact ⟨[], ⟨_, node, rfl⟩, by simp⟩

end Solves

end Tape

namespace Evaluator

variable {e : Evaluator (Value F)} {x dx ys : List (Value F)} {c : Nat → Value F}

/-- The evaluator stands at a point: its values of order zero solve the tape there. -/
structure AtPoint (e : Evaluator (Value F)) (x : List (Value F)) (c : Nat → Value F) : Prop where
  wellFormed : e.WellFormed
  builtIns : e.tape.OnlyBuiltIns
  orders : 1 ≤ e.numOrders
  arity : x.length = e.numInputs
  solves : e.tape.Solves x c
  values : ∀ v < e.tape.size, e.table.value v 0 0 = c v

theorem AtPoint.inputs_eq (here : e.AtPoint x c) : x = (List.range e.numInputs).map c :=
  here.solves.inputs_eq here.wellFormed.tape here.arity

/-- An order-zero sweep that succeeds leads to its point. -/
theorem atPoint_of_forwardZero {e' : Evaluator (Value F)} (wf : e.WellFormed)
    (builtIns : e.tape.OnlyBuiltIns) (done : forwardZero x e = (.ok ys, e')) :
    ∃ c, e'.AtPoint x c ∧ e'.tape = e.tape ∧ e'.outputs = e.outputs ∧ ys = e.outputs.map c := by
  have advanced := forwardZero_sound wf done
  have tape := advanced.tape
  refine ⟨fun v => e'.table.value v 0 0, ?_, tape, advanced.outputs,
    List.singleton_inj.1 advanced.answer⟩
  refine ⟨advanced.wellFormed, tape ▸ builtIns, advanced.orders.ge, ?_, ?_, fun _ _ => rfl⟩
  · have count := advanced.accepted.lengths x (List.mem_singleton_self x)
    exact count.trans (congrArg Tape.numInputs tape).symm
  · intro i inside
    rw [tape] at inside ⊢
    refine (advanced.holds 0 x rfl i inside).congr wf.tape fun v _ k low => ?_
    obtain rfl := Nat.le_zero.1 low
    rfl

/-- From a point a sweep of order one succeeds along every direction that fits the inputs. -/
theorem AtPoint.forwardOne (here : e.AtPoint x c) (fits : List.Forall₂ Value.Fits dx x) :
    ∃ e' d, forwardOne dx e = (.ok (e.outputs.map d), e') ∧ e'.AtPoint x c ∧ e'.tape = e.tape ∧
      e'.outputs = e.outputs ∧ e.tape.Tangent c dx d := by
  have wf := here.wellFormed
  have accepts : e.Accepts 1 1 [dx] := {
    positive := Nat.one_ne_zero
    count := rfl
    lengths := fun seed member => by
      obtain rfl := List.mem_singleton.1 member
      exact fits.length_eq.trans here.arity
    point := fun _ => rfl
    orders := here.orders
    directions := fun higher => absurd higher (lt_irrefl 1) }
  obtain ⟨ys, e', done, advanced, good⟩ := forward_total wf here.builtIns accepts
    (fun _ v u => u.Fits (c v)) fun d seed found i inside c' low before => by
      obtain rfl : dx = seed := (List.mem_singleton.1 (List.mem_of_getElem? found)).symm
      refine here.solves.yields_one wf.tape here.builtIns fits inside (fun v var => ?_) before
      rw [low v var 0 Nat.one_pos]
      exact here.values v var
  have values : ∀ v < e.tape.size, e'.table.value v 0 0 = c v := fun v var =>
    (advanced.low v var 0 Nat.one_pos 0 (.inl rfl)).trans (here.values v var)
  refine ⟨e', fun v => e'.table.value v 1 0, ?_, ?_, advanced.tape, advanced.outputs, ?_, ?_⟩
  · unfold Evaluator.forwardOne
    rw [run_bind_ok done, run_lift, advanced.answer]
    rfl
  · refine ⟨advanced.wellFormed, advanced.tape ▸ here.builtIns, ?_, ?_, advanced.tape ▸ here.solves,
      advanced.tape ▸ values⟩
    · rw [advanced.orders]
      omega
    · exact here.arity.trans (congrArg Tape.numInputs advanced.tape).symm
  · exact fun v var => good 0 Nat.one_pos v var
  · intro i inside
    refine (advanced.holds 0 dx rfl i inside).congr wf.tape fun v made k low => ?_
    match k with
    | 0 => exact values v (wf.tape.lt_of_produced made)
    | 1 => rfl
    | k + 2 => omega

end Evaluator

end TaylorTape
