import TaylorTape.Proofs.Carried
import TaylorTape.Proofs.History
import TaylorTape.Proofs.Tangents

/-!
The shapes of the coefficients of all orders.

The value that an entry has at order zero gives its shape.  If the coefficients of the inputs are
scalars or have the shapes of the inputs, then so are those of every other entry, at every order that
holds.
-/

set_option autoImplicit false
set_option relaxedAutoImplicit false

namespace TaylorTape

open Value Series

variable {F : Type} [ExactScalar F]

namespace Tape

variable {tape : Tape (Value F)} {seed : Nat → List (Value F)} {c : Nat → Nat → Value F} {q i : Nat}

private theorem fits_unary {op : UnaryOp} {a k : Nat} (solves : tape.Solves (seed 0) (c · 0))
    (found : tape.entry i = .ok (.unary op a)) (holds : tape.Holds k (seed k) c i)
    (arg : ∀ j ≤ k, (c a j).Fits (c a 0)) (own : ∀ j < k, (c i j).Fits (c i 0)) :
    (c i k).Fits (c i 0) := by
  have shape : (c i 0).SameShape (c a 0) := solves.unary found ▸ SameShape.map _ _
  have args : Related (k + 1) ((c i 0).Carried False False) (fun _ => False) (.of (c a) (k + 1))
      (.of (c a) (k + 1)) :=
    related_of fun j low => carried_of_fits ((arg j (by omega)).trans shape.symm.fits)
  obtain ⟨w, _, next, _, carried⟩ :=
    op.next_both (respected (c i 0)) args (related_of fun j low => carried_of_fits (own j low))
  obtain rfl := Except.ok.inj (next.symm.trans (holds.next_unary found))
  exact carried.left

private theorem fits_binary {op : BinaryOp} {a b k : Nat} (solves : tape.Solves (seed 0) (c · 0))
    (found : tape.entry i = .ok (.binary op a b)) (holds : tape.Holds k (seed k) c i)
    (left : ∀ j ≤ k, (c a j).Fits (c a 0)) (right : ∀ j ≤ k, (c b j).Fits (c b 0))
    (own : ∀ j < k, (c i j).Fits (c i 0)) : (c i k).Fits (c i 0) := by
  obtain ⟨shape, shape'⟩ := BinaryOp.fits_of_eval (solves.binary found)
  have args : ∀ {a : Nat}, (c a 0).Fits (c i 0) → (∀ j ≤ k, (c a j).Fits (c a 0)) →
      Related (k + 1) ((c i 0).Carried False False) (fun _ => False) (.of (c a) (k + 1))
        (.of (c a) (k + 1)) := fun shape fits =>
    related_of fun j low => carried_of_fits ((fits j (by omega)).trans shape)
  obtain ⟨w, _, next, _, carried⟩ := op.next_both (respected (c i 0)) (args shape left)
    (args shape' right) (related_of fun j low => carried_of_fits (own j low))
  obtain rfl := Except.ok.inj (next.symm.trans (holds.next_binary found))
  exact carried.left

/-- Where the coefficients of the inputs fit their values, those of all variables do. -/
private theorem fits_of_holds (wf : tape.WellFormed) (builtIns : tape.OnlyBuiltIns)
    (positive : 0 < q) (holds : ∀ k < q, ∀ i < tape.size, tape.Holds k (seed k) c i)
    (inputs : ∀ j < tape.numInputs, ∀ k < q, (c j k).Fits (c j 0)) :
    ∀ v < tape.size, ∀ k < q, (c v k).Fits (c v 0) := by
  have solves := solves_of_holds seed wf positive holds
  refine wf.induction fun i entry found operand v low high => ?_
  have inside := lt_size_of_entry found
  have single : entry.span = 1 → v = i := fun one => by omega
  cases entry with
  | input =>
    obtain rfl := single rfl
    exact inputs v ((wf.inputs v _ found).1 rfl)
  | const =>
    obtain rfl := single rfl
    intro k below
    obtain ⟨value, node⟩ := entry_eq_ok.1 found
    have own := (holds k below v inside).const node
    by_cases zero : k = 0
    · subst zero
      exact (SameShape.refl _).fits
    · rw [own, if_neg zero]
      exact .scalar 0 _
  | unary op a =>
    obtain rfl := single rfl
    intro k
    induction k using Nat.strongRecOn with
    | ind k rest =>
      intro below
      exact fits_unary solves found (holds k below v inside)
        (fun j low => operand a (by simp [Entry.operands]) j (by omega))
        fun j low => rest j low (by omega)
  | binary op a b =>
    obtain rfl := single rfl
    intro k
    induction k using Nat.strongRecOn with
    | ind k rest =>
      intro below
      exact fits_binary solves found (holds k below v inside)
        (fun j low => operand a (by simp [Entry.operands]) j (by omega))
        (fun j low => operand b (by simp [Entry.operands]) j (by omega))
        fun j low => rest j low (by omega)
  | call place args n =>
    intro k below
    obtain ⟨r, there, builtIn⟩ := builtIns i place args n found
    obtain ⟨b, op, stepped⟩ := solves.call found there builtIn
    obtain ⟨b', op', stepped'⟩ := (holds k below i inside).step found there builtIn
    have along := BuiltIn.step_of_atomic_eq (op'.symm.trans op) (by simp) stepped'
    have fits : List.Forall₂ Value.Fits (args.map (c · k)) (args.map (c · 0)) := by
      rw [List.forall₂_map_left_iff, List.forall₂_map_right_iff, List.forall₂_same]
      exact fun a reads => operand a reads k below
    obtain ⟨dy, done, fits', _⟩ := b.transposes stepped _ fits
    obtain rfl := Except.ok.inj (along.symm.trans done)
    rw [List.forall₂_map_left_iff, List.forall₂_map_right_iff, List.forall₂_same] at fits'
    exact fits' v (List.mem_range'_1.2 ⟨low, high⟩)
  | result owner =>
    have : v < i + 0 := high
    omega

end Tape

namespace Evaluator

/-- The value of a variable at order zero, which gives its shape. -/
def shape (e : Evaluator (Value F)) (v : Nat) : Value F :=
  e.table.value v 0 0

/-- An evaluator that has the coefficients of some orders along its first direction, each fitting
the value of its variable. -/
structure Shaped (e : Evaluator (Value F)) (q : Nat) : Prop where
  wellFormed : e.WellFormed
  builtIns : e.tape.OnlyBuiltIns
  positive : 0 < q
  orders : q ≤ e.numOrders
  solves : ∃ x, e.tape.Solves x e.shape
  fits : ∀ v < e.tape.size, ∀ k < q, (e.table.value v k 0).Fits (e.shape v)

variable {e : Evaluator (Value F)} {q : Nat}

/-- A recorded evaluator is shaped if the coefficients of its inputs are. -/
theorem RecordedOfBuiltIns.shaped (recorded : e.RecordedOfBuiltIns) (positive : 0 < q)
    (orders : q ≤ e.numOrders)
    (inputs : ∀ j < e.numInputs, ∀ k < q, (e.table.value j k 0).Fits (e.shape j)) :
    e.Shaped q := by
  have wf := recorded.recorded.wellFormed
  obtain ⟨rows, count, _, holds⟩ := recorded.exists_seeds
  let seed : Nat → List (Value F) := fun k => (rows[k]?).getD []
  have holds : ∀ k < q, ∀ i < e.tape.size, e.tape.Holds k (seed k) (e.table.along 0) i :=
    fun k below => holds k (by omega)
  exact ⟨wf, recorded.onlyBuiltIns, positive, orders,
    ⟨seed 0, Tape.solves_of_holds (c := e.table.along 0) seed wf.tape positive holds⟩,
    Tape.fits_of_holds (c := e.table.along 0) wf.tape recorded.onlyBuiltIns positive holds inputs⟩

namespace Shaped

private theorem tableFits (shaped : e.Shaped q) : e.tape.Fits e.table (q - 1) 0 where
  wellFormed := shaped.wellFormed.table
  extent := shaped.wellFormed.extent
  order := by
    have room := shaped.wellFormed.table.orders
    have valid : q ≤ e.table.numOrders := shaped.orders
    have := shaped.positive
    omega
  direction := .inr shaped.wellFormed.table.directions

theorem series (shaped : e.Shaped q) {v : Nat} (inside : v < e.tape.size) :
    e.table.series v q 0 = .ok (.of (e.table.along 0 v) q) :=
  shaped.tableFits.series_eq inside (by omega)

theorem coeff (shaped : e.Shaped q) {v : Nat} (inside : v < e.tape.size) :
    e.table.coeff v 0 0 = .ok (e.shape v) :=
  Coefficients.coeff_eq shaped.wellFormed.table (shaped.tableFits.inside inside (Nat.zero_le _))

end Shaped

end Evaluator

end TaylorTape
