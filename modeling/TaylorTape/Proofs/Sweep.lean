import TaylorTape.Proofs.WellFormed
import TaylorTape.Evaluator.Forward

/-!
What a forward sweep computes.

The coefficients of one direction are a function of variable and order.  An entry holds of such a
function when its coefficients are what its rule yields from those it reads.  A sweep that succeeds
leaves a table on which every entry holds at the order of the sweep, and it changes nothing else;
and it does succeed if every entry, from what the entries in front of it can have yielded, yields
something.
-/

set_option autoImplicit false
set_option relaxedAutoImplicit false

namespace TaylorTape

variable {B F : Type} [Scalar F] [Base B F]

namespace Tape

/-- What the entry at a position yields at an order, from the coefficients of what it reads and
from its own lower orders.  Of an atomic that is no built-in nothing is said. -/
def Yields (tape : Tape B) (q : Nat) (seed : List B) (c : Nat → Nat → B) (i : Nat) (xs : List B) :
    Prop :=
  ∃ node, tape.nodes[i]? = some node ∧
    match node.entry with
    | .input => ∃ x, seed[i]? = some x ∧ xs = [x]
    | .const => xs = [if q = 0 then node.value else Base.zero]
    | .unary op a => ∃ x, op.next (.of (c a) (q + 1)) (.of (c i) q) = .ok x ∧ xs = [x]
    | .binary op a b =>
      ∃ x, op.next (.of (c a) (q + 1)) (.of (c b) (q + 1)) (.of (c i) q) = .ok x ∧ xs = [x]
    | .call place args _ => ∀ r, tape.atomics[place]? = some r → r.IsBuiltIn →
      ∃ b : BuiltIn, r.op = b.atomic ∧ b.step (args.map (c · 0)) (args.map (c · q)) = .ok xs
    | .result _ => xs = []

/-- The entry at a position holds of some coefficients at an order: those of the variables that it
produces are what it yields. -/
def Holds (tape : Tape B) (q : Nat) (seed : List B) (c : Nat → Nat → B) (i : Nat) : Prop :=
  ∃ e, tape.entry i = .ok e ∧ tape.Yields q seed c i ((List.range' i e.span).map (c · q))

theorem Yields.congr {tape : Tape B} {q : Nat} {seed : List B} {c c' : Nat → Nat → B} {i : Nat}
    {e : Entry} {xs : List B} (found : tape.entry i = .ok e)
    (read : ∀ a ∈ e.operands, ∀ k ≤ q, c a k = c' a k) (own : ∀ k < q, c i k = c' i k)
    (yields : tape.Yields q seed c i xs) : tape.Yields q seed c' i xs := by
  obtain ⟨⟨entry, value⟩, at_i, yields⟩ := yields
  obtain rfl : e = entry := Except.ok.inj (found.symm.trans (entry_of_node at_i))
  have series : ∀ a ∈ e.operands, Series.of (c a) (q + 1) = Series.of (c' a) (q + 1) :=
    fun a reads => Series.of_congr fun k low => read a reads k (Nat.le_of_lt_succ low)
  have known := Series.of_congr own
  refine ⟨⟨e, value⟩, at_i, ?_⟩
  cases e with
  | input | const | result owner => exact yields
  | unary op a =>
    simp only [series a (by simp [Entry.operands]), known] at yields
    exact yields
  | binary op a b =>
    simp only [series a (by simp [Entry.operands]), series b (by simp [Entry.operands]),
      known] at yields
    exact yields
  | call place args n =>
    intro r there builtIn
    have first : args.map (c' · 0) = args.map (c · 0) :=
      List.map_congr_left fun a reads => (read a reads 0 (Nat.zero_le q)).symm
    have last : args.map (c' · q) = args.map (c · q) :=
      List.map_congr_left fun a reads => (read a reads q le_rfl).symm
    rw [first, last]
    exact yields r there builtIn

theorem Holds.congr {tape : Tape B} {q : Nat} {seed : List B} {c c' : Nat → Nat → B} {i : Nat}
    (wf : tape.WellFormed) (same : ∀ v, tape.Produced (i + 1) v → ∀ k ≤ q, c v k = c' v k)
    (holds : tape.Holds q seed c i) : tape.Holds q seed c' i := by
  obtain ⟨e, found, yields⟩ := holds
  have own : ∀ v, i ≤ v → v < i + e.span → tape.Produced (i + 1) v :=
    fun v low high => (produced_succ found).2 (.inr ⟨low, high⟩)
  have results : (List.range' i e.span).map (c · q) = (List.range' i e.span).map (c' · q) := by
    refine List.map_congr_left fun v member => ?_
    obtain ⟨low, high⟩ := List.mem_range'_1.1 member
    exact same v (own v low high) q le_rfl
  refine ⟨e, found, results ▸ yields.congr found ?_ ?_⟩
  · intro a reads k low
    exact same a ((produced_succ found).2 (.inl (wf.produced_operand found reads))) k low
  · intro k low
    have inside := lt_size_of_entry found
    exact same i (wf.produced_of_lt inside (Nat.lt_succ_self i)) k (le_of_lt low)

namespace Holds

variable {tape : Tape B} {q i : Nat} {seed : List B} {c : Nat → Nat → B}

private theorem node {e : Entry} {v : B} (holds : tape.Holds q seed c i)
    (there : tape.nodes[i]? = some ⟨e, v⟩) : ∃ xs, (List.range' i e.span).map (c · q) = xs ∧
    tape.Yields q seed c i xs := by
  obtain ⟨e', found', yields⟩ := holds
  obtain rfl := Except.ok.inj ((entry_of_node there).symm.trans found')
  exact ⟨_, rfl, yields⟩

theorem input (holds : tape.Holds q seed c i) (found : tape.entry i = .ok .input) :
    seed[i]? = some (c i q) := by
  obtain ⟨v, there⟩ := entry_eq_ok.1 found
  obtain ⟨xs, same, node', there', yields⟩ := holds.node there
  obtain rfl := Option.some.inj (there.symm.trans there')
  obtain ⟨x, read, rfl⟩ := yields
  rw [read]
  exact congrArg some (List.head_eq_of_cons_eq same).symm

theorem const {v : B} (holds : tape.Holds q seed c i) (there : tape.nodes[i]? = some ⟨.const, v⟩) :
    c i q = if q = 0 then v else Base.zero := by
  obtain ⟨xs, same, node', there', yields⟩ := holds.node there
  obtain rfl := Option.some.inj (there.symm.trans there')
  exact List.head_eq_of_cons_eq (same.trans yields)

/-- The coefficient of an operation of one argument is what follows its known ones. -/
theorem next_unary {op : UnaryOp} {a : Nat} (holds : tape.Holds q seed c i)
    (found : tape.entry i = .ok (.unary op a)) :
    op.next (.of (c a) (q + 1)) (.of (c i) q) = .ok (c i q) := by
  obtain ⟨v, there⟩ := entry_eq_ok.1 found
  obtain ⟨xs, same, node', there', yields⟩ := holds.node there
  obtain rfl := Option.some.inj (there.symm.trans there')
  obtain ⟨x, next, rfl⟩ := yields
  rw [next]
  exact congrArg Except.ok (List.head_eq_of_cons_eq same).symm

/-- The coefficient of an operation of two arguments is what follows its known ones. -/
theorem next_binary {op : BinaryOp} {a b : Nat} (holds : tape.Holds q seed c i)
    (found : tape.entry i = .ok (.binary op a b)) :
    op.next (.of (c a) (q + 1)) (.of (c b) (q + 1)) (.of (c i) q) = .ok (c i q) := by
  obtain ⟨v, there⟩ := entry_eq_ok.1 found
  obtain ⟨xs, same, node', there', yields⟩ := holds.node there
  obtain rfl := Option.some.inj (there.symm.trans there')
  obtain ⟨x, next, rfl⟩ := yields
  rw [next]
  exact congrArg Except.ok (List.head_eq_of_cons_eq same).symm

/-- The coefficients of the results of a call are what the built-in gives. -/
theorem step {place n : Nat} {args : List Nat} {r : Registered B} (holds : tape.Holds q seed c i)
    (found : tape.entry i = .ok (.call place args n)) (there : tape.atomics[place]? = some r)
    (builtIn : r.IsBuiltIn) :
    ∃ b : BuiltIn, r.op = b.atomic ∧ b.step (args.map (c · 0)) (args.map (c · q)) =
      .ok ((List.range' i n).map (c · q)) := by
  obtain ⟨v, at_i⟩ := entry_eq_ok.1 found
  obtain ⟨xs, same, node', there', yields⟩ := holds.node at_i
  obtain rfl := Option.some.inj (at_i.symm.trans there')
  obtain ⟨b, op, stepped⟩ := yields r there builtIn
  exact ⟨b, op, stepped.trans (congrArg Except.ok same.symm)⟩

end Holds

/-- The table of an evaluator has cells for this order and direction of every variable of the
tape. -/
structure Fits (tape : Tape B) (c : Coefficients B) (q d : Nat) : Prop where
  wellFormed : c.WellFormed
  extent : c.numVariables = tape.size
  order : q < c.capacity
  direction : q = 0 ∨ d < c.numDirections

namespace Fits

variable {tape : Tape B} {c : Coefficients B} {q d : Nat}

theorem inside (fits : tape.Fits c q d) {v k : Nat} (var : v < tape.size) (low : k ≤ q) :
    c.Inside v k d := by
  refine ⟨fits.extent ▸ var, lt_of_le_of_lt low fits.order, ?_⟩
  rcases fits.direction with zero | below
  · exact .inl (by omega)
  · exact .inr below

theorem series_eq (fits : tape.Fits c q d) {v n : Nat} (var : v < tape.size) (low : n ≤ q + 1) :
    c.series v n d = .ok (.of (c.along d v) n) :=
  Coefficients.series_eq fits.wellFormed fun _ below => fits.inside var (by omega)

theorem sameExtent (fits : tape.Fits c q d) {c' : Coefficients B} (same : c.SameExtent c')
    (orders : c'.numOrders ≤ c.capacity) : tape.Fits c' q d where
  wellFormed := same.wellFormed fits.wellFormed orders
  extent := same.1.trans fits.extent
  order := by
    rw [same.2.1]
    exact fits.order
  direction := by
    rw [same.2.2.1]
    exact fits.direction

end Fits

theorem answered_eq_ok {α : Type} {r : Registered B} {i order : Nat}
    {answer : Except Error (Option α)} {a : α} :
    answered r i order answer = .ok a ↔ answer = .ok (some a) := by
  unfold answered
  split <;> simp

/-- The wires of a call's arguments, read from a table. -/
def wires (tape : Tape B) (c : Nat → Nat → B) (args : List Nat) (q : Nat) : List (Wire B) :=
  args.map fun a => ⟨.of (c a) (q + 1), (tape.nodes[a]?.map Node.entry) != some .const⟩

/-- The wires of a call's results, read from a table. -/
def known (c : Nat → Nat → B) (i n q : Nat) : List (Wire B) :=
  (List.range' i n).map fun j => ⟨.of (c j) (q + 1), true⟩

theorem arguments_eq {tape : Tape B} {c : Coefficients B} {q d : Nat}
    (fits : tape.Fits c q d) {args : List Nat} (inside : ∀ a ∈ args, a < tape.size) :
    tape.arguments c args (q + 1) d = .ok (wires tape (c.along d) args q) := by
  refine mapM_eq_map fun a member => ?_
  obtain ⟨node, found⟩ := exists_node (inside a member)
  rw [fits.series_eq (inside a member) le_rfl, entry_of_node found, found]
  rfl

theorem results_eq {tape : Tape B} {c : Coefficients B} {q d i n : Nat}
    (fits : tape.Fits c q d) (inside : i + n ≤ tape.size) :
    results c i n (q + 1) d = .ok (known (c.along d) i n q) := by
  refine mapM_eq_map fun j member => ?_
  have := List.mem_range'_1.1 member
  rw [fits.series_eq (by omega) le_rfl]
  rfl

omit [Scalar F] in
private theorem coeffs_wires (tape : Tape B) (c : Nat → Nat → B) (args : List Nat) {k q : Nat}
    (low : k ≤ q) : Wire.coeffs (wires tape c args q) k = .ok (args.map (c · k)) := by
  unfold Wire.coeffs wires
  rw [List.mapM_map]
  exact mapM_eq_map fun a _ => Series.coeff_of (Nat.lt_succ_of_le low)

omit [Scalar F] in
private theorem read_results {q : Nat} (args : List (Wire B)) {known : List (Wire B)} {ys : List B}
    (count : ys.length = known.length) (room : ∀ y ∈ known, q < y.series.size) :
    ((List.range known.length).mapM fun r => do
      let y ← pick (List.zipWith
        (fun (y : Wire B) v => y.extend q (args.any Wire.isVariable) v) known ys) r
      y.series.coeff q) = .ok ys := by
  rw [mapM_eq_ok, List.forall₂_iff_get]
  refine ⟨by simp [count], ?_⟩
  intro r low high
  have inside : r < known.length := by simpa using low
  have inside' : r < ys.length := by omega
  simp only [List.get_eq_getElem, List.getElem_range]
  rw [pick_eq_ok_iff.2 (List.getElem?_eq_getElem (by simp [inside, inside']))]
  simp only [ok_bind, List.getElem_zipWith]
  rw [Series.coeff, fetch_eq_ok_iff]
  exact Array.getElem?_setIfInBounds_self_of_lt (room _ (List.getElem_mem inside))

omit [Base B F] [Scalar F] in
private theorem answered_map_bind {α β γ : Type} {r : Registered B} {i order : Nat}
    {answer : Except Error α} {f : α → β} {g : β → Except Error γ} {h : α → γ}
    (next : ∀ a, answer = .ok a → g (f a) = .ok (h a)) :
    answered r i order ((fun a => some (f a)) <$> answer) >>= g =
      answered r i order ((fun a => some (h a)) <$> answer) := by
  cases answer with
  | error e => rfl
  | ok a => exact next a rfl

private theorem produced_call {tape : Tape B} {c : Coefficients B} {q d i place n : Nat}
    {seed args : List _} (wf : tape.WellFormed) (fits : tape.Fits c q d)
    (found : tape.entry i = .ok (.call place args n)) {r : Registered B} {b : BuiltIn}
    (there : tape.atomics[place]? = some r) (same : r.op = b.atomic) :
    tape.produced c q d seed i = answered r i q
      (some <$> b.step (args.map (c.along d · 0)) (args.map (c.along d · q))) := by
  have below : ∀ a ∈ args, a < tape.size := fun a reads => wf.operand_lt found reads
  obtain ⟨r', there', many⟩ := wf.atomics i place args n found
  obtain rfl : r = r' := Option.some.inj (there.symm.trans there')
  have count : n = b.count := by rw [← many, same, BuiltIn.numResults_atomic]
  have held : (known (c.along d) i n q).length = n := by simp [known]
  have long : ∀ x ∈ wires tape (c.along d) args q, x.series.size = q + 1 := by
    intro x member
    obtain ⟨a, _, rfl⟩ := List.mem_map.1 member
    exact Series.size_of _ _
  have wide : ∀ y ∈ known (c.along d) i n q, y.series.size = q + 1 := by
    intro y member
    obtain ⟨j, _, rfl⟩ := List.mem_map.1 member
    exact Series.size_of _ _
  have forward := b.forward_eq (coeffs_wires tape (c.along d) args (Nat.zero_le q))
    (coeffs_wires tape (c.along d) args le_rfl) long (held.trans count) wide
  have table : fetch tape.atomics place = .ok r := fetch_eq_ok_iff.2 there
  have room' : i + n ≤ tape.size := wf.span_le found
  unfold produced
  simp only [found, ok_bind, table, arguments_eq fits below, results_eq fits room', same, forward]
  unfold BuiltIn.extendAll
  refine answered_map_bind fun ys stepped => ?_
  have lengths : ys.length = (known (c.along d) i n q).length :=
    (BuiltIn.length_step stepped).trans (held.trans count).symm
  have read := read_results (wires tape (c.along d) args q) lengths fun y member => by
    rw [wide y member]
    exact q.lt_succ_self
  rw [held] at read
  exact read

omit [Base B F] [Scalar F] in
private theorem answered_some_eq_ok {α : Type} {r : Registered B} {i order : Nat}
    {answer : Except Error α} {a : α} :
    answered r i order (some <$> answer) = .ok a ↔ answer = .ok a := by
  rw [answered_eq_ok, map_eq_ok]
  simp

private theorem yields_of_node {tape : Tape B} {q : Nat} {seed : List B} {c : Nat → Nat → B}
    {i : Nat} {xs : List B} {node : Node B} (at_i : tape.nodes[i]? = some node) :
    tape.Yields q seed c i xs ↔
    match node.entry with
    | .input => ∃ x, seed[i]? = some x ∧ xs = [x]
    | .const => xs = [if q = 0 then node.value else Base.zero]
    | .unary op a => ∃ x, op.next (.of (c a) (q + 1)) (.of (c i) q) = .ok x ∧ xs = [x]
    | .binary op a b =>
      ∃ x, op.next (.of (c a) (q + 1)) (.of (c b) (q + 1)) (.of (c i) q) = .ok x ∧ xs = [x]
    | .call place args _ => ∀ r, tape.atomics[place]? = some r → r.IsBuiltIn →
      ∃ b : BuiltIn, r.op = b.atomic ∧ b.step (args.map (c · 0)) (args.map (c · q)) = .ok xs
    | .result _ => xs = [] := by
  unfold Yields
  constructor
  · rintro ⟨node', at_i', yields⟩
    obtain rfl := Option.some.inj (at_i.symm.trans at_i')
    exact yields
  · intro yields
    exact ⟨node, at_i, yields⟩

private theorem produced_eq_ok {tape : Tape B} {c : Coefficients B} {q d i : Nat}
    {seed xs : List B} (wf : tape.WellFormed) (fits : tape.Fits c q d) (inside : i < tape.size)
    (plain : ∀ place args n, tape.entry i ≠ .ok (.call place args n)) :
    tape.produced c q d seed i = .ok xs ↔ tape.Yields q seed (c.along d) i xs := by
  obtain ⟨⟨e, value⟩, at_i⟩ := exists_node inside
  have found := entry_of_node at_i
  have below : ∀ a ∈ e.operands, a < tape.size := fun a reads => wf.operand_lt found reads
  have one : ∀ (x : Except Error B), (x >>= fun y => pure [y]) = .ok xs ↔
      ∃ y, x = .ok y ∧ xs = [y] := by
    intro x
    simp only [bind_eq_ok, pure_eq_ok, @eq_comm _ xs]
  rw [yields_of_node at_i]
  unfold produced
  rw [found, ok_bind]
  cases e with
  | input =>
    simp only [one, pick_eq_ok_iff]
  | const =>
    have kept : tape.value i = .ok value := by
      simp only [Tape.value, bind_eq_ok, pure_eq_ok, fetch_eq_ok_iff]
      exact ⟨_, at_i, rfl⟩
    by_cases zero : q = 0
    · simp [zero, kept, eq_comm]
    · simp [zero, eq_comm]
  | unary op a =>
    have read := fits.series_eq (below a (by simp [Entry.operands])) le_rfl
    have known := fits.series_eq inside (Nat.le_succ q)
    simp only [read, known, ok_bind, one, mapError_eq_ok]
  | binary op a b =>
    have left := fits.series_eq (below a (by simp [Entry.operands])) le_rfl
    have right := fits.series_eq (below b (by simp [Entry.operands])) le_rfl
    have known := fits.series_eq inside (Nat.le_succ q)
    simp only [left, right, known, ok_bind, one, mapError_eq_ok]
  | call place args n => exact absurd found (plain place args n)
  | result owner =>
    simp only [pure_eq_ok, @eq_comm _ xs]

private theorem yields_of_produced {tape : Tape B} {c : Coefficients B} {q d i : Nat}
    {seed xs : List B} (wf : tape.WellFormed) (fits : tape.Fits c q d) (inside : i < tape.size)
    (done : tape.produced c q d seed i = .ok xs) : tape.Yields q seed (c.along d) i xs := by
  by_cases plain : ∀ place args n, tape.entry i ≠ .ok (.call place args n)
  · exact (produced_eq_ok wf fits inside plain).1 done
  · push Not at plain
    obtain ⟨place, args, n, found⟩ := plain
    obtain ⟨value, at_i⟩ := entry_eq_ok.1 found
    rw [yields_of_node at_i]
    rintro r there ⟨b, same⟩
    rw [produced_call wf fits found there same] at done
    exact ⟨b, same, answered_some_eq_ok.1 done⟩

private theorem produced_of_yields {tape : Tape B} {c : Coefficients B} {q d i : Nat}
    {seed xs : List B}
    (wf : tape.WellFormed) (fits : tape.Fits c q d) (builtIns : tape.OnlyBuiltIns)
    (inside : i < tape.size) (yields : tape.Yields q seed (c.along d) i xs) :
    tape.produced c q d seed i = .ok xs := by
  by_cases plain : ∀ place args n, tape.entry i ≠ .ok (.call place args n)
  · exact (produced_eq_ok wf fits inside plain).2 yields
  · push Not at plain
    obtain ⟨place, args, n, found⟩ := plain
    obtain ⟨value, at_i⟩ := entry_eq_ok.1 found
    obtain ⟨r, there, builtIn⟩ := builtIns i place args n found
    rw [yields_of_node at_i] at yields
    obtain ⟨b, same, stepped⟩ := yields r there builtIn
    rw [produced_call wf fits found there same]
    exact answered_some_eq_ok.2 stepped

/-- A sweep's step has the same outcome on two tables that agree in the lower orders and in what has
been produced, where a call is of a built-in. -/
theorem produced_congr {tape : Tape B} {c c' : Coefficients B} {q d i : Nat} {seed : List B}
    (wf : tape.WellFormed) (builtIns : tape.OnlyBuiltIns) (fits : tape.Fits c q d)
    (fits' : tape.Fits c' q d) (inside : i < tape.size)
    (low : ∀ v < tape.size, ∀ k < q, c.along d v k = c'.along d v k)
    (before : ∀ v, tape.Produced i v → c.along d v q = c'.along d v q) :
    tape.produced c q d seed i = tape.produced c' q d seed i := by
  obtain ⟨e, found⟩ := exists_entry inside
  have below : ∀ a ∈ e.operands, a < tape.size := fun a reads => wf.operand_lt found reads
  have read : ∀ a ∈ e.operands, ∀ k ≤ q, c.along d a k = c'.along d a k := by
    intro a reads k le
    rcases Nat.lt_or_eq_of_le le with less | rfl
    · exact low a (below a reads) k less
    · exact before a (wf.produced_operand found reads)
  have series : ∀ a ∈ e.operands, c.series a (q + 1) d = c'.series a (q + 1) d := by
    intro a reads
    rw [fits.series_eq (below a reads) le_rfl, fits'.series_eq (below a reads) le_rfl]
    exact congrArg _ (Series.of_congr fun k less => read a reads k (Nat.le_of_lt_succ less))
  have known : c.series i q d = c'.series i q d := by
    rw [fits.series_eq inside (Nat.le_succ q), fits'.series_eq inside (Nat.le_succ q)]
    exact congrArg _ (Series.of_congr (low i inside))
  cases e with
  | input | const | result owner => simp only [produced, found, ok_bind]
  | unary op a =>
    simp only [produced, found, ok_bind, series a (by simp [Entry.operands]), known]
  | binary op a b =>
    simp only [produced, found, ok_bind, series a (by simp [Entry.operands]),
      series b (by simp [Entry.operands]), known]
  | call place args n =>
    obtain ⟨r, there, b, same⟩ := builtIns i place args n found
    have first : args.map (c.along d · 0) = args.map (c'.along d · 0) :=
      List.map_congr_left fun a reads => read a reads 0 (Nat.zero_le q)
    have last : args.map (c.along d · q) = args.map (c'.along d · q) :=
      List.map_congr_left fun a reads => read a reads q le_rfl
    rw [produced_call wf fits found there same, produced_call wf fits' found there same, first, last]

/-- A sweep's step produces as many coefficients as the entry has variables. -/
theorem length_produced {tape : Tape B} {c : Coefficients B} {q d i : Nat} {seed xs : List B}
    {e : Entry} (found : tape.entry i = .ok e) (done : tape.produced c q d seed i = .ok xs) :
    xs.length = e.span := by
  unfold produced at done
  rw [found, ok_bind] at done
  cases e with
  | input =>
    simp only [bind_eq_ok, pure_eq_ok] at done
    obtain ⟨_, _, rfl⟩ := done
    rfl
  | const =>
    by_cases zero : q = 0
    · simp only [if_pos zero, bind_eq_ok, pure_eq_ok] at done
      obtain ⟨_, _, rfl⟩ := done
      rfl
    · simp only [if_neg zero, ok_bind, pure_eq_ok] at done
      obtain rfl := done
      rfl
  | unary op a =>
    simp only [bind_eq_ok, pure_eq_ok] at done
    obtain ⟨_, _, _, _, _, _, rfl⟩ := done
    rfl
  | binary op a b =>
    simp only [bind_eq_ok, pure_eq_ok] at done
    obtain ⟨_, _, _, _, _, _, _, _, rfl⟩ := done
    rfl
  | call place args n =>
    simp only [bind_eq_ok] at done
    obtain ⟨_, _, _, _, _, _, _, _, read⟩ := done
    rw [length_of_mapM read, List.length_range]
    rfl
  | result owner =>
    obtain rfl := pure_eq_ok.1 done
    rfl

end Tape

namespace Coefficients

/-- A table that differs from another in some cells only. -/
structure Frame (changed : Nat → Nat → Nat → Prop) (c t : Coefficients B) : Prop where
  extent : c.SameExtent t
  orders : t.numOrders = c.numOrders
  values : ∀ v k d, c.Inside v k d → ¬ changed v k d → t.value v k d = c.value v k d

namespace Frame

variable {changed changed' : Nat → Nat → Nat → Prop} {c t u : Coefficients B}

theorem refl (c : Coefficients B) : c.Frame changed c :=
  ⟨.refl c, rfl, fun _ _ _ _ _ => rfl⟩

theorem trans (first : c.Frame changed t) (second : t.Frame changed u) : c.Frame changed u where
  extent := first.extent.trans second.extent
  orders := second.orders.trans first.orders
  values v k d inside kept :=
    (second.values v k d ((first.extent.inside_iff v k d).2 inside) kept).trans
      (first.values v k d inside kept)

theorem mono (frame : c.Frame changed t) (wider : ∀ v k d, changed v k d → changed' v k d) :
    c.Frame changed' t where
  extent := frame.extent
  orders := frame.orders
  values v k d inside kept := frame.values v k d inside fun hit => kept (wider v k d hit)

theorem wellFormed (frame : c.Frame changed t) (wf : c.WellFormed) : t.WellFormed :=
  frame.extent.wellFormed wf (frame.orders ▸ wf.orders)

end Frame

end Coefficients

namespace Sweep

/-- The cells of one order along a direction, of some variables. -/
def Cells (own : Nat → Prop) (q d v k d' : Nat) : Prop :=
  own v ∧ k = q ∧ (q = 0 ∨ d' = d)

private theorem put_run {c : Coefficients B} (wf : c.WellFormed) {v k d : Nat}
    (inside : c.Inside v k d) (x : B) : Sweep.put v k d x c = (.ok (), c.write v k d x) := by
  unfold Sweep.put
  rw [run_bind_ok (run_get c), run_bind_ok (run_lift _ c |>.trans (by rw [Coefficients.put_eq wf inside])),
    run_set]

/-- The coefficients that an entry has produced are written to the cells of its variables. -/
private theorem forM_put {q d : Nat} (xs : List B) (i r : Nat) {c : Coefficients B}
    (wf : c.WellFormed) (inside : ∀ v, i + r ≤ v → v < i + r + xs.length → c.Inside v q d) :
    ∃ t, ((xs.zipIdx r).forM fun (x, r) => Sweep.put (i + r) q d x) c = (.ok (), t) ∧
      c.Frame (Cells (fun v => i + r ≤ v ∧ v < i + r + xs.length) q d) t ∧
      ∀ s x, xs[s]? = some x → t.value (i + r + s) q d = x := by
  induction xs generalizing r c with
  | nil => exact ⟨c, rfl, .refl c, by simp⟩
  | cons x xs ih =>
    have first : c.Inside (i + r) q d := inside _ le_rfl (by simp)
    have extent := c.sameExtent_write (i + r) q d x
    obtain ⟨t, done, frame, written⟩ := ih (r + 1) (wf.write (i + r) q d x) (by
      intro v low high
      refine (extent.inside_iff v q d).2 (inside v (by omega) ?_)
      rw [List.length_cons]
      omega)
    refine ⟨t, ?_, ?_, ?_⟩
    · rw [List.zipIdx_cons, forM_cons, run_bind_ok (put_run wf first x)]
      exact done
    · refine Coefficients.Frame.trans (t := c.write (i + r) q d x) ⟨extent, rfl, ?_⟩
        (frame.mono ?_)
      · intro v k d' inside' kept
        refine Coefficients.value_write_of_ne first inside' x ?_
        by_contra same
        push Not at same
        obtain ⟨rfl, rfl, along⟩ := same
        refine kept ⟨⟨le_rfl, by simp⟩, rfl, ?_⟩
        by_cases zero : k = 0
        · exact .inl zero
        · exact .inr (along zero)
      · rintro v k d' ⟨⟨low, high⟩, rest⟩
        refine ⟨⟨by omega, ?_⟩, rest⟩
        rw [List.length_cons]
        omega
    · intro s y found
      cases s with
      | zero =>
        obtain rfl : x = y := by simpa using found
        have kept := frame.values (i + r) q d ((extent.inside_iff _ _ _).2 first) (by
          rintro ⟨⟨low, _⟩, _⟩
          omega)
        rw [Nat.add_zero, kept, Coefficients.value_write_self wf first]
      | succ s =>
        have later := written s y (by simpa using found)
        rwa [← Nat.add_assoc, Nat.add_right_comm] at later

end Sweep

namespace Tape

variable {tape : Tape B} {c t : Coefficients B} {q d i : Nat} {seed xs : List B}

theorem Fits.frame {changed : Nat → Nat → Nat → Prop} (fits : tape.Fits c q d)
    (frame : c.Frame changed t) : tape.Fits t q d :=
  fits.sameExtent frame.extent (frame.orders ▸ fits.wellFormed.orders)

/-- One step of a sweep writes what it has produced, and nothing else. -/
theorem advance_of_produced (wf : tape.WellFormed) (fits : tape.Fits c q d) {e : Entry}
    (found : tape.entry i = .ok e) (made : tape.produced c q d seed i = .ok xs) :
    ∃ t, tape.advance q d seed i c = (.ok (), t) ∧
      c.Frame (Sweep.Cells (fun v => i ≤ v ∧ v < i + e.span) q d) t ∧
      ∀ r x, xs[r]? = some x → t.value (i + r) q d = x := by
  have count := length_produced found made
  have room := wf.span_le found
  obtain ⟨t, done, frame, written⟩ := Sweep.forM_put xs i 0 fits.wellFormed (q := q) (d := d)
    fun v _ high => fits.inside (by omega) le_rfl
  refine ⟨t, ?_, count ▸ frame, written⟩
  have produced : tape.advance q d seed i c =
      (match tape.produced c q d seed i with
        | .ok xs => (xs.zipIdx.forM fun (x, r) => Sweep.put (i + r) q d x) c
        | .error e => (.error e, c)) := by
    unfold advance
    rw [run_bind_ok (run_get c), run_bind, run_lift]
    cases tape.produced c q d seed i <;> rfl
  rw [produced, made]
  exact done

theorem produced_of_advance (done : tape.advance q d seed i c = (.ok (), t)) :
    ∃ xs, tape.produced c q d seed i = .ok xs := by
  unfold advance at done
  rw [run_bind_ok (run_get c), run_bind, run_lift] at done
  cases made : tape.produced c q d seed i with
  | error e =>
    rw [made] at done
    cases done
  | ok xs => exact ⟨xs, rfl⟩

/-- What a sweep has done before it reaches a position. -/
structure Swept (tape : Tape B) (q d : Nat) (seed : List B) (c : Coefficients B) (i : Nat)
    (t : Coefficients B) : Prop where
  frame : c.Frame (Sweep.Cells (tape.Produced i) q d) t
  holds : ∀ j < i, tape.Holds q seed (t.along d) j

theorem Swept.fits (swept : tape.Swept q d seed c i t) (fits : tape.Fits c q d) :
    tape.Fits t q d :=
  fits.frame swept.frame

private theorem Swept.low (swept : tape.Swept q d seed c i t) (fits : tape.Fits c q d) {v k : Nat}
    (var : v < tape.size) (low : k < q) : t.along d v k = c.along d v k :=
  swept.frame.values v k d (fits.inside var (le_of_lt low)) fun hit => by
    have := hit.2.1
    omega

/-- A step that succeeds extends what the sweep has done. -/
private theorem Swept.step (wf : tape.WellFormed) (fits : tape.Fits c q d) {e : Entry}
    (found : tape.entry i = .ok e) (swept : tape.Swept q d seed c i t)
    (made : tape.produced t q d seed i = .ok xs) :
    ∃ u, tape.advance q d seed i t = (.ok (), u) ∧ tape.Swept q d seed c (i + 1) u ∧
      (∀ v, tape.Produced i v → u.value v q d = t.value v q d) ∧
      (∀ r x, xs[r]? = some x → u.value (i + r) q d = x) := by
  have fits' := swept.fits fits
  have inside := lt_size_of_entry found
  obtain ⟨u, done, frame, written⟩ := advance_of_produced wf fits' found made
  -- a variable that was produced before lies outside the cells just written
  have kept : ∀ v, tape.Produced i v → ∀ k ≤ q, t.along d v k = u.along d v k := by
    intro v before k low
    refine (frame.values v k d (fits'.inside (wf.lt_of_produced before) low) ?_).symm
    rintro ⟨⟨low', high'⟩, _⟩
    exact wf.not_produced found low' high' before
  have own : ∀ k < q, t.along d i k = u.along d i k := by
    intro k low
    refine (frame.values i k d (fits'.inside inside (le_of_lt low)) ?_).symm
    rintro ⟨_, rfl, _⟩
    exact absurd low (lt_irrefl k)
  have results : (List.range' i e.span).map (u.along d · q) = xs := by
    refine List.ext_getElem (by simp [length_produced found made]) fun r _ high => ?_
    rw [List.getElem_map, List.getElem_range', Nat.one_mul]
    exact written r xs[r] (List.getElem?_eq_getElem high)
  refine ⟨u, done, ⟨?_, ?_⟩, fun v before => (kept v before q le_rfl).symm, written⟩
  · refine (swept.frame.mono ?_).trans (frame.mono ?_)
    · rintro v k d' ⟨before, rest⟩
      exact ⟨(produced_succ found).2 (.inl before), rest⟩
    · rintro v k d' ⟨here, rest⟩
      exact ⟨(produced_succ found).2 (.inr here), rest⟩
  · intro j before
    by_cases last : j = i
    · subst last
      refine ⟨e, found, ?_⟩
      rw [results]
      refine (yields_of_produced wf fits' inside made).congr found ?_ own
      exact fun a reads => kept a (wf.produced_operand found reads)
    · refine (swept.holds j (by omega)).congr wf ?_
      rintro v ⟨j', e', before', rest⟩
      exact kept v ⟨j', e', by omega, rest⟩

private theorem swept_zero (tape : Tape B) (q d : Nat) (seed : List B) (c : Coefficients B) :
    tape.Swept q d seed c 0 c :=
  ⟨.refl c, by simp⟩

/-- After a sweep that succeeds every entry holds at its order, and only that order has changed. -/
theorem sweep_sound (wf : tape.WellFormed) (fits : tape.Fits c q d)
    (done : tape.sweep q d seed c = (.ok (), t)) : tape.Swept q d seed c tape.size t := by
  unfold sweep at done
  rw [List.range_eq_range'] at done
  have all := forM_up_kept (P := tape.Swept q d seed c) ?_ (swept_zero tape q d seed c) done
  · rwa [Nat.zero_add] at all
  · intro i s s' _ high swept stepped
    obtain ⟨e, found⟩ := exists_entry (show i < tape.size by omega)
    obtain ⟨xs, made⟩ := produced_of_advance stepped
    obtain ⟨u, done, next, _⟩ := swept.step wf fits found made
    rw [stepped] at done
    obtain rfl : s' = u := congrArg Prod.snd done
    exact next

/-- A sweep succeeds if every entry yields something good from good values of what it reads, and
from the orders below as they were. -/
theorem sweep_total (wf : tape.WellFormed) (fits : tape.Fits c q d) (builtIns : tape.OnlyBuiltIns)
    (Good : Nat → B → Prop)
    (progress : ∀ i < tape.size, ∀ c' : Nat → Nat → B,
      (∀ v < tape.size, ∀ k < q, c' v k = c.along d v k) →
      (∀ v, tape.Produced i v → Good v (c' v q)) →
      ∃ xs, tape.Yields q seed c' i xs ∧ ∀ r x, xs[r]? = some x → Good (i + r) x) :
    ∃ t, tape.sweep q d seed c = (.ok (), t) ∧ tape.Swept q d seed c tape.size t ∧
      ∀ v < tape.size, Good v (t.value v q d) := by
  have all := forM_up (f := tape.advance q d seed) (a := 0) (n := tape.size) (s := c)
    (P := fun i t => tape.Swept q d seed c i t ∧
      ∀ v, tape.Produced i v → Good v (t.value v q d)) ?_
    ⟨swept_zero tape q d seed c, fun v before => absurd before (not_produced_zero tape v)⟩
  · obtain ⟨t, done, swept, good⟩ := all
    rw [Nat.zero_add] at swept good
    refine ⟨t, ?_, swept, fun v inside => good v (wf.produced_of_lt le_rfl inside)⟩
    unfold sweep
    rw [List.range_eq_range']
    exact done
  · rintro i s _ high ⟨swept, good⟩
    obtain ⟨e, found⟩ := exists_entry (show i < tape.size by omega)
    obtain ⟨xs, yields, fine⟩ := progress i (by omega) (s.along d)
      (fun v var k low => swept.low fits var low) good
    have made := produced_of_yields wf (swept.fits fits) builtIns (by omega) yields
    obtain ⟨u, done, next, kept, written⟩ := swept.step wf fits found made
    refine ⟨u, done, next, fun v before => ?_⟩
    rcases (produced_succ found).1 before with earlier | ⟨low, high'⟩
    · rw [kept v earlier]
      exact good v earlier
    · have count := length_produced found made
      obtain ⟨r, rfl⟩ := Nat.exists_eq_add_of_le low
      have own : r < xs.length := by omega
      have there : xs[r]? = some xs[r] := List.getElem?_eq_getElem own
      rw [written r _ there]
      exact fine r _ there

end Tape

end TaylorTape
