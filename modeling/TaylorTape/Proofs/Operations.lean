import TaylorTape.Proofs.Adjoint
import TaylorTape.Proofs.Growth
import TaylorTape.Proofs.Layout
import TaylorTape.Proofs.Links
import TaylorTape.Proofs.Ranged
import TaylorTape.Proofs.Sparsity

/-!
The operations of one argument and of two on lists of arguments, and atomics that compute them.

An operation of one argument and an operation of two obey the same rules once their arguments stand
in a list.  An atomic computes an operation when it sets each order that it is asked for by the rule
of that operation, passes back what the operation passes back, and says nothing about sparsity.  For
every operation there is such an atomic.
-/

set_option autoImplicit false
set_option relaxedAutoImplicit false

namespace TaylorTape

variable {B F : Type} [Scalar F] [Base B F]

/-- An operation of one argument or of two. -/
inductive Operation where
  | unary (op : UnaryOp)
  | binary (op : BinaryOp)

namespace Operation

/-- The name that errors give to an operation. -/
def name : Operation → String
  | .unary op => op.name
  | .binary op => op.name

/-- The number of its arguments. -/
def arity : Operation → Nat
  | .unary _ => 1
  | .binary _ => 2

/-- An operation on plain values. -/
def eval (op : Operation) (args : List B) : Except Error B :=
  match op, args with
  | .unary op, [a] => .ok (op.eval a)
  | .binary op, [a, b] => op.eval a b
  | op, args => .error (.shapeMismatch "arguments" op.arity args.length)

/-- The coefficient that follows the known ones. -/
def next (op : Operation) (args : List (Series B)) (z : Series B) : Except Error B :=
  match op, args with
  | .unary op, [a] => op.next a z
  | .binary op, [a, b] => op.next a b z
  | op, args => .error (.shapeMismatch "arguments" op.arity args.length)

/-- A series whose orders `p, ..., q` are set one after another, each from the orders of the
arguments up to its own and from the lower orders of the series. -/
def extend (op : Operation) (args : List (Series B)) (p q : Nat) (z : Series B) :
    Except Error (Series B) :=
  (List.range' p (q + 1 - p)).foldlM
    (fun z k => do store z k (← op.next (args.map (·.take (k + 1))) (z.take k))) z

/-- The partials of the arguments, of the first `n` orders, from those of the result. -/
def pullback (op : Operation) (args : List (Series B)) (z pz : Series B) (n : Nat) :
    Except Error (List (Series B)) :=
  match op, args with
  | .unary op, [a] => do return [← op.pullback a z pz (.zeros n)]
  | .binary op, [a, b] => do
    let (pa, pb) ← op.pullback a b z pz (.zeros n) (.zeros n)
    return [pa, pb]
  | op, args => .error (.shapeMismatch "arguments" op.arity args.length)

end Operation

/-- An atomic with one result that computes an operation.  It is asked about arguments, results and
partials that have all orders up to `q`; where an argument is a variable it leaves the result one. -/
structure Atomic.Computes (a : Atomic B) (op : Operation) : Prop where
  numResults : a.numResults op.arity = 1
  forward : ∀ p q (args : List (Wire B)) (y : Wire B), p ≤ q → args.length = op.arity →
    (∀ x ∈ args, x.series.size = q + 1) → y.series.size = q + 1 →
    ∃ mark : Bool, (y.isVariable = args.any Wire.isVariable → mark = y.isVariable) ∧
      a.forward p q args [y] = do
        return some [⟨← op.extend (args.map Wire.series) p q y.series, mark⟩]
  reverse : ∀ q (args : List (Series B)) (z pz : Series B), args.length = op.arity →
    (∀ x ∈ args, x.size = q + 1) → z.size = q + 1 → pz.size = q + 1 →
    a.reverse q args [z] [pz] = some <$> op.pullback args z pz (q + 1)
  forwardSparsity : a.forwardSparsity = denseSparsity
  reverseSparsity : a.reverseSparsity = denseSparsity

/-- The atomic that is an operation. -/
def Operation.atomic (op : Operation) : Atomic B where
  extend p q varIn varOut tx ty := do
    let args ← (List.range varIn.size).mapM (Block.series q tx)
    return some (varOut, ← op.extend args p q (← Block.series q ty 0))
  pull q tx ty _ py := do
    let args ← (List.range op.arity).mapM (Block.series q tx)
    let shares ← op.pullback args (← Block.series q ty 0) (← Block.series q py 0) (q + 1)
    return some (Block.join shares)

private theorem Operation.size_extend {op : Operation} {args : List (Series B)} {p q : Nat}
    {z y : Series B} (done : op.extend args p q z = .ok y) : y.size = z.size :=
  foldlM_kept (P := fun y => y.size = z.size) (fun k _ s t same stored => by
    obtain ⟨v, _, stored⟩ := bind_eq_ok.1 stored
    obtain ⟨inside, rfl⟩ := store_eq_ok_iff.1 stored
    rw [Array.size_set, same]) rfl done

private theorem Operation.fillsBlock_pullback [CheckedBase B] {op : Operation}
    {args shares : List (Series B)} {z pz : Series B} {q : Nat} (arity : args.length = op.arity)
    (given : ∀ x ∈ args, x.size = q + 1) (known : z.size = q + 1) (result : pz.size = q + 1)
    (done : op.pullback args z pz (q + 1) = .ok shares) : FillsBlock q op.arity shares := by
  have zeros : (Series.zeros (q + 1) : Series B).size = q + 1 := Array.size_replicate
  cases op with
  | unary op =>
    obtain ⟨a, rfl⟩ := List.length_eq_one_iff.1 arity
    obtain ⟨pa, pulled, last⟩ := bind_eq_ok.1 done
    have size := (ranged_iff.1 (op.ranged_pullback (given a (by simp)) q.succ_pos known result
      zeros)).1 pa pulled
    exact pure_eq_ok.1 last ▸ ⟨rfl, by simpa using size⟩
  | binary op =>
    obtain ⟨a, b, rfl⟩ := List.length_eq_two.1 arity
    obtain ⟨⟨pa, pb⟩, pulled, last⟩ := bind_eq_ok.1 done
    have sizes := (ranged_iff.1 (op.ranged_pullback (given a (by simp)) q.succ_pos
      (given b (by simp)) known result zeros zeros)).1 (pa, pb) pulled
    exact pure_eq_ok.1 last ▸ ⟨rfl, by simpa [BothSized] using sizes⟩

theorem Operation.atomic_computes [CheckedBase B] (op : Operation) :
    (op.atomic : Atomic B).Computes op where
  numResults := rfl
  forward p q args y _ _ given known := by
    refine ⟨y.isVariable, fun _ => rfl, ?_⟩
    have filled : FillsBlock q args.length (args.map Wire.series) :=
      ⟨List.length_map _, List.forall_mem_map.2 given⟩
    have count : (Wire.flags args).size = args.length := by simp [Wire.flags]
    have read : Block.series q (Block.join ([y].map Wire.series)) 0 = .ok y.series := by
      rw [List.map_singleton, Block.join_singleton, Block.series_self known]
    simp only [Atomic.forward, Operation.atomic, count, Wire.block, Block.mapM_series_join filled,
      ok_bind, read]
    cases done : op.extend (args.map Wire.series) p q y.series with
    | error err => rfl
    | ok z =>
      have back : (List.range [y].length).mapM (fun i => do
          return (⟨← Block.series q z i, ← fetch (Wire.flags [y]) i⟩ : Wire B)) =
          .ok [⟨z, y.isVariable⟩] := by
        rw [show List.range [y].length = [0] from rfl, List.mapM_cons,
          Block.series_self ((size_extend done).trans known)]
        rfl
      exact bind_eq_ok.2 ⟨some (Wire.flags [y], z), rfl, bind_eq_ok.2 ⟨_, back, rfl⟩⟩
  reverse q args z pz arity given known result := by
    have filled : FillsBlock q args.length args := ⟨rfl, given⟩
    simp only [Atomic.reverse, Operation.atomic, ← arity, Block.mapM_series_join filled, ok_bind,
      Block.join_singleton, Block.series_self known, Block.series_self result]
    cases done : op.pullback args z pz (q + 1) with
    | error err => rfl
    | ok shares =>
      have back : (List.range args.length).mapM (Block.series q (Block.join shares)) = .ok shares :=
        Block.mapM_series_join (arity ▸ fillsBlock_pullback arity given known result done)
      exact bind_eq_ok.2 ⟨some (Block.join shares), rfl, bind_eq_ok.2 ⟨_, back, rfl⟩⟩
  forwardSparsity := rfl
  reverseSparsity := rfl

namespace Operation

private theorem extend_last (op : Operation) {xs : List (Series B)} {f : Nat → B} {q : Nat}
    (sizes : ∀ x ∈ xs, x.size = q + 1) :
    op.extend xs q q (.of f (q + 1)) = op.next xs (.of f q) >>= store (Series.of f (q + 1)) q := by
  have whole : xs.map (·.take (q + 1)) = xs := by
    refine (List.map_congr_left fun x member => ?_).trans (List.map_id xs)
    rw [← sizes x member, Array.take_eq_extract, Array.extract_size]
    rfl
  unfold extend
  rw [Nat.add_sub_cancel_left, List.range'_one, List.foldlM_cons, whole,
    Series.take_of f (Nat.le_succ q)]
  exact bind_pure _

/-- At order zero the rule gives what the operation gives on plain values. -/
theorem extend_zero (op : Operation) (xs : List B) (z : B) :
    op.extend (xs.map fun x => #[x]) 0 0 #[z] = (fun v => #[v]) <$> op.eval xs := by
  have known : op.next (xs.map fun x => #[x]) (.of (fun _ => z) 0) = op.eval xs := by
    cases op with
    | unary op =>
      rcases xs with _ | ⟨x, _ | ⟨y, rest⟩⟩
      · rfl
      · rfl
      · simp [next, eval, arity]
    | binary op =>
      rcases xs with _ | ⟨x, _ | ⟨y, _ | ⟨w, rest⟩⟩⟩
      · rfl
      · rfl
      · rfl
      · simp [next, eval, arity]
  have last : op.extend (xs.map fun x => #[x]) 0 0 (.of (fun _ => z) 1) = _ :=
    op.extend_last fun x member => by
      obtain ⟨_, _, rfl⟩ := List.mem_map.1 member
      rfl
  refine last.trans ?_
  rw [known]
  cases op.eval xs <;> rfl

end Operation

/-- The operation that an entry carries out, and its operands. -/
def Entry.operation? : Entry → Option (Operation × List Nat)
  | .unary op a => some (.unary op, [a])
  | .binary op a b => some (.binary op, [a, b])
  | _ => none

namespace Tape

variable {tape : Tape B} {c : Coefficients B} {q d i place : Nat} {seed : List B} {args : List Nat}
  {e : Entry} {r : Registered B} {op : Operation}

/-- What an operation produces. -/
theorem produced_of_operation (fits : tape.Fits c q d) (found : tape.entry i = .ok e)
    (operation : e.operation? = some (op, args)) (inside : ∀ a ∈ args, a < tape.size) :
    tape.produced c q d seed i =
      (fun x => [x]) <$> (op.next (args.map fun a => Series.of (c.along d a) (q + 1))
        (.of (c.along d i) q)).mapError (.op i op.name) := by
  have own : c.series i q d = .ok (.of (c.along d i) q) :=
    fits.series_eq (lt_size_of_entry found) (Nat.le_succ q)
  unfold produced
  rw [found, ok_bind]
  cases e with
  | input | const | call | result => cases operation
  | unary op a =>
    cases operation
    simp only [fits.series_eq (inside a (by simp)) le_rfl, own, ok_bind]
    rfl
  | binary op a b =>
    cases operation
    simp only [fits.series_eq (inside a (by simp)) le_rfl, fits.series_eq (inside b (by simp)) le_rfl,
      own, ok_bind]
    rfl

omit [Scalar F] [Base B F] in
private theorem answered_some {α : Type} (r : Registered B) (i order : Nat) (x : Except Error α) :
    answered r i order (some <$> x) = x.mapError (.atomic i r.name) := by
  cases x <;> rfl

/-- What a call of an atomic that computes an operation produces. -/
theorem produced_of_computes (fits : tape.Fits c q d)
    (found : tape.entry i = .ok (.call place args 1))
    (there : tape.atomics[place]? = some r) (computes : r.op.Computes op)
    (arity : args.length = op.arity) (inside : ∀ a ∈ args, a < tape.size) :
    tape.produced c q d seed i =
      (fun x => [x]) <$> (op.next (args.map fun a => Series.of (c.along d a) (q + 1))
        (.of (c.along d i) q)).mapError (.atomic i r.name) := by
  have here := lt_size_of_entry found
  have series : (tape.wires (c.along d) args q).map Wire.series =
      args.map fun a => Series.of (c.along d a) (q + 1) := by
    simp [wires, Function.comp_def]
  obtain ⟨mark, _, forward⟩ := computes.forward q q (tape.wires (c.along d) args q)
    ⟨.of (c.along d i) (q + 1), true⟩ le_rfl (by simpa [wires] using arity)
    (fun x member => by
      obtain ⟨a, _, rfl⟩ := List.mem_map.1 member
      simp) (by simp)
  rw [series, Operation.extend_last _ (by simp)] at forward
  unfold produced
  simp only [found, ok_bind, fetch_eq_ok_iff.2 there, arguments_eq fits inside,
    results_eq fits (show i + 1 ≤ tape.size from here), known, List.range'_one, List.map_singleton,
    forward]
  cases op.next (args.map fun a => Series.of (c.along d a) (q + 1)) (.of (c.along d i) q) with
  | error source => rfl
  | ok x =>
    have room : q < (Series.of (c.along d i) (q + 1)).size := by simp
    have stored : store (Series.of (c.along d i) (q + 1)) q x =
        .ok ((Series.of (c.along d i) (q + 1)).set q x) := store_eq_ok_iff.2 ⟨room, rfl⟩
    have read : Series.coeff ((Series.of (c.along d i) (q + 1)).set q x) q = .ok x :=
      fetch_eq_ok_iff.2 (Array.getElem?_set_self room)
    rw [ok_bind, stored]
    show (do return [← Series.coeff ((Series.of (c.along d i) (q + 1)).set q x) q]) = _
    rw [read]
    rfl

end Tape

namespace Evaluator

variable {e : Evaluator B} {q i place : Nat} {args : List Nat} {entry : Entry} {r : Registered B}
  {op : Operation} {pz : Series B}

/-- What an operation passes on. -/
theorem passed_of_operation
    (reads : ∀ v < e.tape.size, e.table.series v q 0 = .ok (.of (e.table.along 0 v) q))
    (here : i < e.tape.size) (operation : entry.operation? = some (op, args))
    (inside : ∀ a ∈ args, a < e.tape.size) :
    e.passed q i entry [pz] =
      (op.pullback (args.map fun a => Series.of (e.table.along 0 a) q)
        (.of (e.table.along 0 i) q) pz q).mapError (.op i op.name) := by
  unfold passed
  cases entry with
  | input | const | call | result => cases operation
  | unary op a =>
    cases operation
    simp only [reads a (inside a (by simp)), reads i here, ok_bind, Operation.pullback,
      List.map_singleton]
    cases op.pullback (.of (e.table.along 0 a) q) (.of (e.table.along 0 i) q) pz (.zeros q) <;> rfl
  | binary op a b =>
    cases operation
    simp only [reads a (inside a (by simp)), reads b (inside b (by simp)), reads i here, ok_bind,
      Operation.pullback, List.map_cons, List.map_nil]
    cases op.pullback (.of (e.table.along 0 a) q) (.of (e.table.along 0 b) q)
      (.of (e.table.along 0 i) q) pz (.zeros q) (.zeros q) <;> rfl

/-- What a call of an atomic that computes an operation passes on. -/
theorem passed_of_computes
    (reads : ∀ v < e.tape.size, e.table.series v q 0 = .ok (.of (e.table.along 0 v) q))
    (positive : q ≠ 0) (here : i < e.tape.size) (there : e.tape.atomics[place]? = some r)
    (computes : r.op.Computes op) (arity : args.length = op.arity)
    (inside : ∀ a ∈ args, a < e.tape.size) (size : pz.size = q) :
    e.passed q i (.call place args 1) [pz] =
      (op.pullback (args.map fun a => Series.of (e.table.along 0 a) q)
        (.of (e.table.along 0 i) q) pz q).mapError (.atomic i r.name) := by
  have given : args.mapM (fun a => e.table.series a q 0) =
      .ok (args.map fun a => Series.of (e.table.along 0 a) q) :=
    mapM_eq_map fun a given => reads a (inside a given)
  have top : q - 1 + 1 = q := Nat.succ_pred_eq_of_ne_zero positive
  have reverse := computes.reverse (q - 1) (args.map fun a => Series.of (e.table.along 0 a) q)
    (.of (e.table.along 0 i) q) pz (by simpa using arity) (by simp [top]) (by simp [top])
    (by rw [top, size])
  rw [top] at reverse
  unfold passed
  simp only [fetch_eq_ok_iff.2 there, given, List.range'_one, List.mapM_cons, List.mapM_nil,
    reads i here, ok_bind]
  exact (congrArg (Tape.answered r i (q - 1)) reverse).trans (Tape.answered_some r i _ _)

end Evaluator

namespace IndexSet

private theorem ext_members {s t : IndexSet} (same : ∀ x, x ∈ s.toList ↔ x ∈ t.toList) : s = t := by
  obtain ⟨xs, increasing⟩ := s
  obtain ⟨ys, increasing'⟩ := t
  obtain rfl : xs = ys := increasing.eq_of_mem_iff increasing' same
  rfl

private theorem unions_singleton (s : IndexSet) : unions [s] = s :=
  ext_members fun x => by simp [mem_unions]

private theorem unions_pair (s t : IndexSet) : unions [s, t] = s.union t :=
  ext_members fun x => by simp [mem_unions, mem_union]

end IndexSet

namespace Tape

variable {tape : Tape B} {i place : Nat} {args : List Nat} {e : Entry} {r : Registered B}
  {op : Operation} {sets : Array IndexSet}

omit [Scalar F] [Base B F] in
/-- What the result of an operation depends on. -/
theorem gather_of_operation (found : tape.entry i = .ok e)
    (operation : e.operation? = some (op, args)) :
    tape.gather sets i = args.mapM (fetch sets) >>= fun given =>
      store sets i (IndexSet.unions given) := by
  unfold gather
  rw [found, ok_bind]
  cases e with
  | input | const | call | result => cases operation
  | unary op a =>
    cases operation
    simp [IndexSet.unions_singleton]
  | binary op a b =>
    cases operation
    simp [IndexSet.unions_pair]

theorem gather_of_computes (found : tape.entry i = .ok (.call place args 1))
    (there : tape.atomics[place]? = some r) (computes : r.op.Computes op) :
    tape.gather sets i = args.mapM (fetch sets) >>= fun given =>
      store sets i (IndexSet.unions given) := by
  unfold gather
  simp only [found, ok_bind, fetch_eq_ok_iff.2 there, computes.forwardSparsity]
  congr 1
  funext given
  exact bind_pure _

omit [Scalar F] [Base B F] in
/-- What an operation feeds its operands with. -/
theorem spread_of_operation (found : tape.entry i = .ok e)
    (operation : e.operation? = some (op, args)) :
    tape.spread sets i = fetch sets i >>= fun s =>
      args.foldlM (fun sets a => joinAt sets a s) sets := by
  unfold spread
  rw [found, ok_bind]
  cases e with
  | input | const | call | result => cases operation
  | unary op a =>
    cases operation
    simp
  | binary op a b =>
    cases operation
    simp

theorem spread_of_computes (found : tape.entry i = .ok (.call place args 1))
    (there : tape.atomics[place]? = some r) (computes : r.op.Computes op)
    (inside : ∀ a ∈ args, a < sets.size) (own : i < sets.size) :
    tape.spread sets i = fetch sets i >>= fun s =>
      args.foldlM (fun sets a => joinAt sets a s) sets := by
  have read : fetch sets i = .ok sets[i] := fetch_eq_ok_iff.2 (Array.getElem?_eq_getElem own)
  unfold spread
  simp only [found, ok_bind, List.range'_one, List.mapM_cons, List.mapM_nil, read, pure_bind,
    List.all_cons, List.all_nil, Bool.and_true, fetch_eq_ok_iff.2 there, computes.reverseSparsity]
  by_cases nothing : sets[i].isEmpty = true
  · -- the operation joins the empty set to its operands, which the call leaves alone
    have empty : sets[i] = .empty :=
      IndexSet.ext_members fun x =>
        iff_of_false (IndexSet.not_mem_of_isEmpty nothing x) (IndexSet.not_mem_empty x)
    have joined : args.foldlM (fun sets a => joinAt sets a .empty) sets = .ok sets := by
      obtain ⟨next, joined, rfl⟩ := foldlM_total (f := fun sets a => joinAt sets a .empty)
        (P := (· = sets))
        (fun a reads _ same => ⟨sets, same ▸ joinAt_empty (same ▸ inside a reads), rfl⟩) rfl
      exact joined
    rw [if_pos nothing, empty, joined]
    rfl
  · have pairs : args.zip (denseSparsity [sets[i]] args.length) = args.map fun a => (a, sets[i]) := by
      rw [denseSparsity, IndexSet.unions_singleton, ← List.map_const']
      have zipped := List.zip_map' (f := fun a => a) (g := fun _ => sets[i]) (l := args)
      rwa [List.map_id'] at zipped
    rw [if_neg nothing, pairs, List.foldlM_map]

end Tape

end TaylorTape
