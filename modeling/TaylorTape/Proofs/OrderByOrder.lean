import TaylorTape.Proofs.Calls
import TaylorTape.Evaluator.Forward

/-!
A call of several orders against calls of one order each.

A built-in atomic may be asked for many orders at once, on blocks that hold them all, or for one
order after another, on blocks that grow with the order and in which each coefficient moves to
another place.  What it computes at an order is the same either way, and so is whether it can; the
partials that it passes back at an order do not depend on how many orders there are beyond it.
-/

set_option autoImplicit false
set_option relaxedAutoImplicit false

namespace TaylorTape

variable {B F : Type}

namespace Block

variable {block block' : Array B} {n m q i k : Nat}

/-- A block of some series without their orders beyond one. -/
def cut (n q k : Nat) (block : Array B) : Array B :=
  join ((List.range n).map fun j => block.extract (place j 0 q) (place j (k + 1) q))

private theorem fillsBlock_extract (size : block.size = n * (q + 1)) (low : k ≤ q) :
    FillsBlock k n
      ((List.range n).map fun j => block.extract (place j 0 q) (place j (k + 1) q)) where
  length := by simp
  orders := List.forall_mem_map.2 fun j member => by
    have inside := place_lt (List.mem_range.1 member) low
    simp only [place] at inside ⊢
    rw [Array.size_extract]
    omega

private theorem size_cut (size : block.size = n * (q + 1)) (low : k ≤ q) :
    (cut n q k block).size = n * (k + 1) :=
  size_join (fillsBlock_extract size low)

private theorem getElem?_cut (size : block.size = n * (q + 1)) (low : k ≤ q) (below : i ≤ k)
    (j : Nat) :
    (cut n q k block)[place j i k]? = block[place j i q]? := by
  by_cases inside : j < n
  · have there := place_lt inside low
    have reached : i < min (place j (k + 1) q) block.size - place j 0 q := by
      simp only [place] at there ⊢
      omega
    have moved : place j 0 q + i = place j i q := by
      simp only [place, Nat.add_zero]
    rw [cut, getElem?_join (fillsBlock_extract size low) below, List.getElem?_map,
      List.getElem?_range inside, Option.map_some, Option.bind_some, Array.getElem?_extract,
      if_pos reached, moved]
  · have beyond : n * (k + 1) ≤ place j i k := le_place (Nat.le_of_not_lt inside) i k
    have beyond' : n * (q + 1) ≤ place j i q := le_place (Nat.le_of_not_lt inside) i q
    rw [Array.getElem?_eq_none ((size_cut size low).trans_le beyond),
      Array.getElem?_eq_none (size.trans_le beyond')]

private theorem eq_cut (size : block.size = n * (q + 1)) (low : k ≤ q)
    (size' : block'.size = n * (k + 1))
    (same : ∀ j < n, ∀ i ≤ k, block'[place j i k]? = block[place j i q]?) :
    block' = cut n q k block :=
  ext_place size' (size_cut size low) fun j inside i below => by
    rw [same j inside i below, getElem?_cut size low below]

private theorem row_cut (size : block.size = n * (q + 1)) (low : k ≤ q) (below : i ≤ k)
    (enough : m ≤ n) :
    row m k (cut n q k block) i = row m q block i := by
  obtain ⟨xs, read⟩ := exists_row (n := m) ((Nat.mul_le_mul_right _ enough).trans size.ge)
    (below.trans low)
  rw [read]
  refine row_eq_ok.2 ⟨(row_eq_ok.1 read).1, fun j inside => ?_⟩
  rw [getElem?_cut size low below, (row_eq_ok.1 read).2 j inside]

end Block

namespace Series

variable {s : Series B} {j k q : Nat}

/-- A series without the orders beyond one. -/
def cut (s : Series B) (k : Nat) : Series B :=
  s.extract 0 (k + 1)

private theorem size_cut (size : s.size = q + 1) (low : k ≤ q) : (s.cut k).size = k + 1 := by
  rw [cut, Array.size_extract, size]
  omega

private theorem getElem?_cut (below : j ≤ k) : (s.cut k)[j]? = s[j]? := by
  rw [cut, Array.getElem?_extract]
  by_cases inside : j < s.size
  · rw [if_pos (by omega), Nat.zero_add]
  · rw [if_neg (by omega), Array.getElem?_eq_none (by omega)]

private theorem cut_toArray (xs : List B) (k : Nat) :
    Series.cut xs.toArray k = (xs.take (k + 1)).toArray := by
  simp [cut]

end Series

/-- An argument or a result without the orders beyond one. -/
def Wire.cut (x : Wire B) (k : Nat) : Wire B :=
  ⟨x.series.cut k, x.isVariable⟩

section Wires

variable {wires : List (Wire B)} {n q k : Nat}

private theorem Wire.flags_cut (wires : List (Wire B)) (k : Nat) :
    Wire.flags (wires.map (·.cut k)) = Wire.flags wires := by
  rw [Wire.flags, List.map_map]
  rfl

private theorem Wire.fillsBlock_cut (filled : FillsBlock q n (wires.map Wire.series))
    (low : k ≤ q) :
    FillsBlock k n ((wires.map (·.cut k)).map Wire.series) where
  length := by simpa using filled.length
  orders := by
    rw [List.map_map]
    exact List.forall_mem_map.2 fun x member =>
      Series.size_cut (filled.orders _ (List.mem_map_of_mem member)) low

private theorem Wire.block_cut (filled : FillsBlock q n (wires.map Wire.series)) (low : k ≤ q) :
    Wire.block (wires.map (·.cut k)) = Block.cut n q k (Wire.block wires) := by
  refine Block.eq_cut (Block.size_join filled) low
    (Block.size_join (Wire.fillsBlock_cut filled low)) fun j _ i below => ?_
  rw [Wire.block, Wire.block, Block.getElem?_join (Wire.fillsBlock_cut filled low) below,
    Block.getElem?_join filled (below.trans low)]
  simp only [List.getElem?_map]
  cases wires[j]? with
  | none => rfl
  | some x => exact Series.getElem?_cut below

end Wires

namespace Atomic

/-- A call of one order, on arguments and results that are cut down to it. -/
def alone (op : Atomic B) (args known : List (Wire B)) (k : Nat) :
    Except Error (Option (List (Wire B))) :=
  op.forward k k (args.map (·.cut k)) (known.map (·.cut k))

/-- Order `k` computed on the blocks cut down to the orders `0, ..., k`. -/
def extendAlone (op : Atomic B) (q k : Nat) (varIn varOut : Array Bool) (tx ty : Array B) :
    Except Error (Option (Array Bool × Array B)) :=
  op.extend k k varIn varOut (Block.cut varIn.size q k tx) (Block.cut varOut.size q k ty)

/-- The marks and the block of the results with an order that a call of that order alone has
computed. -/
def nextOrder (op : Atomic B) (q k : Nat) (varIn : Array Bool) (tx : Array B)
    (results : Array Bool × Array B) : Except Error (Option (Array Bool × Array B)) := do
  match ← op.extendAlone q k varIn results.1 tx results.2 with
  | none => return none
  | some (marks, block) =>
    return some (marks, ← Block.put q k results.2 (← Block.row marks.size k block k))

/-- The results after one call for each of the orders `p, ..., q`, on blocks of growing width. -/
def inTurn (op : Atomic B) (p q : Nat) (varIn varOut : Array Bool) (tx ty : Array B) :
    Except Error (Option (Array Bool × Array B)) :=
  (List.range' p (q + 1 - p)).foldlM
    (fun answer k => answer.elim (pure none) (op.nextOrder q k varIn tx)) (some (varOut, ty))

end Atomic

variable [Scalar F] [Base B F]

namespace BuiltIn

open Block

variable {b : BuiltIn} {p q k : Nat} {varIn varOut : Array Bool} {tx ty px py : Array B}
  {xs : List B}

section Forward

omit [Scalar F] in
private theorem length_rowOf {n : Nat} (done : b.rowOf n q tx k = .ok xs) :
    xs.length = b.count := by
  obtain ⟨x0, _, done⟩ := bind_eq_ok.1 done
  obtain ⟨xk, _, done⟩ := bind_eq_ok.1 done
  exact length_step done

omit [Scalar F] in
private theorem rowOf_cut {n i : Nat} (given : tx.size = n * (q + 1)) (low : k ≤ q)
    (below : i ≤ k) :
    b.rowOf n k (cut n q k tx) i = b.rowOf n q tx i := by
  rw [rowOf, row_cut given low k.zero_le le_rfl, row_cut given low below le_rfl]
  rfl

variable (count : varOut.size = b.count) (given : tx.size = varIn.size * (q + 1))
  (room : ty.size = varOut.size * (q + 1))

include count given

/-- What a call for several orders does: it computes them all and leaves the orders below as they
are, or it fails at an order that cannot be computed. -/
theorem extend_cases (room : ty.size = varOut.size * (q + 1)) (low : p ≤ q) :
    (∃ next, b.atomic.extend p q varIn varOut tx ty = .ok (some (b.marks p varIn varOut, next)) ∧
      next.size = ty.size ∧
      (∀ k < p, ∀ j, next[place j k q]? = ty[place j k q]?) ∧
      ∀ k, p ≤ k → k ≤ q → ∃ xs, b.rowOf varIn.size q tx k = .ok xs ∧
        ∀ j < varOut.size, next[place j k q]? = xs[j]?) ∨
    ∃ k err, p ≤ k ∧ k ≤ q ∧ b.rowOf varIn.size q tx k = .error err ∧
      b.atomic.extend p q varIn varOut tx ty = .error err := by
  rw [extend_eq low given b count]
  have wide (k : Nat) (xs : List B) (_ : p ≤ k) (_ : k ≤ q)
      (done : b.rowOf varIn.size q tx k = .ok xs) : xs.length ≤ varOut.size :=
    ((length_rowOf done).trans count.symm).le
  obtain ⟨next, done, size, kept, each⟩ | ⟨k, err, above, below, failed, refused⟩ :=
    fill_cases room wide
  · refine .inl ⟨next, by rw [done]; rfl, size, fun k below => kept k below (by omega), ?_⟩
    intro k above below
    obtain ⟨xs, computed, here⟩ := each k above below
    refine ⟨xs, computed, fun j inside => ?_⟩
    rw [here, List.getElem?_eq_getElem (by rwa [length_rowOf computed, ← count]), Option.some_or]
  · exact .inr ⟨k, err, above, below, failed, by rw [refused]; rfl⟩

private theorem extendAlone_cases (room : ty.size = varOut.size * (q + 1)) (low : k ≤ q) :
    (∃ block xs, b.atomic.extendAlone q k varIn varOut tx ty =
        .ok (some (b.marks k varIn varOut, block)) ∧
      block.size = varOut.size * (k + 1) ∧ b.rowOf varIn.size q tx k = .ok xs ∧
      row varOut.size k block k = .ok xs) ∨
    ∃ err, b.rowOf varIn.size q tx k = .error err ∧
      b.atomic.extendAlone q k varIn varOut tx ty = .error err := by
  have same := rowOf_cut (b := b) given low le_rfl
  obtain ⟨block, done, size, -, each⟩ | ⟨i, err, above, below, failed, refused⟩ :=
    extend_cases count (size_cut given low) (size_cut room low) (le_refl k)
  · obtain ⟨xs, computed, here⟩ := each k le_rfl le_rfl
    refine .inl ⟨block, xs, done, size.trans (size_cut room low), same ▸ computed, ?_⟩
    exact row_eq_ok.2 ⟨(length_rowOf computed).trans count.symm, here⟩
  · obtain rfl : i = k := by omega
    exact .inr ⟨err, same ▸ failed, refused⟩

omit given in
theorem size_marks (p : Nat) : (b.marks p varIn varOut).size = varOut.size := by
  unfold marks
  split
  · rw [Array.size_replicate, count]
  · rfl

private theorem nextOrder_eq (room : ty.size = varOut.size * (q + 1)) (low : k ≤ q) :
    b.atomic.nextOrder q k varIn tx (varOut, ty) =
      (fun next => some (b.marks k varIn varOut, next)) <$>
        (b.rowOf varIn.size q tx k >>= put q k ty) := by
  obtain ⟨block, xs, done, -, computed, read⟩ | ⟨err, failed, refused⟩ :=
    extendAlone_cases count given room low
  · rw [Atomic.nextOrder, done, ok_bind, computed, ok_bind, map_eq_pure_bind]
    simp only [size_marks count, read, ok_bind]
  · rw [failed, Atomic.nextOrder, refused]
    rfl

private theorem inTurn_eq (room : ty.size = varOut.size * (q + 1)) (low : p ≤ q) :
    b.atomic.inTurn p q varIn varOut tx ty =
      (fun next => some (b.marks p varIn varOut, next)) <$>
        fill p q ty (b.rowOf varIn.size q tx) := by
  obtain ⟨m, apart⟩ := Nat.exists_eq_add_of_le low
  unfold Atomic.inTurn
  rw [show q + 1 - p = m + 1 by omega]
  -- by induction on the number of orders beyond the lowest one
  induction m generalizing p varOut ty with
  | zero =>
    obtain rfl : q = p := apart
    rw [List.range'_one, List.foldlM_cons, Option.elim_some, nextOrder_eq count given room le_rfl,
      fill_single]
    exact bind_pure _
  | succ m ih =>
    rw [List.range'_succ, List.foldlM_cons, Option.elim_some, nextOrder_eq count given room low,
      fill_first low]
    cases computed : b.rowOf varIn.size q tx p with
    | error err => rfl
    | ok xs =>
      have wide : xs.length ≤ varOut.size := ((length_rowOf computed).trans count.symm).le
      obtain ⟨next, done, size, -, -⟩ := put_spec room low wide
      have marked : (b.marks p varIn varOut).size = varOut.size := size_marks count p
      have later : b.marks (p + 1) varIn (b.marks p varIn varOut) = b.marks p varIn varOut :=
        if_neg p.succ_ne_zero
      simp only [ok_bind, done]
      refine (ih (marked.trans count) ((size.trans room).trans (by rw [marked])) (by omega)
        (by omega)).trans ?_
      rw [later]

end Forward

section Backward

variable {n : Nat}

private theorem backOf_cut {i : Nat} (long : tx.size = n * (q + 1))
    (wide : py.size = b.count * (q + 1)) (enough : b.arity n ≤ n) (low : k ≤ q) (below : i ≤ k) :
    b.backOf n k (cut n q k tx) (cut b.count q k py) i = b.backOf n q tx py i := by
  rw [backOf, row_cut long low k.zero_le enough, row_cut wide low below le_rfl]
  rfl

private theorem pull_cut (long : tx.size = n * (q + 1)) (wide : py.size = b.count * (q + 1))
    (room : px.size = n * (q + 1)) (low : k ≤ q) {shares : Array B}
    (done : b.atomic.pull q tx ty px py = .ok (some shares)) :
    shares.size = n * (q + 1) ∧
    b.atomic.pull k (cut n q k tx) (cut b.count q k ty) (cut n q k px) (cut b.count q k py) =
      .ok (some (cut n q k shares)) := by
  by_cases enough : b.arity n ≤ n
  · have short : ∀ i ps, 0 ≤ i → i ≤ q → b.backOf n q tx py i = .ok ps → ps.length ≤ n :=
      fun i ps _ _ passed => (length_backOf passed).trans_le enough
    have short' : ∀ i ps, 0 ≤ i → i ≤ k →
        b.backOf n k (cut n q k tx) (cut b.count q k py) i = .ok ps → ps.length ≤ n :=
      fun i ps _ _ passed => (length_backOf passed).trans_le enough
    rw [pull_eq b enough long wide] at done
    rw [pull_eq b enough (size_cut long low) (size_cut wide low)]
    obtain ⟨next, filled, same⟩ := map_eq_ok.1 done
    obtain rfl := Option.some.inj same
    obtain ⟨_, filled', size, -, each⟩ | ⟨_, err, _, _, _, refused⟩ :=
      fill_cases room short
    · obtain rfl := Except.ok.inj (filled.symm.trans filled')
      obtain ⟨part, cutting, size', -, each'⟩ | ⟨i, err, _, below, failed, _⟩ :=
        fill_cases (size_cut room low) short'
      · rw [cutting]
        refine ⟨size.trans room, congrArg (Except.ok ∘ some) (eq_cut (size.trans room) low
          (size'.trans (size_cut room low)) fun j _ i below => ?_)⟩
        obtain ⟨ps, passed, here⟩ := each i i.zero_le (below.trans low)
        obtain ⟨ps', passed', here'⟩ := each' i i.zero_le below
        rw [backOf_cut long wide enough low below, passed] at passed'
        obtain rfl := Except.ok.inj passed'
        rw [here, here', getElem?_cut room low below]
      · obtain ⟨ps, passed, -⟩ := each i i.zero_le (below.trans low)
        rw [backOf_cut long wide enough low below, passed] at failed
        cases failed
    · rw [refused] at filled
      cases filled
  · obtain ⟨err, refused⟩ := pull_short b (Nat.lt_of_not_le enough) long room
    rw [done] at refused
    cases refused

end Backward

end BuiltIn

section Sweeps

omit [Scalar F] [Base B F]

variable {c : Coefficients B} {q k d : Nat}

private theorem Coefficients.series_cut {v : Nat} {s : Series B} (low : k ≤ q)
    (read : c.series v (q + 1) d = .ok s) : c.series v (k + 1) d = .ok (s.cut k) := by
  obtain ⟨xs, each, last⟩ := bind_eq_ok.1 read
  obtain rfl := pure_eq_ok.1 last
  exact bind_eq_ok.2 ⟨_, mapM_range_take low (fun _ _ => rfl) each,
    congrArg _ (Series.cut_toArray xs k).symm⟩

private theorem Coefficients.size_series {v orders : Nat} {s : Series B}
    (read : c.series v orders d = .ok s) : s.size = orders := by
  obtain ⟨xs, each, last⟩ := bind_eq_ok.1 read
  obtain rfl := pure_eq_ok.1 last
  simpa using length_of_mapM each

namespace Tape

variable {tape : Tape B} {wires known : List (Wire B)}

private theorem arguments_cut {args : List Nat} (low : k ≤ q)
    (read : tape.arguments c args (q + 1) d = .ok wires) :
    tape.arguments c args (k + 1) d = .ok (wires.map (·.cut k)) := by
  refine mapM_eq_ok.2 (List.forall₂_map_right_iff.2 ((mapM_eq_ok.1 read).imp fun a x done => ?_))
  obtain ⟨s, series, done⟩ := bind_eq_ok.1 done
  obtain ⟨entry, found, last⟩ := bind_eq_ok.1 done
  obtain rfl := pure_eq_ok.1 last
  exact bind_eq_ok.2 ⟨_, c.series_cut low series, bind_eq_ok.2 ⟨entry, found, rfl⟩⟩

private theorem fillsBlock_arguments {args : List Nat}
    (read : tape.arguments c args (q + 1) d = .ok wires) :
    FillsBlock q args.length (wires.map Wire.series) where
  length := (List.length_map _).trans (length_of_mapM read)
  orders := List.forall_mem_map.2 fun x member => by
    obtain ⟨a, _, done⟩ := exists_of_mem_mapM read member
    obtain ⟨s, series, done⟩ := bind_eq_ok.1 done
    obtain ⟨entry, _, last⟩ := bind_eq_ok.1 done
    rw [← pure_eq_ok.1 last]
    exact c.size_series series

private theorem results_cut {i n : Nat} (low : k ≤ q) (read : results c i n (q + 1) d = .ok known) :
    results c i n (k + 1) d = .ok (known.map (·.cut k)) := by
  refine mapM_eq_ok.2 (List.forall₂_map_right_iff.2 ((mapM_eq_ok.1 read).imp fun j y done => ?_))
  obtain ⟨s, series, last⟩ := bind_eq_ok.1 done
  obtain rfl := pure_eq_ok.1 last
  exact bind_eq_ok.2 ⟨_, c.series_cut low series, rfl⟩

private theorem fillsBlock_results {i n : Nat} (read : results c i n (q + 1) d = .ok known) :
    FillsBlock q n (known.map Wire.series) where
  length := by simpa using length_of_mapM read
  orders := List.forall_mem_map.2 fun y member => by
    obtain ⟨j, _, done⟩ := exists_of_mem_mapM read member
    obtain ⟨s, series, last⟩ := bind_eq_ok.1 done
    rw [← pure_eq_ok.1 last]
    exact c.size_series series

/-- A call of a tape, to which the arguments and results hand these blocks of the orders up to
`q`. -/
def CallOn (tape : Tape B) (c : Coefficients B) (q d i : Nat) (r : Registered B)
    (varIn varOut : Array Bool) (tx ty : Array B) : Prop :=
  ∃ place args wires known, tape.entry i = .ok (.call place args varOut.size) ∧
    fetch tape.atomics place = .ok r ∧ tape.arguments c args (q + 1) d = .ok wires ∧
    results c i varOut.size (q + 1) d = .ok known ∧
    Wire.flags wires = varIn ∧ Wire.block wires = tx ∧
    Wire.flags known = varOut ∧ Wire.block known = ty

end Tape

end Sweeps

namespace BuiltIn

open Block

variable {b : BuiltIn} {p q k n d : Nat} {tape : Tape B} {c : Coefficients B}
  {wires known : List (Wire B)} {varIn varOut : Array Bool} {tx ty : Array B}

/-- A call of one order alone on arguments and results is that on their blocks, cut down. -/
theorem alone_cases (b : BuiltIn) (low : k ≤ q) (given : FillsBlock q n (wires.map Wire.series))
    (room : FillsBlock q b.count (known.map Wire.series)) :
    (∃ marks block ys xs, b.atomic.extendAlone q k (Wire.flags wires) (Wire.flags known)
        (Wire.block wires) (Wire.block known) = .ok (some (marks, block)) ∧
      b.rowOf n q (Wire.block wires) k = .ok xs ∧ row b.count k block k = .ok xs ∧
      b.atomic.alone wires known k = .ok (some ys) ∧ ys.length = b.count ∧
      Wire.coeffs ys k = .ok xs) ∨
    ∃ err, b.atomic.extendAlone q k (Wire.flags wires) (Wire.flags known) (Wire.block wires)
        (Wire.block known) = .error err ∧ b.atomic.alone wires known k = .error err := by
  have arity := Wire.size_flags given
  have count := Wire.size_flags room
  have same : b.atomic.extend k k (Wire.flags (wires.map (·.cut k)))
      (Wire.flags (known.map (·.cut k))) (Wire.block (wires.map (·.cut k)))
      (Wire.block (known.map (·.cut k))) = b.atomic.extendAlone q k (Wire.flags wires)
        (Wire.flags known) (Wire.block wires) (Wire.block known) := by
    rw [Atomic.extendAlone, arity, count, Wire.flags_cut, Wire.flags_cut, Wire.block_cut given low,
      Wire.block_cut room low]
  have length : (known.map (·.cut k)).length = b.count := by simpa using room.length
  simp only [Atomic.alone, Atomic.forward, same, length]
  obtain ⟨block, xs, done, size, computed, read⟩ | ⟨err, -, refused⟩ :=
    extendAlone_cases count (Wire.size_block given) (Wire.size_block room) low
  · rw [arity] at computed
    rw [count] at size read
    have marked : (b.marks k (Wire.flags wires) (Wire.flags known)).size = b.count :=
      (size_marks count k).trans count
    obtain ⟨ys, back, filled, own, -⟩ := Wire.exists_of_block size marked
    refine .inl ⟨_, block, ys, xs, done, computed, read, ?_, by simpa using filled.length, ?_⟩
    · rw [done]
      exact bind_eq_ok.2 ⟨_, rfl, bind_eq_ok.2 ⟨ys, back, rfl⟩⟩
    · rw [← own, Wire.block, row_join filled le_rfl, List.mapM_map] at read
      exact read
  · exact .inr ⟨err, refused, by rw [refused]; rfl⟩

private theorem produced_alone {i : Nat} {r : Registered B} (low : k ≤ q)
    (count : varOut.size = b.count)
    (call : tape.CallOn c q d i r varIn varOut tx ty) (built : r.op = b.atomic) (seed : List B) :
    tape.produced c k d seed i = (do
      let (_, block) ← Tape.answered r i k (b.atomic.extendAlone q k varIn varOut tx ty)
      row varOut.size k block k) := by
  obtain ⟨place, args, wires, known, found, there, given, room, rfl, rfl, same, rfl⟩ := call
  have filled := Tape.fillsBlock_arguments given
  have filled' := Tape.fillsBlock_results room
  rw [count] at found room filled'
  have call : b.atomic.forward k k (wires.map (·.cut k)) (known.map (·.cut k)) =
      b.atomic.alone wires known k := rfl
  simp only [Tape.produced, found, ok_bind, there, Tape.arguments_cut low given,
    Tape.results_cut low room, built, call]
  rw [← same] at count ⊢
  obtain ⟨marks, block, ys, xs, done, -, read, answer, length, own⟩ | ⟨err, refused, refused'⟩ :=
    b.alone_cases low filled filled'
  · have each := mapM_bind (mapM_pick ys) fun y => y.series.coeff k
    rw [length] at each
    rw [done, answer, count]
    exact each.trans (own.trans read.symm)
  · rw [refused, refused']
    rfl

/-- A built-in treats orders independently.  On blocks of the orders up to `q`, a call of the orders
`p, ..., q` leaves those below as they are and computes each of the others as a call of that order
alone does on the blocks cut down to it, where each coefficient stands at another place; it fails if
and only if one of these calls fails, and it comes to the same as making them one after another.
What is passed back of an order does not depend on the orders beyond it.  The calls that sweeps make
are those of one order alone. -/
theorem orders_independent (b : BuiltIn) (low : p ≤ q)
    (count : varOut.size = (b.atomic : Atomic B).numResults varIn.size)
    (given : tx.size = varIn.size * (q + 1)) (room : ty.size = varOut.size * (q + 1)) :
    (∀ marks next, b.atomic.extend p q varIn varOut tx ty = .ok (some (marks, next)) →
      next.size = ty.size ∧
      (∀ k < p, ∀ j < varOut.size, next[place j k q]? = ty[place j k q]?) ∧
      ∀ k, p ≤ k → k ≤ q → ∃ marks' block,
        b.atomic.extendAlone q k varIn varOut tx ty = .ok (some (marks', block)) ∧
        ∀ j < varOut.size, ∃ v, next[place j k q]? = some v ∧ block[place j k k]? = some v) ∧
    ((∃ err, b.atomic.extend p q varIn varOut tx ty = .error err) ↔
      ∃ k err, p ≤ k ∧ k ≤ q ∧ b.atomic.extendAlone q k varIn varOut tx ty = .error err) ∧
    b.atomic.extend p q varIn varOut tx ty ≠ .ok none ∧
    b.atomic.extend p q varIn varOut tx ty = b.atomic.inTurn p q varIn varOut tx ty ∧
    (∀ (ys px py shares : Array B), px.size = varIn.size * (q + 1) →
      py.size = varOut.size * (q + 1) → b.atomic.pull q tx ys px py = .ok (some shares) →
      ∀ k ≤ q, ∃ part, b.atomic.pull k (cut varIn.size q k tx) (cut varOut.size q k ys)
          (cut varIn.size q k px) (cut varOut.size q k py) = .ok (some part) ∧
        ∀ j < varIn.size, ∀ i ≤ k, ∃ v,
          shares[place j i q]? = some v ∧ part[place j i k]? = some v) ∧
    ∀ (tape : Tape B) c d i r seed, tape.CallOn c q d i r varIn varOut tx ty → r.op = b.atomic →
      ∀ k ≤ q, tape.produced c k d seed i = (do
        let (_, block) ← Tape.answered r i k (b.atomic.extendAlone q k varIn varOut tx ty)
        row varOut.size k block k) := by
  rw [numResults_atomic] at count
  have cases := extend_cases count given room low
  have alone {k : Nat} (low : k ≤ q) := extendAlone_cases count given room low
  refine ⟨fun marks next done => ?_, ⟨?_, ?_⟩, fun declined => ?_, ?_, ?_, ?_⟩
  · obtain ⟨next', done', size, kept, each⟩ | ⟨_, err, _, _, _, refused⟩ := cases
    · obtain ⟨rfl, rfl⟩ := Prod.mk.inj (Option.some.inj (Except.ok.inj (done.symm.trans done')))
      refine ⟨size, fun k below j _ => kept k below j, fun k above below => ?_⟩
      obtain ⟨xs, computed, here⟩ := each k above below
      obtain ⟨block, xs', done', -, computed', own⟩ | ⟨err, failed, -⟩ := alone below
      · obtain rfl := Except.ok.inj (computed.symm.trans computed')
        refine ⟨_, block, done', fun j inside => ?_⟩
        obtain ⟨length, read⟩ := row_eq_ok.1 own
        have there : xs[j]? = some xs[j] := List.getElem?_eq_getElem (length ▸ inside)
        exact ⟨xs[j], (here j inside).trans there, (read j inside).trans there⟩
      · rw [computed] at failed
        cases failed
    · rw [refused] at done
      cases done
  · rintro ⟨err, refused⟩
    obtain ⟨_, done, _⟩ | ⟨k, err', above, below, failed, _⟩ := cases
    · rw [done] at refused
      cases refused
    · obtain ⟨_, _, _, _, computed, _⟩ | ⟨err'', _, refused'⟩ := alone below
      · rw [failed] at computed
        cases computed
      · exact ⟨k, err'', above, below, refused'⟩
  · rintro ⟨k, err, above, below, refused⟩
    obtain ⟨_, _, _, _, each⟩ | ⟨_, err', _, _, _, refused'⟩ := cases
    · obtain ⟨xs, computed, _⟩ := each k above below
      obtain ⟨_, _, done, _⟩ | ⟨err', failed, _⟩ := alone below
      · rw [done] at refused
        cases refused
      · rw [computed] at failed
        cases failed
    · exact ⟨err', refused'⟩
  · obtain ⟨_, done, _⟩ | ⟨_, err, _, _, _, refused⟩ := cases
    · rw [done] at declined
      cases declined
    · rw [refused] at declined
      cases declined
  · rw [inTurn_eq count given room low, extend_eq low given b count]
  · intro ys px py shares emptied weighted done k below
    rw [count] at weighted ⊢
    obtain ⟨size, passed⟩ := pull_cut (n := varIn.size) given weighted emptied below done
    refine ⟨_, passed, fun j inside i low' => ?_⟩
    have there := Array.getElem?_eq_getElem (size ▸ place_lt inside (low'.trans below))
    exact ⟨_, there, (getElem?_cut size below low' j).trans there⟩
  · exact fun tape c d i r seed call built k below => produced_alone below count call built seed

/-- Two elements taken apart at the orders one and two, of which the second is a scalar that stands
for both.  The second element of order one stands at the place 4, and at 3 in the call of order one
alone, which is the call that a sweep through order one makes. -/
theorem orders_independent_unpack :
    ∃ (next block : Array (Value Float)) (marks marks' : Array Bool),
      (unpack 2).atomic.extend 1 2 #[true] #[true, true]
        #[.array [1, 2], .array [3, 4], .scalar 5]
        #[.scalar 1, .scalar 0, .scalar 0, .scalar 2, .scalar 0, .scalar 0] =
          .ok (some (marks, next)) ∧
      (unpack 2).atomic.extendAlone 2 1 #[true] #[true, true]
        #[.array [1, 2], .array [3, 4], .scalar 5]
        #[.scalar 1, .scalar 0, .scalar 0, .scalar 2, .scalar 0, .scalar 0] =
          .ok (some (marks', block)) ∧
      (∃ v, next[4]? = some v ∧ block[3]? = some v) ∧
      ∃ (tape : Tape (Value Float)) (c : Coefficients (Value Float)) (r : Registered (Value Float)),
        tape.CallOn c 2 0 1 r #[true] #[true, true]
          #[.array [1, 2], .array [3, 4], .scalar 5]
          #[.scalar 1, .scalar 0, .scalar 0, .scalar 2, .scalar 0, .scalar 0] ∧
        tape.produced c 1 0 [] 1 = row 2 1 block 1 := by
  have count : (#[true, true] : Array Bool).size =
      ((unpack 2).atomic : Atomic (Value Float)).numResults (#[true] : Array Bool).size := rfl
  have given : (#[.array [1, 2], .array [3, 4], .scalar 5] : Array (Value Float)).size =
      (#[true] : Array Bool).size * (2 + 1) := rfl
  have room : (#[.scalar 1, .scalar 0, .scalar 0, .scalar 2, .scalar 0, .scalar 0] :
      Array (Value Float)).size = (#[true, true] : Array Bool).size * (2 + 1) := rfl
  obtain ⟨computed, _, _, _, _, called⟩ := orders_independent (unpack 2) one_le_two count given room
  obtain ⟨_, _, each⟩ := computed #[true, true]
    #[.scalar 1, .scalar 3, .scalar 5, .scalar 2, .scalar 4, .scalar 5] rfl
  obtain ⟨marks', block, alone, here⟩ := each 1 le_rfl one_le_two
  let tape : Tape (Value Float) := {
    id := 7
    nodes := #[⟨.input, .array [1, 2]⟩, ⟨.call 0 [0] 2, .scalar 1⟩, ⟨.result 1, .scalar 2⟩]
    numInputs := 1
    atomics := #[⟨4, "unpack[2]", (unpack 2).atomic⟩] }
  let c : Coefficients (Value Float) := {
    cells := #[.array [1, 2], .array [3, 4], .scalar 5,
      .scalar 1, .scalar 0, .scalar 0, .scalar 2, .scalar 0, .scalar 0]
    numVariables := 3
    capacity := 3
    numOrders := 3
    numDirections := 1 }
  have call : tape.CallOn c 2 0 1 ⟨4, "unpack[2]", (unpack 2).atomic⟩ #[true] #[true, true]
      #[.array [1, 2], .array [3, 4], .scalar 5]
      #[.scalar 1, .scalar 0, .scalar 0, .scalar 2, .scalar 0, .scalar 0] :=
    ⟨0, [0], [⟨#[.array [1, 2], .array [3, 4], .scalar 5], true⟩],
      [⟨#[.scalar 1, .scalar 0, .scalar 0], true⟩, ⟨#[.scalar 2, .scalar 0, .scalar 0], true⟩],
      rfl, rfl, rfl, rfl, rfl, rfl, rfl, rfl⟩
  have swept := called tape c 0 1 _ [] call rfl 1 one_le_two
  rw [alone] at swept
  exact ⟨_, block, _, marks', rfl, alone, here 1 (by decide), tape, c, _, call, swept⟩

end BuiltIn

end TaylorTape
