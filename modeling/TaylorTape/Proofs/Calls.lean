import TaylorTape.Proofs.BuiltIn
import TaylorTape.Proofs.Layout

/-!
The built-in atomics on blocks.

On blocks of the right size a built-in fills one order after another with what its rule gives for
that order, wherever the block has its places.  A sweep lays series out as blocks and takes them
apart again, so its calls follow the rules as well.
-/

set_option autoImplicit false
set_option relaxedAutoImplicit false

namespace TaylorTape

variable {B F : Type} [Scalar F] [Base B F]

namespace BuiltIn

section Extend

open Block

variable {b : BuiltIn} {p q : Nat} {varIn varOut : Array Bool} {tx ty : Array B}

private theorem extend_of_arity_ne (wrong : varIn.size ≠ b.arity varIn.size) :
    b.atomic.extend p q varIn varOut tx ty =
      .error (.shapeMismatch b.context (b.arity varIn.size) varIn.size) := by
  cases b with
  | pack => exact absurd rfl wrong
  | sum | concat | flip | make | unpack => exact if_pos wrong

/-- Which results are variables once their orders from `p` on are computed: at order zero all are if
some argument is, and otherwise those that have been. -/
def marks (b : BuiltIn) (p : Nat) (varIn varOut : Array Bool) : Array Bool :=
  if p = 0 then Array.replicate b.count (varIn.any id) else varOut

/-- The results' coefficients of an order, from the block of the arguments. -/
def rowOf (b : BuiltIn) (n q : Nat) (tx : Array B) (k : Nat) : Except Error (List B) := do
  b.step (← row n q tx 0) (← row n q tx k)

omit [Scalar F] [Base B F] in
private theorem mark_eq {flag : Bool} (one : b.count = 1) (single : varOut.size = 1)
    (same : flag = varIn.any id) : Atomic.mark p varOut flag = .ok (b.marks p varIn varOut) := by
  unfold Atomic.mark marks
  by_cases zero : p = 0
  · obtain ⟨old, rfl⟩ := Array.size_eq_one_iff.1 single
    rw [if_pos zero, if_pos zero, one, ← same]
    rfl
  · rw [if_neg zero, if_neg zero]

omit [Scalar F] [Base B F] in
private theorem exists_fetch {j n k : Nat} (given : tx.size = n * (q + 1)) (inside : j < n)
    (low : k ≤ q) : ∃ x, fetch tx (place j k q) = .ok x :=
  ⟨_, fetch_eq_ok_iff.2 (Array.getElem?_eq_getElem (given ▸ place_lt inside low))⟩

omit [Scalar F] [Base B F] in
private theorem exists_fetch_one {k : Nat} (given : tx.size = 1 * (q + 1)) (low : k ≤ q) :
    ∃ x, fetch tx k = .ok x :=
  place_zero k q ▸ exists_fetch given Nat.one_pos low

variable (low : p ≤ q) (given : tx.size = varIn.size * (q + 1))

section OneArgument

variable (one : varIn.size = 1)
include given one

omit [Scalar F] in
private theorem extend_sum (single : varOut.size = 1) : Atomic.sum.extend p q varIn varOut tx ty =
      (fun block => some (sum.marks p varIn varOut, block)) <$> fill p q ty (sum.rowOf 1 q tx) := by
  obtain ⟨flag, rfl⟩ := Array.size_eq_one_iff.1 one
  obtain ⟨x0, first⟩ := exists_fetch_one given q.zero_le
  have marked : Atomic.mark p varOut flag = .ok (sum.marks p #[flag] varOut) :=
    mark_eq rfl single (by simp)
  show (Atomic.mark p varOut flag >>= _) = _
  rw [marked, ok_bind, first, ok_bind, map_eq_pure_bind]
  refine fill_bind_congr (fun k _ low => ?_) _
  obtain ⟨x, current⟩ := exists_fetch_one given low
  simp only [rowOf, row_one, first, current]
  rfl

omit [Scalar F] in
private theorem extend_flip (single : varOut.size = 1) :
    Atomic.flip.extend p q varIn varOut tx ty =
      (fun block => some (flip.marks p varIn varOut, block)) <$> fill p q ty (flip.rowOf 1 q tx) := by
  obtain ⟨flag, rfl⟩ := Array.size_eq_one_iff.1 one
  obtain ⟨x0, first⟩ := exists_fetch_one given q.zero_le
  have marked : Atomic.mark p varOut flag = .ok (flip.marks p #[flag] varOut) :=
    mark_eq rfl single (by simp)
  show (Atomic.mark p varOut flag >>= _) = _
  rw [marked, ok_bind, map_eq_pure_bind]
  refine fill_bind_congr (fun k _ low => ?_) _
  obtain ⟨x, current⟩ := exists_fetch_one given low
  simp only [rowOf, row_one, first, current, ← turned_eq]
  rfl

private theorem extend_make (n : Nat) (single : varOut.size = 1) :
    (Atomic.make n).extend p q varIn varOut tx ty =
      (fun block => some ((make n).marks p varIn varOut, block)) <$>
        fill p q ty ((make n).rowOf 1 q tx) := by
  obtain ⟨flag, rfl⟩ := Array.size_eq_one_iff.1 one
  obtain ⟨x0, first⟩ := exists_fetch_one given q.zero_le
  have marked : Atomic.mark p varOut flag = .ok ((make n).marks p #[flag] varOut) :=
    mark_eq rfl single (by simp)
  show (Atomic.mark p varOut flag >>= _) = _
  rw [marked, ok_bind, map_eq_pure_bind]
  refine fill_bind_congr (fun k _ low => ?_) _
  obtain ⟨x, current⟩ := exists_fetch_one given low
  simp only [rowOf, row_one, first, current]
  rfl

include low

private theorem extend_unpack (n : Nat) (single : varOut.size = n) :
    (Atomic.unpack n).extend p q varIn varOut tx ty =
      (fun block => some ((unpack n).marks p varIn varOut, block)) <$>
        fill p q ty ((unpack n).rowOf 1 q tx) := by
  obtain ⟨flag, rfl⟩ := Array.size_eq_one_iff.1 one
  obtain ⟨x0, first⟩ := exists_fetch_one given q.zero_le
  have marked : (if p = 0 then varOut.map fun _ => flag else varOut) =
      (unpack n).marks p #[flag] varOut := by
    unfold marks
    refine if_congr Iff.rfl ?_ rfl
    rw [Array.map_const', single]
    simp [count]
  have row {k : Nat} {x : B} (current : fetch tx k = .ok x) : (unpack n).rowOf 1 q tx k =
      (unpack n).step [x0] [x] := by
    simp only [rowOf, row_one, first, current]
    rfl
  show (fetch tx 0 >>= _) = _
  rw [first, ok_bind]
  by_cases fits : Base.length x0 = n
  · have read : fetch #[flag] 0 = .ok flag := rfl
    refine (if_neg (not_not.2 fits)).trans ?_
    simp only [read, ok_bind, marked, map_eq_pure_bind]
    refine fill_bind_congr (fun k _ low => ?_) _
    obtain ⟨x, current⟩ := exists_fetch_one given low
    rw [row current, current]
    exact (if_pos fits).symm
  · obtain ⟨x, current⟩ := exists_fetch_one given low
    rw [fill_error low ((row current).trans (if_neg fits))]
    exact if_pos fits

end OneArgument

include given

private theorem extend_concat (two : varIn.size = 2) (single : varOut.size = 1) :
    Atomic.concat.extend p q varIn varOut tx ty =
      (fun block => some (concat.marks p varIn varOut, block)) <$>
        fill p q ty (concat.rowOf 2 q tx) := by
  obtain ⟨flags⟩ := varIn
  obtain ⟨flag, flag', rfl⟩ := List.length_eq_two.1 two
  obtain ⟨x0, first⟩ := exists_fetch given (j := 0) (by simp) q.zero_le
  obtain ⟨y0, first'⟩ := exists_fetch given (j := 1) (by simp) q.zero_le
  have marked : Atomic.mark p varOut (flag || flag') = .ok (concat.marks p #[flag, flag'] varOut) :=
    mark_eq rfl single (by simp)
  show (Atomic.mark p varOut (flag || flag') >>= _) = _
  rw [marked, ok_bind, first, ok_bind, first', ok_bind, map_eq_pure_bind]
  refine fill_bind_congr (fun k _ low => ?_) _
  obtain ⟨x, current⟩ := exists_fetch given (j := 0) (by simp) low
  obtain ⟨y, current'⟩ := exists_fetch given (j := 1) (by simp) low
  simp only [rowOf, row_two, first, first', current, current']
  rfl

omit [Scalar F] in
private theorem extend_pack (single : varOut.size = 1) : Atomic.pack.extend p q varIn varOut tx ty =
      (fun block => some (pack.marks p varIn varOut, block)) <$>
        fill p q ty (pack.rowOf varIn.size q tx) := by
  have marked : Atomic.mark p varOut (varIn.any id) = .ok (pack.marks p varIn varOut) :=
    mark_eq rfl single rfl
  show (Atomic.mark p varOut (varIn.any id) >>= _) = _
  rw [marked, ok_bind, map_eq_pure_bind]
  refine fill_bind_congr (fun k _ low => ?_) _
  obtain ⟨x0, first⟩ := exists_row given.ge q.zero_le
  obtain ⟨xk, current⟩ := exists_row given.ge low
  rw [mapM_bind current, rowOf, first, ok_bind, current, ok_bind]
  rfl

include low

/-- On blocks of the right size a built-in computes one order after another, each from that order of
the arguments and their shapes. -/
theorem extend_eq (b : BuiltIn) (single : varOut.size = b.count) :
    b.atomic.extend p q varIn varOut tx ty = (fun block => some (b.marks p varIn varOut, block)) <$>
      fill p q ty (b.rowOf varIn.size q tx) := by
  by_cases many : varIn.size = b.arity varIn.size
  · cases b with
    | sum => exact many ▸ extend_sum given many single
    | concat => exact many ▸ extend_concat given many single
    | flip => exact many ▸ extend_flip given many single
    | pack => exact extend_pack given single
    | make n => exact many ▸ extend_make given many n single
    | unpack n => exact many ▸ extend_unpack low given many n single
  · obtain ⟨x0, first⟩ := exists_row given.ge q.zero_le
    obtain ⟨xp, current⟩ := exists_row given.ge low
    have length := (row_eq_ok.1 first).1
    have refused : b.rowOf varIn.size q tx p =
        .error (.shapeMismatch b.context (b.arity varIn.size) varIn.size) := by
      rw [rowOf, first, ok_bind, current, ok_bind, step_of_arity_ne (by rwa [length]), length]
    rw [extend_of_arity_ne many, fill_error low refused]
    rfl

end Extend

section Pull

open Block

variable {b : BuiltIn} {q n : Nat} {tx ty px py : Array B}

/-- The partials of an order that the arguments receive, from the blocks of the arguments and of the
partials. -/
def backOf (b : BuiltIn) (n q : Nat) (tx py : Array B) (k : Nat) : Except Error (List B) := do
  b.back (← row (b.arity n) q tx 0) (← row b.count q py k)

theorem length_backOf {k : Nat} {ps : List B} (passed : b.backOf n q tx py k = .ok ps) :
    ps.length = b.arity n := by
  obtain ⟨x0, first, rest⟩ := bind_eq_ok.1 passed
  obtain ⟨ws, _, back⟩ := bind_eq_ok.1 rest
  rw [length_back back, (row_eq_ok.1 first).1]

private theorem pull_sum (given : 1 ≤ n) (long : tx.size = n * (q + 1))
    (wide : py.size = 1 * (q + 1)) :
    Atomic.sum.pull q tx ty px py = some <$> fill 0 q px (sum.backOf n q tx py) := by
  obtain ⟨x0, first⟩ := exists_fetch long given q.zero_le
  show (fetch tx (place 0 0 q) >>= _) = _
  rw [first, ok_bind, map_eq_pure_bind]
  refine fill_bind_congr (fun k _ low => ?_) _
  obtain ⟨w, current⟩ := exists_fetch_one wide low
  rw [place_zero] at first
  simp only [backOf, arity, count, row_one, first, current]
  rfl

private theorem pull_concat (given : 2 ≤ n) (long : tx.size = n * (q + 1))
    (wide : py.size = 1 * (q + 1)) :
    Atomic.concat.pull q tx ty px py = some <$> fill 0 q px (concat.backOf n q tx py) := by
  obtain ⟨x0, first⟩ := exists_fetch long (j := 0) (by omega) q.zero_le
  obtain ⟨y0, first'⟩ := exists_fetch long (j := 1) (by omega) q.zero_le
  show (fetch tx (place 0 0 q) >>= _) = _
  rw [first, ok_bind, first', ok_bind, map_eq_pure_bind]
  refine fill_bind_congr (fun k _ low => ?_) _
  obtain ⟨w, current⟩ := exists_fetch_one wide low
  simp only [backOf, arity, count, row_one, row_two, first, first', current]
  change Base.expand _ _ _ >>= _ = Base.expand _ _ _ >>= _
  refine bind_congr_ok fun elems expanded => ?_
  have enough : Base.length x0 ≤ elems.length := by
    rw [length_expand expanded]
    exact Nat.le_add_right _ _
  rw [splitOff, if_pos enough]
  rfl

private theorem pull_flip (given : 1 ≤ n) (long : tx.size = n * (q + 1))
    (wide : py.size = 1 * (q + 1)) :
    Atomic.flip.pull q tx ty px py = some <$> fill 0 q px (flip.backOf n q tx py) := by
  obtain ⟨x0, first⟩ := exists_fetch long given q.zero_le
  rw [map_eq_pure_bind]
  refine fill_bind_congr (fun k _ low => ?_) _
  obtain ⟨w, current⟩ := exists_fetch_one wide low
  rw [place_zero] at first
  simp only [backOf, arity, count, row_one, first, current, ← turned_eq]
  rfl

private theorem pull_pack (long : tx.size = n * (q + 1)) (wide : py.size = 1 * (q + 1)) :
    Atomic.pack.pull q tx ty px py = some <$> fill 0 q px (pack.backOf n q tx py) := by
  have full : tx.size / (q + 1) = n := by rw [long, Nat.mul_div_cancel _ q.succ_pos]
  show (fill 0 q px _ >>= _) = _
  rw [full, map_eq_pure_bind]
  refine fill_bind_congr (fun k _ low => ?_) _
  obtain ⟨xs, first⟩ := exists_row long.ge q.zero_le
  obtain ⟨w, current⟩ := exists_fetch_one wide low
  obtain ⟨rfl, -⟩ := row_eq_ok.1 first
  simp only [backOf, arity, count, row_one, first, current]
  rfl

private theorem pull_make (m : Nat) (given : 1 ≤ n) (long : tx.size = n * (q + 1))
    (wide : py.size = 1 * (q + 1)) :
    (Atomic.make m).pull q tx ty px py = some <$> fill 0 q px ((make m).backOf n q tx py) := by
  obtain ⟨x0, first⟩ := exists_fetch long given q.zero_le
  rw [map_eq_pure_bind]
  refine fill_bind_congr (fun k _ low => ?_) _
  obtain ⟨w, current⟩ := exists_fetch_one wide low
  rw [place_zero] at first
  simp only [backOf, arity, count, row_one, first, current]
  rfl

private theorem pull_unpack (m : Nat) (given : 1 ≤ n) (long : tx.size = n * (q + 1))
    (wide : py.size = m * (q + 1)) :
    (Atomic.unpack m).pull q tx ty px py = some <$> fill 0 q px ((unpack m).backOf n q tx py) := by
  obtain ⟨x0, first⟩ := exists_fetch long given q.zero_le
  rw [map_eq_pure_bind]
  refine fill_bind_congr (fun k _ low => ?_) _
  obtain ⟨ws, current⟩ := exists_row wide.ge low
  rw [place_zero] at first
  simp only [backOf, arity, count, row_one, first, current, mapM_bind current]
  rfl

theorem pull_eq (b : BuiltIn) (enough : b.arity n ≤ n) (long : tx.size = n * (q + 1))
    (wide : py.size = b.count * (q + 1)) :
    b.atomic.pull q tx ty px py = some <$> fill 0 q px (b.backOf n q tx py) := by
  cases b with
  | sum => exact pull_sum enough long wide
  | concat => exact pull_concat enough long wide
  | flip => exact pull_flip enough long wide
  | pack => exact pull_pack long wide
  | make m => exact pull_make m enough long wide
  | unpack m => exact pull_unpack m enough long wide

private theorem fill_homeless {rule : Nat → Except Error (List B)} (room : px.size = 0)
    (some_ : ∀ xs, rule 0 = .ok xs → xs ≠ []) :
    ∃ err, fill 0 q px rule >>= (fun px => pure (some px)) = .error err := by
  rw [fill_first q.zero_le]
  cases given : rule 0 with
  | error err => exact ⟨err, rfl⟩
  | ok xs =>
    obtain ⟨x, xs, rfl⟩ := List.exists_cons_of_ne_nil (some_ xs given)
    have none : ¬ place 0 0 q < px.size := by omega
    refine ⟨.indexOutOfRange (place 0 0 q) px.size, ?_⟩
    have lost : put q 0 px (x :: xs) = .error (.indexOutOfRange (place 0 0 q) px.size) := by
      have missed : store px (place 0 0 q) x = .error (.indexOutOfRange (place 0 0 q) px.size) :=
        dif_neg none
      rw [put, List.zipIdx_cons, List.foldlM_cons]
      exact congrArg (· >>= _) missed
    rw [ok_bind, lost]
    rfl

/-- Without the arguments that a built-in works on there is no place for their partials. -/
theorem pull_short (b : BuiltIn) (short : n < b.arity n) (long : tx.size = n * (q + 1))
    (room : px.size = n * (q + 1)) : ∃ err, b.atomic.pull q tx ty px py = .error err := by
  have lacking {j : Nat} (none : n ≤ j) : fetch tx (place j 0 q) =
      .error (.indexOutOfRange (place j 0 q) tx.size) := by
    have beyond : tx[place j 0 q]? = .none := Array.getElem?_eq_none (long ▸ le_place none 0 q)
    rw [fetch, beyond]
  have empty (none : n < 1) : px.size = 0 := by simp [room, Nat.lt_one_iff.1 none]
  cases b with
  | pack => exact absurd short (lt_irrefl n)
  | sum =>
    refine ⟨.indexOutOfRange (place 0 0 q) tx.size, ?_⟩
    show (fetch tx (place 0 0 q) >>= _) = _
    rw [lacking (Nat.le_of_lt_succ short)]
    rfl
  | concat =>
    cases first : fetch tx (place 0 0 q) with
    | error err =>
      refine ⟨err, ?_⟩
      show (fetch tx (place 0 0 q) >>= _) = _
      rw [first]
      rfl
    | ok x0 =>
      refine ⟨.indexOutOfRange (place 1 0 q) tx.size, ?_⟩
      show (fetch tx (place 0 0 q) >>= _) = _
      rw [first, ok_bind, lacking (Nat.le_of_lt_succ short)]
      rfl
  | flip =>
    refine fill_homeless (empty short) fun xs given => ?_
    obtain ⟨w, _, given⟩ := bind_eq_ok.1 given
    obtain ⟨v, _, given⟩ := bind_eq_ok.1 given
    exact pure_eq_ok.1 given ▸ List.cons_ne_nil _ _
  | make m =>
    refine fill_homeless (empty short) fun xs given => ?_
    obtain ⟨w, _, given⟩ := bind_eq_ok.1 given
    split at given
    · exact pure_eq_ok.1 given ▸ List.cons_ne_nil _ _
    · split at given
      · exact pure_eq_ok.1 given ▸ List.cons_ne_nil _ _
      · cases given
  | unpack m =>
    refine fill_homeless (empty short) fun xs given => ?_
    obtain ⟨elems, _, given⟩ := bind_eq_ok.1 given
    obtain ⟨x0, _, given⟩ := bind_eq_ok.1 given
    obtain ⟨v, _, given⟩ := bind_eq_ok.1 given
    exact pure_eq_ok.1 given ▸ List.cons_ne_nil _ _

end Pull

end BuiltIn

/-- A result with one coefficient computed; whether it is a variable is settled at order zero. -/
def Wire.extend (y : Wire B) (q : Nat) (isVariable : Bool) (v : B) : Wire B :=
  ⟨y.series.setIfInBounds q v, if q = 0 then isVariable else y.isVariable⟩

/-- The coefficients of an order of some arguments. -/
def Wire.coeffs (args : List (Wire B)) (k : Nat) : Except Error (List B) :=
  args.mapM fun x => x.series.coeff k

namespace BuiltIn

section Forward

variable {q : Nat} {args known : List (Wire B)} {x0 xq : List B}

/-- The results of a call with one coefficient computed. -/
def extendAll (q : Nat) (args known : List (Wire B)) (ys : List B) : Option (List (Wire B)) :=
  some (List.zipWith (fun y v => y.extend q (args.any Wire.isVariable) v) known ys)

omit [Scalar F] [Base B F] in
private theorem read_back {n : Nat} {wires : List (Wire B)} {marks : Array Bool}
    (filled : FillsBlock q n (wires.map Wire.series))
    (marked : ∀ i (inside : i < wires.length), marks[i]? = some wires[i].isVariable) :
    (List.range n).mapM (fun i => do
      return (⟨← Block.series q (Wire.block wires) i, ← fetch marks i⟩ : Wire B)) = .ok wires := by
  have count : wires.length = n := by simpa using filled.length
  refine mapM_eq_ok.2 (List.forall₂_iff_get.2 ⟨by simp [count], fun i _ inside => ?_⟩)
  have found : (wires.map Wire.series)[i]? = some wires[i].series := by
    rw [List.getElem?_map, List.getElem?_eq_getElem inside]
    rfl
  rw [List.get_eq_getElem, List.getElem_range, Wire.block, Block.series_join filled found, ok_bind,
    fetch_eq_ok_iff.2 (marked i inside)]
  rfl

omit [Scalar F] [Base B F] in
private theorem zipWith_extend (q : Nat) (flag : Bool) (known : List (Wire B)) (ys : List B) :
    List.zipWith (fun s v => Array.setIfInBounds s q v) (known.map Wire.series) ys =
      (List.zipWith (fun y v => y.extend q flag v) known ys).map Wire.series := by
  rw [List.zipWith_map_left, List.map_zipWith]
  rfl

omit [Scalar F] [Base B F] in
private theorem marks_extend (b : BuiltIn) (args : List (Wire B)) (count : known.length = b.count)
    {i : Nat} (inside : i < known.length) :
    (b.marks q (Wire.flags args) (Wire.flags known))[i]? =
      some (if q = 0 then args.any Wire.isVariable else known[i].isVariable) := by
  unfold marks
  by_cases zero : q = 0
  · rw [if_pos zero, if_pos zero, Array.getElem?_replicate, if_pos (count ▸ inside), Wire.flags,
      List.any_toArray, List.any_map]
    rfl
  · rw [if_neg zero, if_neg zero, Wire.flags, List.getElem?_toArray, List.getElem?_map,
      List.getElem?_eq_getElem inside]
    rfl

/-- A built-in computes an order of its results from that order of its arguments and their shapes;
what stood in the results at that order does not matter. -/
theorem forward_eq (b : BuiltIn) (low : Wire.coeffs args 0 = .ok x0)
    (high : Wire.coeffs args q = .ok xq) (long : ∀ x ∈ args, x.series.size = q + 1)
    (count : known.length = b.count) (wide : ∀ y ∈ known, y.series.size = q + 1) :
    b.atomic.forward q q args known = extendAll q args known <$> b.step x0 xq := by
  have filled : FillsBlock q args.length (args.map Wire.series) :=
    ⟨List.length_map _, List.forall_mem_map.2 long⟩
  have filled' : FillsBlock q known.length (known.map Wire.series) :=
    ⟨List.length_map _, List.forall_mem_map.2 wide⟩
  have given := Wire.size_flags filled
  have row {k : Nat} {xs : List B} (order : k ≤ q) (read : Wire.coeffs args k = .ok xs) :
      Block.row args.length q (Wire.block args) k = .ok xs := by
    rw [Wire.block, Block.row_join filled order, List.mapM_map]
    exact read
  rw [Atomic.forward, extend_eq le_rfl (Wire.size_block filled) b
    ((Wire.size_flags filled').trans count), given, Block.fill_single, rowOf, row q.zero_le low, ok_bind,
    row le_rfl high, ok_bind]
  cases stepped : b.step x0 xq with
  | error err => rfl
  | ok ys =>
    have length : ys.length = known.length := (length_step stepped).trans count.symm
    let computed := List.zipWith (fun y v => y.extend q (args.any Wire.isVariable) v) known ys
    have filled'' : FillsBlock q known.length (computed.map Wire.series) := {
      length := by simp [computed, length]
      orders := List.forall_mem_map.2 fun w member => by
        obtain ⟨i, inside, rfl⟩ := List.getElem_of_mem member
        rw [List.getElem_zipWith, Wire.extend, Array.size_setIfInBounds]
        exact wide _ (List.getElem_mem _) }
    have marked (i : Nat) (inside : i < computed.length) :
        (b.marks q (Wire.flags args) (Wire.flags known))[i]? = some computed[i].isVariable := by
      rw [List.length_zipWith, length, min_self] at inside
      rw [b.marks_extend args count inside, List.getElem_zipWith]
      rfl
    rw [ok_bind, Wire.block, Block.put_join filled' le_rfl length, zipWith_extend]
    exact bind_eq_ok.2 ⟨_, rfl, bind_eq_ok.2 ⟨_, read_back filled'' marked, rfl⟩⟩

end Forward

omit [Scalar F] in
private theorem coeffs_zipWith {x0 xk : List B} (count : x0.length = xk.length) :
    Wire.coeffs (List.zipWith (fun x y => ⟨#[x, y], true⟩) x0 xk) 0 = .ok x0 ∧
      Wire.coeffs (List.zipWith (fun x y => ⟨#[x, y], true⟩) x0 xk) 1 = .ok xk := by
  constructor
  · refine mapM_eq_ok.2 (List.forall₂_iff_get.2 ⟨by simp [count], fun i low high => ?_⟩)
    simp only [List.get_eq_getElem, List.getElem_zipWith]
    rfl
  · refine mapM_eq_ok.2 (List.forall₂_iff_get.2 ⟨by simp [count], fun i low high => ?_⟩)
    simp only [List.get_eq_getElem, List.getElem_zipWith]
    rfl

/-- What a built-in gives can be seen from its atomic. -/
theorem step_of_atomic_eq {b b' : BuiltIn} (same : (b.atomic : Atomic B) = b'.atomic)
    {x0 xk ys : List B} (count : x0.length = xk.length) (done : b.step x0 xk = .ok ys) :
    b'.step x0 xk = .ok ys := by
  have one : b.count = b'.count := by
    rw [← numResults_atomic (B := B) b 0, same, numResults_atomic]
  obtain ⟨low, high⟩ := coeffs_zipWith count
  have long : ∀ x ∈ List.zipWith (fun x y : B => (⟨#[x, y], true⟩ : Wire B)) x0 xk,
      x.series.size = 1 + 1 := by
    intro x member
    obtain ⟨i, inside, rfl⟩ := List.getElem_of_mem member
    rw [List.getElem_zipWith]
    rfl
  obtain ⟨known, size, room⟩ : ∃ known : List (Wire B), known.length = b.count ∧
      ∀ y ∈ known, y.series.size = 1 + 1 := by
    refine ⟨List.replicate b.count ⟨#[Base.zero, Base.zero], true⟩, List.length_replicate, ?_⟩
    intro y member
    rw [List.eq_of_mem_replicate member]
    rfl
  have left := b.forward_eq low high long size room
  have right := b'.forward_eq low high long (size.trans one) room
  rw [← same, left, done] at right
  obtain ⟨zs, stepped, equal⟩ := map_eq_ok.1 right.symm
  rw [stepped]
  refine congrArg Except.ok (List.ext_getElem ?_ fun r before after => ?_)
  · rw [length_step stepped, length_step done, one]
  · have there : r < known.length := by
      rw [size, ← length_step done]
      exact after
    have wires := List.getElem_of_eq (Option.some.inj equal)
      (i := r) (by rw [List.length_zipWith]; exact lt_min there before)
    rw [List.getElem_zipWith, List.getElem_zipWith] at wires
    have roomy : 1 < known[r].series.size := by
      rw [room _ (List.getElem_mem there)]
      exact Nat.one_lt_two
    have cells := congrArg (fun w : Wire B => w.series[1]?) wires
    simp only [Wire.extend, Array.getElem?_setIfInBounds_self_of_lt roomy] at cells
    exact Option.some.inj cells

section Backward

variable {b : BuiltIn} {q n : Nat} {args adjoints : List (Series B)}

private theorem reverse_cases (b : BuiltIn) (enough : b.arity n ≤ n) (given : FillsBlock q n args)
    (wide : FillsBlock q b.count adjoints) (ys : List (Series B)) :
    (∃ ps : Nat → List B,
      (∀ k ≤ q, b.backOf n q (Block.join args) (Block.join adjoints) k = .ok (ps k)) ∧
      b.atomic.reverse q args ys adjoints = .ok (some ((List.range n).map fun j =>
        .of (fun k => ((ps k)[j]?).getD Base.zero) (q + 1)))) ∨
    ∃ k err, k ≤ q ∧ b.backOf n q (Block.join args) (Block.join adjoints) k = .error err ∧
      b.atomic.reverse q args ys adjoints = .error err := by
  have size : (Array.replicate (args.length * (q + 1)) (Base.zero : B)).size = n * (q + 1) := by
    rw [Array.size_replicate, given.length]
  have room (k : Nat) (ps : List B) (_ : 0 ≤ k) (_ : k ≤ q)
      (passed : b.backOf n q (Block.join args) (Block.join adjoints) k = .ok ps) :
      ps.length ≤ n :=
    (length_backOf passed).trans_le enough
  rw [Atomic.reverse, pull_eq b enough (Block.size_join given) (Block.size_join wide)]
  obtain ⟨next, done, size', -, each⟩ | ⟨k, err, -, low, failed, refused⟩ :=
    Block.fill_cases size room
  · left
    choose! ps passed there using fun k low => each k (Nat.zero_le k) low
    refine ⟨ps, passed, ?_⟩
    rw [done]
    refine bind_eq_ok.2 ⟨_, rfl, bind_eq_ok.2 ⟨_, ?_, rfl⟩⟩
    rw [given.length]
    refine mapM_eq_map fun j member => Block.series_eq_ok.2 ⟨Series.size_of _ _, fun k low => ?_⟩
    have inside := Block.place_lt (List.mem_range.1 member) low
    rw [there k low, Series.getElem?_of, if_pos (Nat.lt_succ_of_le low),
      Array.getElem?_replicate, if_pos (given.length ▸ inside)]
    cases (ps k)[j]? <;> rfl
  · exact .inr ⟨k, err, low, failed, by rw [refused]; rfl⟩

omit [Scalar F] [Base B F] in
private theorem fillsBlock_of (q : Nat) (fs : List (Nat → B)) :
    FillsBlock q fs.length (fs.map (Series.of · (q + 1))) :=
  ⟨List.length_map _, List.forall_mem_map.2 fun f _ => Series.size_of f _⟩

omit [Scalar F] [Base B F] in
private theorem row_of (fs : List (Nat → B)) {k : Nat} (low : k ≤ q) :
    Block.row fs.length q (Block.join (fs.map (Series.of · (q + 1)))) k = .ok (fs.map (· k)) := by
  rw [Block.row_join (fillsBlock_of q fs) low, List.mapM_map]
  exact mapM_eq_map fun f _ => Series.coeff_of (Nat.lt_succ_of_le low)

/-- What a call back that succeeds passes back is at each order what the rule gives. -/
theorem back_of_reverse (args : List (Nat → B)) {shares ys : List (Series B)}
    (arity : b.arity args.length = args.length) (wide : FillsBlock q b.count adjoints)
    (done : b.atomic.reverse q (args.map (.of · (q + 1))) ys adjoints = .ok (some shares))
    {k : Nat} (low : k ≤ q) :
    ∃ ws ps, adjoints.mapM (·.coeff k) = .ok ws ∧ b.back (args.map (· 0)) ws = .ok ps ∧
      shares.mapM (·.coeff k) = .ok ps := by
  obtain ⟨ps, passed, done'⟩ | ⟨_, err, _, _, refused⟩ :=
    b.reverse_cases arity.le (fillsBlock_of q args) wide ys
  · have rule := passed k low
    rw [backOf, arity, row_of args q.zero_le, ok_bind, Block.row_join wide low] at rule
    obtain ⟨ws, read, back⟩ := bind_eq_ok.1 rule
    obtain rfl := Option.some.inj (Except.ok.inj (done.symm.trans done'))
    refine ⟨ws, ps k, read, back, ?_⟩
    have count : (ps k).length = args.length := by rw [length_back back, List.length_map]
    rw [List.mapM_map, eq_map_range (f := fun j => ((ps k)[j]?).getD Base.zero) count fun j below => by
      rw [List.getElem?_eq_getElem (count ▸ below)]
      rfl]
    exact mapM_eq_map fun j _ => Series.coeff_of (Nat.lt_succ_of_le low)
  · rw [refused] at done
    cases done

/-- A built-in passes the partials of each order back by themselves. -/
theorem reverse_eq (args : List (Nat → B)) {fs : List (Nat → B)} {ps : Nat → List B}
    (count : fs.length = b.count)
    (each : ∀ k < q + 1, b.back (args.map (· 0)) (fs.map (· k)) = .ok (ps k))
    (ys : List (Series B)) :
    b.atomic.reverse q (args.map (.of · (q + 1))) ys (fs.map (.of · (q + 1))) =
      .ok (some ((List.range args.length).map fun j =>
        .of (fun k => ((ps k)[j]?).getD Base.zero) (q + 1))) := by
  have arity : b.arity args.length = args.length := by
    simpa using arity_of_back (each 0 q.succ_pos)
  have passed (k : Nat) (low : k ≤ q) : b.backOf args.length q
      (Block.join (args.map (Series.of · (q + 1)))) (Block.join (fs.map (Series.of · (q + 1)))) k =
      .ok (ps k) := by
    rw [backOf, arity, row_of args q.zero_le, ok_bind, ← count, row_of fs low, ok_bind]
    exact each k (Nat.lt_succ_of_le low)
  obtain ⟨ps', passed', done⟩ | ⟨k, err, low, failed, -⟩ :=
    b.reverse_cases arity.le (fillsBlock_of q args) (count ▸ fillsBlock_of q fs) ys
  · rw [done]
    refine congrArg (Except.ok ∘ some)
      (List.map_congr_left fun j _ => Series.of_congr fun k below => ?_)
    have same := (passed' k (Nat.le_of_lt_succ below)).symm.trans
      (passed k (Nat.le_of_lt_succ below))
    injection same with same
    rw [same]
  · rw [passed k low] at failed
    cases failed

end Backward

end BuiltIn

end TaylorTape
