import Mathlib.Data.List.Forall2
import TaylorTape.Proofs.Table
import TaylorTape.Atomic.Basic

/-!
Where the coefficients of a block stand.

No two coefficients of a block share a place, and no place of a block is left over.  So a block of
the right size is the same as a list of series of equal length: joining the series and reading them
back undo each other, an order of the block is that order of all series, and to overwrite an order
of the block is to overwrite it in each series.
-/

set_option autoImplicit false
set_option relaxedAutoImplicit false

namespace TaylorTape

variable {B : Type}

/-- A block of as many series as is said, of the orders up to `q`. -/
structure FillsBlock (q count : Nat) (block : List (Series B)) : Prop where
  length : block.length = count
  orders : ∀ s ∈ block, s.size = q + 1

namespace Block

variable {q n j j' k k' : Nat}

theorem place_zero (k q : Nat) : place 0 k q = k := by
  simp [place]

theorem place_lt (inside : j < n) (low : k ≤ q) : place j k q < n * (q + 1) :=
  calc place j k q < j * (q + 1) + (q + 1) := Nat.add_lt_add_left (Nat.lt_succ_of_le low) _
    _ = (j + 1) * (q + 1) := (Nat.succ_mul j (q + 1)).symm
    _ ≤ n * (q + 1) := Nat.mul_le_mul_right _ inside

theorem le_place (outside : n ≤ j) (k q : Nat) : n * (q + 1) ≤ place j k q :=
  (Nat.mul_le_mul_right _ outside).trans (Nat.le_add_right _ _)

private theorem place_inj (low : k ≤ q) (low' : k' ≤ q) (same : place j k q = place j' k' q) :
    j = j' ∧ k = k' := by
  have positions : j = j' := by
    have quotients := congrArg (· / (q + 1)) same
    simpa [place, Nat.mul_comm _ (q + 1), Nat.mul_add_div q.succ_pos,
      Nat.div_eq_of_lt (Nat.lt_succ_of_le low), Nat.div_eq_of_lt (Nat.lt_succ_of_le low')] using
      quotients
  subst positions
  exact ⟨rfl, Nat.add_left_cancel same⟩

private theorem exists_place {i : Nat} (inside : i < n * (q + 1)) :
    ∃ j < n, ∃ k ≤ q, i = place j k q := by
  refine ⟨i / (q + 1), Nat.div_lt_of_lt_mul (Nat.mul_comm n _ ▸ inside), i % (q + 1),
    Nat.le_of_lt_succ (Nat.mod_lt _ q.succ_pos), ?_⟩
  rw [place, Nat.mul_comm]
  exact (Nat.div_add_mod i (q + 1)).symm

theorem ext_place {block block' : Array B} (size : block.size = n * (q + 1))
    (size' : block'.size = n * (q + 1))
    (same : ∀ j < n, ∀ k ≤ q, block[place j k q]? = block'[place j k q]?) : block = block' := by
  refine Array.ext_getElem? fun i => ?_
  by_cases inside : i < n * (q + 1)
  · obtain ⟨j, below, k, low, rfl⟩ := exists_place inside
    exact same j below k low
  · rw [Array.getElem?_eq_none (by omega), Array.getElem?_eq_none (by omega)]

section Join

variable {s : Series B} {ss : List (Series B)}

theorem size_join (filled : FillsBlock q n ss) : (join ss).size = n * (q + 1) := by
  obtain ⟨rfl, orders⟩ := filled
  induction ss with
  | nil => simp [join]
  | cons s ss ih =>
    have rest := ih fun t member => orders t (List.mem_cons_of_mem s member)
    have first := orders s List.mem_cons_self
    simp only [join, List.size_toArray] at rest ⊢
    rw [List.flatMap_cons, List.length_append, rest, Array.length_toList, first, List.length_cons,
      Nat.succ_mul, Nat.add_comm]

/-- A place of joined series holds the order of the series that it is the place of. -/
theorem getElem?_join (filled : FillsBlock q n ss) (low : k ≤ q) :
    (join ss)[place j k q]? = ss[j]?.bind (·[k]?) := by
  obtain ⟨-, orders⟩ := filled
  induction ss generalizing j with
  | nil => simp [join]
  | cons s ss ih =>
    have first : s.toList.length = q + 1 := orders s List.mem_cons_self
    have rest (j : Nat) := ih (j := j) fun t member => orders t (List.mem_cons_of_mem s member)
    simp only [join, List.getElem?_toArray, List.flatMap_cons] at rest ⊢
    cases j with
    | zero =>
      rw [place_zero, List.getElem?_append_left (by omega)]
      simp
    | succ j =>
      have next : place (j + 1) k q = s.toList.length + place j k q := by
        rw [first, place, place, Nat.succ_mul]
        omega
      rw [next, List.getElem?_append_right (Nat.le_add_right _ _), Nat.add_sub_cancel_left, rest,
        List.getElem?_cons_succ]

/-- An order of joined series is that order of each. -/
theorem row_join (filled : FillsBlock q n ss) (low : k ≤ q) :
    row n q (join ss) k = ss.mapM (·.coeff k) := by
  refine mapM_forall₂ (List.forall₂_iff_get.2 ⟨by simp [filled.length], fun j _ inside => ?_⟩)
  have long := filled.orders _ (List.getElem_mem inside)
  have there : ss[j][k]? = some ss[j][k] := Array.getElem?_eq_getElem (by omega)
  simp only [List.get_eq_getElem, List.getElem_range]
  rw [Series.coeff, fetch_eq_ok_iff.2 there, fetch_eq_ok_iff, getElem?_join filled low,
    List.getElem?_eq_getElem inside, Option.bind_some, there]

/-- A series is read off a block at the places of its orders. -/
theorem series_eq_ok {block : Array B} : series q block j = .ok s ↔
    s.size = q + 1 ∧ ∀ k ≤ q, block[place j k q]? = s[k]? := by
  have read : (List.range (q + 1)).mapM (fun k => fetch block (place j k q)) = .ok s.toList ↔
      s.size = q + 1 ∧ ∀ k ≤ q, block[place j k q]? = s[k]? := by
    rw [mapM_eq_ok, List.forall₂_iff_get]
    simp only [List.length_range, Array.length_toList, List.get_eq_getElem, List.getElem_range,
      Array.getElem_toList, fetch_eq_ok_iff]
    constructor
    · rintro ⟨count, each⟩
      refine ⟨count.symm, fun k low => ?_⟩
      rw [each k (Nat.lt_succ_of_le low) (count ▸ Nat.lt_succ_of_le low), Array.getElem?_eq_getElem]
    · rintro ⟨count, each⟩
      refine ⟨count.symm, fun k below inside => ?_⟩
      rw [each k (Nat.le_of_lt_succ below), Array.getElem?_eq_getElem]
  rw [← read, series]
  cases (List.range (q + 1)).mapM fun k => fetch block (place j k q) with
  | error err =>
    constructor
    · intro same
      cases same
    · intro same
      cases same
  | ok xs =>
    constructor
    · intro same
      rw [← pure_eq_ok.1 same]
    · intro same
      injection same with same
      rw [same]
      rfl

theorem series_join (filled : FillsBlock q n ss) (found : ss[j]? = some s) :
    series q (join ss) j = .ok s :=
  series_eq_ok.2 ⟨filled.orders s (List.mem_of_getElem? found), fun k low => by
    rw [getElem?_join filled low, found, Option.bind_some]⟩

@[simp] theorem join_singleton (s : Series B) : join [s] = s := by
  simp [join]

theorem series_self (size : s.size = q + 1) : series q s 0 = .ok s :=
  series_eq_ok.2 ⟨size, fun k _ => by rw [place_zero]⟩

theorem mapM_series_join (filled : FillsBlock q n ss) :
    (List.range n).mapM (series q (join ss)) = .ok ss := by
  refine mapM_eq_ok.2 (List.forall₂_iff_get.2 ⟨by simp [filled.length], fun j _ inside => ?_⟩)
  rw [List.get_eq_getElem, List.getElem_range]
  exact series_join filled (List.getElem?_eq_getElem inside)

private theorem exists_series {block : Array B} (size : block.size = n * (q + 1)) (inside : j < n) :
    ∃ s, series q block j = .ok s := by
  obtain ⟨xs, read⟩ : ∃ xs, (List.range (q + 1)).mapM (fun k => fetch block (place j k q)) = .ok xs :=
    exists_mapM fun k member => ⟨_, fetch_eq_ok_iff.2 (Array.getElem?_eq_getElem
      (size ▸ place_lt inside (Nat.le_of_lt_succ (List.mem_range.1 member))))⟩
  exact ⟨_, bind_eq_ok.2 ⟨xs, read, rfl⟩⟩

end Join

section Rows

variable {block : Array B} {xs : List B}

theorem row_eq_ok : row n q block k = .ok xs ↔
    xs.length = n ∧ ∀ j < n, block[place j k q]? = xs[j]? := by
  rw [row, mapM_eq_ok, List.forall₂_iff_get]
  simp only [List.length_range, List.get_eq_getElem, List.getElem_range, fetch_eq_ok_iff]
  constructor
  · rintro ⟨count, each⟩
    refine ⟨count.symm, fun j inside => ?_⟩
    rw [each j inside (count ▸ inside), List.getElem?_eq_getElem]
  · rintro ⟨rfl, each⟩
    exact ⟨rfl, fun j inside _ => (each j inside).trans (List.getElem?_eq_getElem inside)⟩

theorem exists_row (size : n * (q + 1) ≤ block.size) (low : k ≤ q) :
    ∃ xs, row n q block k = .ok xs :=
  exists_mapM fun _ member => ⟨_, fetch_eq_ok_iff.2 (Array.getElem?_eq_getElem
    ((place_lt (List.mem_range.1 member) low).trans_le size))⟩

theorem row_one (q : Nat) (block : Array B) (k : Nat) :
    row 1 q block k = (fun x => [x]) <$> fetch block k := by
  simp only [row, List.range_one, List.mapM_cons, List.mapM_nil, place_zero]
  cases fetch block k <;> rfl

theorem row_two (q : Nat) (block : Array B) (k : Nat) :
    row 2 q block k = do
      let x ← fetch block (place 0 k q)
      let y ← fetch block (place 1 k q)
      return [x, y] := by
  have two : List.range 2 = [0, 1] := rfl
  simp only [row, two, List.mapM_cons, List.mapM_nil, bind_assoc, pure_bind]

end Rows

section Fill

variable {block : Array B} {xs : List B} {p : Nat} {rule rule' : Nat → Except Error (List B)}

private theorem put_from (m : Nat) (size : block.size = n * (q + 1)) (low : k ≤ q)
    (room : m + xs.length ≤ n) :
    ∃ next, (xs.zipIdx m).foldlM (fun block (p : B × Nat) => store block (place p.2 k q) p.1) block =
        .ok next ∧
      next.size = block.size ∧
      (∀ j, next[place j k q]? =
        if m ≤ j then (xs[j - m]?).or block[place j k q]? else block[place j k q]?) ∧
      ∀ j, ∀ k' ≤ q, k' ≠ k → next[place j k' q]? = block[place j k' q]? := by
  induction xs generalizing m block with
  | nil => exact ⟨block, rfl, rfl, by simp, fun _ _ _ _ => rfl⟩
  | cons x xs ih =>
    rw [List.length_cons] at room
    have inside : place m k q < block.size := size ▸ place_lt (by omega) low
    have same : (block.set (place m k q) x).size = n * (q + 1) := (Array.size_set inside).trans size
    obtain ⟨next, done, size', here, others⟩ := ih (m + 1) same (by omega)
    refine ⟨next, ?_, size'.trans (Array.size_set inside), fun j => ?_, fun j k' low' other => ?_⟩
    · rw [List.zipIdx_cons, List.foldlM_cons, store_eq_ok_iff.2 ⟨inside, rfl⟩]
      exact done
    · rw [here]
      obtain before | rfl | after := Nat.lt_trichotomy j m
      · have apart : place m k q ≠ place j k q := fun same =>
          before.ne' (place_inj low low same).1
        rw [if_neg (by omega), if_neg (by omega), Array.getElem?_set_ne inside apart]
      · rw [if_neg (by omega), if_pos le_rfl, Array.getElem?_set_self inside, Nat.sub_self]
        rfl
      · have apart : place m k q ≠ place j k q := fun same =>
          after.ne (place_inj low low same).1
        have next : j - m = j - (m + 1) + 1 := by omega
        rw [if_pos (by omega), if_pos (by omega), Array.getElem?_set_ne inside apart, next,
          List.getElem?_cons_succ]
    · have apart : place m k q ≠ place j k' q := fun same => other (place_inj low low' same).2.symm
      rw [others j k' low' other, Array.getElem?_set_ne inside apart]

theorem put_spec (size : block.size = n * (q + 1)) (low : k ≤ q) (room : xs.length ≤ n) :
    ∃ next, put q k block xs = .ok next ∧ next.size = block.size ∧
      (∀ j, next[place j k q]? = (xs[j]?).or block[place j k q]?) ∧
      ∀ j, ∀ k' ≤ q, k' ≠ k → next[place j k' q]? = block[place j k' q]? := by
  obtain ⟨next, done, size', here, others⟩ := put_from 0 size low (by rwa [Nat.zero_add])
  exact ⟨next, done, size', fun j => by simpa using here j, others⟩

/-- To overwrite an order of joined series is to overwrite it in each of them. -/
theorem put_join {ss : List (Series B)} (filled : FillsBlock q n ss) (low : k ≤ q)
    (count : xs.length = n) :
    put q k (join ss) xs = .ok (join (List.zipWith (fun s v => s.setIfInBounds k v) ss xs)) := by
  have filled' : FillsBlock q n (List.zipWith (fun (s : Series B) v => s.setIfInBounds k v) ss xs) := {
    length := by simp [filled.length, count]
    orders := fun t member => by
      obtain ⟨i, inside, rfl⟩ := List.getElem_of_mem member
      rw [List.getElem_zipWith, Array.size_setIfInBounds]
      exact filled.orders _ (List.getElem_mem _) }
  obtain ⟨next, done, size, here, others⟩ := put_spec (size_join filled) low count.le
  rw [done, ext_place (size.trans (size_join filled)) (size_join filled') fun j below k' low' => ?_]
  rw [getElem?_join filled' low']
  have inside : j < ss.length := filled.length ▸ below
  have inside' : j < xs.length := count ▸ below
  have long := filled.orders _ (List.getElem_mem inside)
  rw [List.getElem?_zipWith, List.getElem?_eq_getElem inside, List.getElem?_eq_getElem inside']
  simp only [Option.bind_some]
  by_cases same : k' = k
  · subst same
    rw [here, List.getElem?_eq_getElem inside', Option.some_or,
      Array.getElem?_setIfInBounds_self_of_lt (by omega)]
  · rw [others j k' low' same, getElem?_join filled low', List.getElem?_eq_getElem inside,
      Option.bind_some, Array.getElem?_setIfInBounds_ne (Ne.symm same)]

private theorem fill_done (none : q < p) (block : Array B) (rule : Nat → Except Error (List B)) :
    fill p q block rule = .ok block := by
  rw [fill, show q + 1 - p = 0 by omega]
  rfl

theorem fill_first (low : p ≤ q) : fill p q block rule =
    rule p >>= fun xs => put q p block xs >>= fun next => fill (p + 1) q next rule := by
  rw [fill, show q + 1 - p = q + 1 - (p + 1) + 1 by omega, List.range'_succ, List.foldlM_cons,
    bind_assoc]
  rfl

theorem fill_single (q : Nat) (block : Array B) (rule : Nat → Except Error (List B)) :
    fill q q block rule = rule q >>= put q q block := by
  rw [fill_first le_rfl]
  simp only [fill_done q.lt_succ_self]
  exact congrArg _ (funext fun xs => bind_pure _)

theorem fill_error {err : Error} (low : p ≤ q) (failed : rule p = .error err) :
    fill p q block rule = .error err := by
  rw [fill_first low, failed]
  rfl

theorem fill_congr (same : ∀ k, p ≤ k → k ≤ q → rule k = rule' k) :
    fill p q block rule = fill p q block rule' :=
  foldlM_congr (fun k member block => by
    obtain ⟨low, high⟩ := List.mem_range'_1.1 member
    rw [same k low (by omega)]) block

theorem fill_bind_congr {β : Type} (same : ∀ k, p ≤ k → k ≤ q → rule k = rule' k)
    (next : Array B → Except Error β) :
    fill p q block rule >>= next = fill p q block rule' >>= next := by
  rw [fill_congr same]

/-- What becomes of a block whose orders `p, ..., q` a rule gives: either the rule gives them all, and
each stands in its places, while all else is as before, or it fails at one of them. -/
theorem fill_cases (size : block.size = n * (q + 1))
    (room : ∀ k xs, p ≤ k → k ≤ q → rule k = .ok xs → xs.length ≤ n) :
    (∃ next, fill p q block rule = .ok next ∧ next.size = block.size ∧
      (∀ k < p, k ≤ q → ∀ j, next[place j k q]? = block[place j k q]?) ∧
      ∀ k, p ≤ k → k ≤ q → ∃ xs, rule k = .ok xs ∧
        ∀ j, next[place j k q]? = (xs[j]?).or block[place j k q]?) ∨
    ∃ k err, p ≤ k ∧ k ≤ q ∧ rule k = .error err ∧ fill p q block rule = .error err := by
  -- by induction on the number of orders that are still to come
  obtain ⟨m, apart⟩ : ∃ m, q + 1 - p = m := ⟨_, rfl⟩
  induction m generalizing p block with
  | zero =>
    refine .inl ⟨block, fill_done (by omega) block rule, rfl, fun _ _ _ _ => rfl, ?_⟩
    intro k above low
    omega
  | succ m ih =>
    have low : p ≤ q := by omega
    rw [fill_first low]
    cases first : rule p with
    | error err => exact .inr ⟨p, err, le_rfl, low, first, rfl⟩
    | ok xs =>
      obtain ⟨mid, done, size', here, others⟩ := put_spec size low (room p xs le_rfl low first)
      simp only [ok_bind, done]
      obtain ⟨next, done', size'', kept, computed⟩ | ⟨k, err, above, low', failed, refused⟩ :=
        ih (p := p + 1) (size'.trans size) (fun k xs above => room k xs (by omega)) (by omega)
      · refine .inl ⟨next, done', size''.trans size', fun k below low' j => ?_,
          fun k above low' => ?_⟩
        · rw [kept k (by omega) low' j, others j k low' (by omega)]
        · obtain rfl | later := Nat.eq_or_lt_of_le above
          · exact ⟨xs, first, fun j => (kept p p.lt_succ_self low j).trans (here j)⟩
          · obtain ⟨ys, given, each⟩ := computed k later low'
            exact ⟨ys, given, fun j => by rw [each j, others j k low' (by omega)]⟩
      · exact .inr ⟨k, err, by omega, low', failed, refused⟩

end Fill

end Block

theorem mapM_pick {α : Type} (xs : List α) : (List.range xs.length).mapM (pick xs) = .ok xs := by
  refine mapM_eq_ok.2 (List.forall₂_iff_get.2 ⟨by simp, fun i _ inside => ?_⟩)
  rw [List.get_eq_getElem, List.getElem_range, pick_eq_ok_iff]
  exact List.getElem?_eq_getElem inside

theorem Wire.size_flags {q n : Nat} {wires : List (Wire B)}
    (filled : FillsBlock q n (wires.map Wire.series)) : (Wire.flags wires).size = n := by
  simpa [Wire.flags] using filled.length

theorem Wire.size_block {q n : Nat} {wires : List (Wire B)}
    (filled : FillsBlock q n (wires.map Wire.series)) :
    (Wire.block wires).size = (Wire.flags wires).size * (q + 1) := by
  rw [Wire.size_flags filled]
  exact Block.size_join filled

/-- A block of the right size and as many marks are those of some results. -/
theorem Wire.exists_of_block {q n : Nat} {block : Array B} {marks : Array Bool}
    (size : block.size = n * (q + 1)) (marked : marks.size = n) :
    ∃ ys : List (Wire B),
      (List.range n).mapM (fun i => do
        return (⟨← Block.series q block i, ← fetch marks i⟩ : Wire B)) = .ok ys ∧
      FillsBlock q n (ys.map Wire.series) ∧ Wire.block ys = block ∧ Wire.flags ys = marks := by
  obtain ⟨ys, read⟩ : ∃ ys, (List.range n).mapM (fun i => do
      return (⟨← Block.series q block i, ← fetch marks i⟩ : Wire B)) = .ok ys := by
    refine exists_mapM fun i member => ?_
    obtain ⟨s, own⟩ := Block.exists_series size (List.mem_range.1 member)
    have there : i < marks.size := marked ▸ List.mem_range.1 member
    have mark : marks[i]? = some marks[i] := Array.getElem?_eq_getElem there
    exact ⟨⟨s, marks[i]⟩, bind_eq_ok.2 ⟨s, own, bind_eq_ok.2 ⟨_, fetch_eq_ok_iff.2 mark, rfl⟩⟩⟩
  have count : ys.length = n := (length_of_mapM read).trans List.length_range
  have each (i : Nat) (inside : i < ys.length) :
      Block.series q block i = .ok ys[i].series ∧ marks[i]? = some ys[i].isVariable := by
    have one := (List.forall₂_iff_get.1 (mapM_eq_ok.1 read)).2 i (by simpa [← count]) inside
    rw [List.get_eq_getElem, List.getElem_range, List.get_eq_getElem] at one
    obtain ⟨s, own, one⟩ := bind_eq_ok.1 one
    obtain ⟨mark, there, one⟩ := bind_eq_ok.1 one
    rw [← pure_eq_ok.1 one]
    exact ⟨own, fetch_eq_ok_iff.1 there⟩
  have filled : FillsBlock q n (ys.map Wire.series) := {
    length := (List.length_map _).trans count
    orders := List.forall_mem_map.2 fun y member => by
      obtain ⟨i, inside, rfl⟩ := List.getElem_of_mem member
      exact (Block.series_eq_ok.1 (each i inside).1).1 }
  refine ⟨ys, read, filled, ?_, Array.ext_getElem? fun i => ?_⟩
  · refine Block.ext_place (Block.size_join filled) size fun j inside k low => ?_
    have own := (Block.series_eq_ok.1 (each j (count ▸ inside)).1).2 k low
    rw [Wire.block, Block.getElem?_join filled low, own, List.getElem?_map,
      List.getElem?_eq_getElem (count ▸ inside)]
    rfl
  · rw [Wire.flags, List.getElem?_toArray, List.getElem?_map]
    by_cases inside : i < ys.length
    · rw [List.getElem?_eq_getElem inside, (each i inside).2]
      rfl
    · rw [List.getElem?_eq_none (Nat.le_of_not_lt inside), Array.getElem?_eq_none (by omega)]
      rfl

namespace Atomic

variable {op : Atomic B} {p q : Nat}

/-- A call that succeeds gives each result all orders. -/
theorem fillsBlock_forward {args results computed : List (Wire B)}
    (done : op.forward p q args results = .ok (some computed)) :
    FillsBlock q results.length (computed.map Wire.series) := by
  obtain ⟨answer, _, done⟩ := bind_eq_ok.1 done
  cases answer with
  | none => cases done
  | some written =>
    obtain ⟨wires, read, same⟩ := bind_eq_ok.1 done
    obtain rfl := Option.some.inj (pure_eq_ok.1 same)
    refine ⟨?_, List.forall_mem_map.2 fun y member => ?_⟩
    · rw [List.length_map, length_of_mapM read, List.length_range]
    · obtain ⟨i, _, one⟩ := exists_of_mem_mapM read member
      obtain ⟨s, own, one⟩ := bind_eq_ok.1 one
      obtain ⟨mark, _, one⟩ := bind_eq_ok.1 one
      rw [← pure_eq_ok.1 one]
      exact (Block.series_eq_ok.1 own).1

theorem length_forward {args results computed : List (Wire B)}
    (done : op.forward p q args results = .ok (some computed)) : computed.length = results.length := by
  simpa using (fillsBlock_forward done).length

/-- A call back that succeeds gives each argument all orders. -/
theorem fillsBlock_reverse {F : Type} [Scalar F] [Base B F]
    {args results adjoints shares : List (Series B)}
    (done : op.reverse q args results adjoints = .ok (some shares)) :
    FillsBlock q args.length shares := by
  obtain ⟨answer, _, done⟩ := bind_eq_ok.1 done
  cases answer with
  | none => cases done
  | some px =>
    obtain ⟨ss, read, same⟩ := bind_eq_ok.1 done
    obtain rfl := Option.some.inj (pure_eq_ok.1 same)
    refine ⟨?_, fun s member => ?_⟩
    · rw [length_of_mapM read, List.length_range]
    · obtain ⟨j, _, own⟩ := exists_of_mem_mapM read member
      exact (Block.series_eq_ok.1 own).1

end Atomic

end TaylorTape
