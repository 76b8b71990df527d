import TaylorTape.Proofs.Broadcast
import TaylorTape.Proofs.Images
import TaylorTape.Proofs.Lockstep
import TaylorTape.Proofs.Run

/-!
Forward runs under a map of values, and the lanes of arrays.

The rules of the series do nothing with coefficients but combine their elements.  So where a map
respects the operations, an evaluator and its image go in step: from seeds and their images they
compute coefficients and their images, at every order and along every direction.  One such map takes
the element at a place, of an array, or of a scalar that stands for all places.
-/

set_option autoImplicit false
set_option relaxedAutoImplicit false

namespace TaylorTape

open Series

section Images

variable {B B' F : Type} [Scalar F] [Base B F] [Base B' F] {D : B → Prop} {f : B → B'} {id' : Nat}

private theorem Base.Homomorphism.respected (hom : Base.Homomorphism D f) :
    Respected fun (_ : Prop) (u : B) (u' : B') => D u ∧ f u = u' where
  weaken related _ := related
  zero := hom.zero
  map h related := by
    obtain ⟨meant, rfl⟩ := related
    exact hom.map h meant
  zipWith context h left right := by
    obtain ⟨meant, rfl⟩ := left
    obtain ⟨meant', rfl⟩ := right
    obtain ⟨w, done, meant, done'⟩ := hom.zipWith context h meant meant'
    exact ⟨w, f w, done, done', meant, rfl⟩

namespace Tape

variable {tape : Tape B} {i q : Nat} {seed : List B} {c : Nat → Nat → B}

/-- From coefficients that are meant an entry yields one, and its image yields the image of it from
their images. -/
private theorem Over.yields (hom : Base.Homomorphism D f) (id' : Nat) (lies : tape.Over D)
    (wf : tape.WellFormed) (inside : i < tape.size) (seed : List B)
    (input : i < tape.numInputs → ∃ u, seed[i]? = some u ∧ D u)
    (operands : ∀ a, tape.Produced i a → ∀ k ≤ q, D (c a k)) (own : ∀ k < q, D (c i k)) :
    ∃ x, D x ∧ tape.Yields q seed c i [x] ∧
      (tape.image f id').Yields q (seed.map f) (fun v k => f (c v k)) i [f x] := by
  obtain ⟨⟨entry, v⟩, node⟩ := exists_node inside
  have found := entry_of_node node
  have meant : D v := (lies _ (Array.mem_of_getElem? node)).2
  have node' : (tape.image f id').nodes[i]? = some ⟨entry, f v⟩ := by
    rw [node_image, node]
    rfl
  have read : ∀ a ∈ entry.operands, Related (q + 1) (fun _ u u' => D u ∧ f u = u')
      (fun _ => False) (.of (c a) (q + 1)) (.of (fun k => f (c a k)) (q + 1)) := fun a reads =>
    related_of fun k low => ⟨operands a (wf.produced_operand found reads) k (by omega), rfl⟩
  have known : Related q (fun _ u u' => D u ∧ f u = u') (fun _ => False) (.of (c i) q)
      (.of (fun k => f (c i k)) q) := related_of fun k low => ⟨own k low, rfl⟩
  cases entry with
  | input =>
    obtain ⟨u, there, meant⟩ := input ((wf.inputs i _ found).1 rfl)
    refine ⟨u, meant, ⟨_, node, u, there, rfl⟩, ⟨_, node', f u, ?_, rfl⟩⟩
    rw [List.getElem?_map, there]
    rfl
  | const =>
    refine ⟨if q = 0 then v else Base.zero, ?_, ⟨_, node, rfl⟩, ⟨_, node', ?_⟩⟩
    · split
      · exact meant
      · exact hom.zero.1
    · rw [apply_ite f, hom.zero.2]
  | unary op a =>
    obtain ⟨x, _, next, next', meant, rfl⟩ :=
      op.next_both hom.respected (read a (by simp [Entry.operands])) known
    exact ⟨x, meant, ⟨_, node, x, next, rfl⟩, ⟨_, node', f x, next', rfl⟩⟩
  | binary op a b =>
    obtain ⟨x, _, next, next', meant, rfl⟩ :=
      op.next_both hom.respected (read a (by simp [Entry.operands]))
        (read b (by simp [Entry.operands])) known
    exact ⟨x, meant, ⟨_, node, x, next, rfl⟩, ⟨_, node', f x, next', rfl⟩⟩
  | call => exact absurd found lies.not_call
  | result => exact absurd found lies.not_result

private theorem Over.holds (hom : Base.Homomorphism D f) (id' : Nat) (lies : tape.Over D)
    (wf : tape.WellFormed) (meant : ∀ v < tape.size, ∀ k ≤ q, D (c v k)) (inside : i < tape.size)
    {seed : List B} (held : tape.Holds q seed c i) :
    (tape.image f id').Holds q (seed.map f) (fun v k => f (c v k)) i := by
  have whole := held
  obtain ⟨entry, found, yields⟩ := held
  obtain ⟨x, _, made, made'⟩ := lies.yields hom id' wf inside seed
    (fun input => ⟨c i q, whole.input (found.trans (congrArg Except.ok
      ((wf.inputs i entry found).2 input))), meant i inside q le_rfl⟩)
    (fun a made k low => meant a (wf.lt_of_produced made) k low)
    fun k low => meant i inside k low.le
  have span : entry.span = 1 := by
    cases entry with
    | input | const | unary | binary => rfl
    | call => exact absurd found lies.not_call
    | result => exact absurd found lies.not_result
  refine ⟨entry, (entry_image i).trans found, ?_⟩
  rw [span, List.range'_one] at yields ⊢
  obtain rfl : x = c i q := List.head_eq_of_cons_eq (made.unique lies.onlyBuiltIns yields)
  exact made'

end Tape

namespace Evaluator

/-- An evaluator beside one of the image of its tape, with as many orders along as many directions,
of which the second has the images of the coefficients of the first. -/
structure Imaged (D : B → Prop) (f : B → B') (id' n r : Nat) (e : Evaluator B) (e' : Evaluator B') :
    Prop where
  wellFormed : e.WellFormed
  wellFormed' : e'.WellFormed
  lies : e.tape.Over D
  tape : e'.tape = e.tape.image f id'
  outputs : e'.outputs = e.outputs
  orders : 0 < n → e.numOrders = n ∧ e'.numOrders = n
  directions : 1 < n → e.numDirections = r ∧ e'.numDirections = r
  meant : ∀ v < e.tape.size, ∀ k < n, ∀ d < r, D (e.table.value v k d)
  values : ∀ v < e.tape.size, ∀ k < n, ∀ d < r, e'.table.value v k d = f (e.table.value v k d)

variable {e : Evaluator B} {e' : Evaluator B'} {n r : Nat}

omit [Scalar F] [Base B F] [Base B' F] in
theorem WellFormed.image (wf : e.WellFormed) (lies : e.tape.Over D) :
    (e.image f id').WellFormed where
  tape := wf.tape.image lies
  outputs y member := Tape.size_image.symm ▸ wf.outputs y member
  table := ⟨Array.size_map.trans wf.table.size, wf.table.capacity, wf.table.orders,
    wf.table.directions⟩
  extent := wf.extent.trans Tape.size_image.symm

theorem imaged_of_tape (wf : e.WellFormed) (wf' : e'.WellFormed) (lies : e.tape.Over D)
    (tape : e'.tape = e.tape.image f id') (outputs : e'.outputs = e.outputs) (r : Nat) :
    Imaged D f id' 0 r e e' :=
  ⟨wf, wf', lies, tape, outputs, fun none => absurd none (lt_irrefl 0),
    fun none => absurd none (by omega), fun _ _ _ low => absurd low (Nat.not_lt_zero _),
    fun _ _ _ low => absurd low (Nat.not_lt_zero _)⟩

theorem Imaged.size (imaged : Imaged D f id' n r e e') :
    e'.tape.size = e.tape.size := by
  rw [imaged.tape, Tape.size_image]

theorem Imaged.numInputs (imaged : Imaged D f id' n r e e') : e'.numInputs = e.numInputs := by
  rw [Evaluator.numInputs, Evaluator.numInputs, imaged.tape]
  rfl

/-- What can be read of an evaluator and of one of the image of its tape. -/
theorem Imaged.coeff (imaged : Imaged D f id' n r e e') {v k d : Nat} (inside : v < e.tape.size)
    (low : k < n) (along : d < r) : e.table.coeff v k d = .ok (e.table.value v k d) ∧
      e'.table.coeff v k d = .ok (f (e.table.value v k d)) := by
  obtain ⟨orders, orders'⟩ := imaged.orders (Nat.zero_lt_of_lt low)
  have reached : ∀ {m : Nat}, (1 < n → m = r) → k = 0 ∨ d < m := fun same => by
    rcases Nat.eq_zero_or_pos k with zero | high
    · exact .inl zero
    · exact .inr (same (by omega) ▸ along)
  rw [← imaged.values v inside k low d along]
  exact ⟨Coefficients.coeff_eq imaged.wellFormed.table ⟨imaged.wellFormed.extent ▸ inside,
      low.trans_le (orders ▸ imaged.wellFormed.table.orders),
      reached fun high => (imaged.directions high).1⟩,
    Coefficients.coeff_eq imaged.wellFormed'.table
      ⟨imaged.wellFormed'.extent.trans imaged.size ▸ inside,
        low.trans_le (orders' ▸ imaged.wellFormed'.table.orders),
        reached fun high => (imaged.directions high).2⟩⟩

omit [Scalar F] [Base B F] [Base B' F] in
private theorem getElem?_map_seeds {seeds : List (List B)} {d : Nat} {seed' : List B'}
    (there : (seeds.map (List.map f))[d]? = some seed') :
    ∃ seed, seeds[d]? = some seed ∧ seed' = seed.map f := by
  rw [List.getElem?_map, Option.map_eq_some_iff] at there
  obtain ⟨seed, there, rfl⟩ := there
  exact ⟨seed, there, rfl⟩

private theorem Advanced.value_cases {e e₁ : Evaluator B} {seeds ys : List (List B)}
    {n m r v k d : Nat} (advanced : e.Advanced n m seeds ys e₁) (count : m = if n = 0 then 1 else r)
    (inside : v < e.tape.size) (low : k < n + 1) (along : d < r) :
    (k < n ∧ e₁.table.value v k d = e.table.value v k d) ∨
      (k = n ∧ (if n = 0 then 0 else d) < m ∧
        e₁.table.value v k d = e₁.table.value v k (if n = 0 then 0 else d)) := by
  rcases Nat.lt_succ_iff_lt_or_eq.1 low with low | rfl
  · refine .inl ⟨low, advanced.low v inside k low d (.inr ?_)⟩
    rw [advanced.directions, if_neg (by omega), count, if_neg (by omega)]
    exact along
  · refine .inr ⟨rfl, ?_⟩
    by_cases zero : k = 0
    · subst zero
      rw [count, if_pos rfl, if_pos rfl]
      exact ⟨Nat.one_pos, e₁.table.value_zero_order v d 0⟩
    · rw [count, if_neg zero, if_neg zero]
      exact ⟨along, rfl⟩

private theorem Imaged.accepts (imaged : Imaged D f id' n r e e') (positive : 0 < r)
    {seeds : List (List B)} (count : seeds.length = if n = 0 then 1 else r)
    (lengths : ∀ seed ∈ seeds, seed.length = e.numInputs) :
    e.Accepts n seeds.length seeds ∧ e'.Accepts n seeds.length (seeds.map (List.map f)) := by
  have some_ : seeds.length ≠ 0 := by split at count <;> omega
  have point : n = 0 → seeds.length = 1 := fun zero => by rw [count, if_pos zero]
  have along : 1 < n → seeds.length = r := fun high => by rw [count, if_neg (by omega)]
  have orders : n ≤ e.numOrders ∧ n ≤ e'.numOrders := by
    rcases Nat.eq_zero_or_pos n with rfl | some_
    · exact ⟨Nat.zero_le _, Nat.zero_le _⟩
    · exact ⟨(imaged.orders some_).1.ge, (imaged.orders some_).2.ge⟩
  refine ⟨⟨some_, rfl, lengths, point, orders.1, fun high =>
      (along high).trans (imaged.directions high).1.symm⟩,
    ⟨some_, List.length_map _, fun seed' member => ?_, point, orders.2, fun high =>
      (along high).trans (imaged.directions high).2.symm⟩⟩
  obtain ⟨seed, there, rfl⟩ := List.mem_map.1 member
  rw [List.length_map, lengths seed there, imaged.numInputs]

private theorem Imaged.forward_meant (hom : Base.Homomorphism D f)
    (imaged : Imaged D f id' n r e e')
    {seeds : List (List B)} (count : seeds.length = if n = 0 then 1 else r)
    (room : seeds.length ≤ r) (accepts : e.Accepts n seeds.length seeds)
    (given : ∀ seed ∈ seeds, ∀ u ∈ seed, D u) :
    ∃ ys e₁, Evaluator.forward n seeds.length seeds e = (.ok ys, e₁) ∧
      e.Advanced n seeds.length seeds ys e₁ ∧
      ∀ v < e.tape.size, ∀ k < n + 1, ∀ d < r, D (e₁.table.value v k d) := by
  have wf := imaged.wellFormed
  have lies := imaged.lies
  obtain ⟨ys, e₁, done, advanced, good⟩ := forward_total wf lies.onlyBuiltIns accepts
    (fun _ _ x => D x) fun d seed there i inside c low before => by
      have along : d < r := (List.getElem?_eq_some_iff.1 there).1.trans_le room
      have member := List.mem_of_getElem? there
      obtain ⟨x, known, made, _⟩ := lies.yields hom id' wf.tape inside seed
        (fun input => ⟨_,
          List.getElem?_eq_getElem (input.trans_eq (accepts.lengths seed member).symm),
          given seed member _ (List.getElem_mem _)⟩)
        (fun a made k le => (Nat.lt_or_eq_of_le le).elim
          (fun less => (low a (wf.tape.lt_of_produced made) k less).symm ▸
            imaged.meant a (wf.tape.lt_of_produced made) k less d along)
          fun same => same ▸ before a made)
        fun k less => (low i inside k less).symm ▸ imaged.meant i inside k less d along
      exact ⟨[x], made, fun s y here => by
        obtain ⟨rfl, rfl⟩ : s = 0 ∧ x = y := by
          cases s with
          | zero => exact ⟨rfl, Option.some.inj here⟩
          | succ s => cases here
        exact known⟩
  refine ⟨ys, e₁, done, advanced, fun v inside k low d along => ?_⟩
  rcases advanced.value_cases count inside low along with ⟨less, same⟩ | ⟨rfl, there, same⟩
  · rw [same]
    exact imaged.meant v inside k less d along
  · rw [same]
    exact good _ there v inside

private theorem Imaged.forward_image (hom : Base.Homomorphism D f)
    (imaged : Imaged D f id' n r e e')
    {seeds ys : List (List B)} (count : seeds.length = if n = 0 then 1 else r)
    (room : seeds.length ≤ r) (accepts' : e'.Accepts n seeds.length (seeds.map (List.map f)))
    {e₁ : Evaluator B} (advanced : e.Advanced n seeds.length seeds ys e₁)
    (meant : ∀ v < e.tape.size, ∀ k < n + 1, ∀ d < r, D (e₁.table.value v k d)) :
    ∃ ys' e₁', Evaluator.forward n seeds.length (seeds.map (List.map f)) e' = (.ok ys', e₁') ∧
      e'.Advanced n seeds.length (seeds.map (List.map f)) ys' e₁' ∧
      ∀ v < e.tape.size, ∀ k < n + 1, ∀ d < r,
        e₁'.table.value v k d = f (e₁.table.value v k d) := by
  -- the images hold on the image of the tape, so they are what is found there
  obtain ⟨ys', e₁', done', advanced', found⟩ := forward_of_holds imaged.wellFormed'
    (imaged.tape ▸ imaged.lies.image.onlyBuiltIns) accepts' (fun d v k => f (e₁.table.value v k d))
    (fun d along v inside k less => by
      rw [imaged.size] at inside
      have along : d < r := along.trans_le room
      rcases advanced.value_cases count inside (less.trans (Nat.lt_succ_self n)) along with
        ⟨_, same⟩ | ⟨rfl, _⟩
      · rw [same, imaged.values v inside k less d along]
      · exact absurd less (lt_irrefl k))
    (fun d seed' mapped i inside => by
      obtain ⟨seed, there, rfl⟩ := getElem?_map_seeds mapped
      have along : d < r := (List.getElem?_eq_some_iff.1 there).1.trans_le room
      rw [imaged.size] at inside
      rw [imaged.tape]
      exact imaged.lies.holds hom id' imaged.wellFormed.tape
        (fun v inside k le => meant v inside k (Nat.lt_succ_of_le le) d along) inside
        (advanced.holds d seed there i inside))
  refine ⟨ys', e₁', done', advanced', fun v inside k low d along => ?_⟩
  have cases' := advanced'.value_cases count (imaged.size.symm ▸ inside) low along
  rcases advanced.value_cases count inside low along with ⟨less, same⟩ | ⟨rfl, there, same⟩
  · rw [same, ← imaged.values v inside k less d along]
    rcases cases' with ⟨_, same'⟩ | ⟨rfl, _⟩
    · exact same'
    · exact absurd less (lt_irrefl k)
  · rw [same, ← found _ there v (imaged.size.symm ▸ inside)]
    rcases cases' with ⟨less, _⟩ | ⟨_, _, same'⟩
    · exact absurd less (lt_irrefl k)
    · exact same'

private theorem Imaged.forward (hom : Base.Homomorphism D f) (imaged : Imaged D f id' n r e e')
    (positive : 0 < r) {seeds : List (List B)} (count : seeds.length = if n = 0 then 1 else r)
    (given : ∀ seed ∈ seeds, seed.length = e.numInputs ∧ ∀ u ∈ seed, D u) :
    ∃ ys e₁ e₁', Evaluator.forward n seeds.length seeds e = (.ok ys, e₁) ∧
      Evaluator.forward n seeds.length (seeds.map (List.map f)) e' =
        (.ok (ys.map (List.map f)), e₁') ∧ e₁.tape = e.tape ∧ Imaged D f id' (n + 1) r e₁ e₁' := by
  have room : seeds.length ≤ r := by split at count <;> omega
  obtain ⟨accepts, accepts'⟩ := imaged.accepts positive count
    fun seed member => (given seed member).1
  obtain ⟨ys, e₁, done, advanced, meant⟩ := imaged.forward_meant hom count room accepts
    fun seed member => (given seed member).2
  obtain ⟨ys', e₁', done', advanced', values⟩ :=
    imaged.forward_image hom count room accepts' advanced meant
  refine ⟨ys, e₁, e₁', done, ?_, advanced.tape, ?_⟩
  · rw [done', advanced'.answer, advanced.answer, List.map_map]
    refine Prod.ext (congrArg Except.ok (List.map_congr_left fun d below => ?_)) rfl
    rw [imaged.outputs, Function.comp_apply, List.map_map]
    exact List.map_congr_left fun y member => values y (imaged.wellFormed.outputs y member) n
      (Nat.lt_succ_self n) d ((List.mem_range.1 below).trans_le room)
  · have directions : 1 < n + 1 → seeds.length = r := fun high => by
      rw [count, if_neg (by omega)]
    exact {
      wellFormed := advanced.wellFormed
      wellFormed' := advanced'.wellFormed
      lies := advanced.tape ▸ imaged.lies
      tape := by rw [advanced'.tape, advanced.tape, imaged.tape]
      outputs := by rw [advanced'.outputs, advanced.outputs, imaged.outputs]
      orders := fun _ => ⟨advanced.orders, advanced'.orders⟩
      directions := fun high => by
        rw [advanced.directions, advanced'.directions, if_neg (by omega), if_neg (by omega)]
        exact ⟨directions high, directions high⟩
      meant := advanced.tape ▸ meant
      values := advanced.tape ▸ values }

/-- A run of calls for further orders keeps an evaluator beside that of the image. -/
theorem Imaged.forwardFrom (hom : Base.Homomorphism D f) {rows : List (List (List B))}
    (imaged : Imaged D f id' n r e e') (positive : 0 < r)
    (counts : ∀ k seeds, rows[k]? = some seeds → seeds.length = if n + k = 0 then 1 else r)
    (given : ∀ seeds ∈ rows, ∀ seed ∈ seeds, seed.length = e.numInputs ∧ ∀ u ∈ seed, D u) :
    ∃ answers e₁ e₁', Evaluator.forwardFrom n rows e = (.ok answers, e₁) ∧
      Evaluator.forwardFrom n (rows.map (List.map (List.map f))) e' =
        (.ok (answers.map (List.map (List.map f))), e₁') ∧ e₁.tape = e.tape ∧
      Imaged D f id' (n + rows.length) r e₁ e₁' := by
  induction rows generalizing e e' n with
  | nil => exact ⟨[], e, e', rfl, rfl, rfl, imaged⟩
  | cons seeds rows ih =>
    obtain ⟨ys, mid, mid', first, first', tape, imaged⟩ := imaged.forward hom positive
      (counts 0 seeds rfl) (given seeds List.mem_cons_self)
    obtain ⟨zs, e₁, e₁', rest, rest', tape', imaged⟩ := ih imaged
      (fun k seeds there => by
        have count := counts (k + 1) seeds there
        rwa [show n + (k + 1) = n + 1 + k by omega] at count)
      (fun seeds member seed member' => by
        obtain ⟨count, meant⟩ := given seeds (List.mem_cons_of_mem _ member) seed member'
        exact ⟨count.trans (congrArg Tape.numInputs tape).symm, meant⟩)
    refine ⟨ys :: zs, e₁, e₁', run_bind_eq_ok.2 ⟨ys, mid, first, run_bind_eq_ok.2
      ⟨zs, e₁, rest, rfl⟩⟩, ?_, tape'.trans tape, ?_⟩
    · rw [List.map_cons]
      refine run_bind_eq_ok.2 ⟨_, mid', ?_, run_bind_eq_ok.2 ⟨_, e₁', rest', rfl⟩⟩
      rw [List.length_map]
      exact first'
    · rwa [List.length_cons, Nat.add_comm rows.length, ← Nat.add_assoc]

/-- Beside a run from a point on, an evaluator of the image of the tape runs along the images of the
seeds. -/
theorem forwardFrom_image (hom : Base.Homomorphism D f) (wf : e.WellFormed) (wf' : e'.WellFormed)
    (lies : e.tape.Over D) (tape : e'.tape = e.tape.image f id') (outputs : e'.outputs = e.outputs)
    (positive : 0 < r) {rows answers : List (List (List B))} {e₁ : Evaluator B}
    (counts : ∀ k seeds, rows[k]? = some seeds → seeds.length = if k = 0 then 1 else r)
    (given : ∀ seeds ∈ rows, ∀ seed ∈ seeds, seed.length = e.numInputs ∧ ∀ u ∈ seed, D u)
    (done : Evaluator.forwardFrom 0 rows e = (.ok answers, e₁)) :
    ∃ e₁', Evaluator.forwardFrom 0 (rows.map (List.map (List.map f))) e' =
      (.ok (answers.map (List.map (List.map f))), e₁') ∧ Imaged D f id' rows.length r e₁ e₁' := by
  obtain ⟨found, _, e₁', done', run, _, imaged⟩ :=
    (imaged_of_tape wf wf' lies tape outputs r).forwardFrom hom positive
      (fun k seeds there => by rw [Nat.zero_add]; exact counts k seeds there) given
  obtain ⟨same, rfl⟩ := Prod.mk.inj (done.symm.trans done')
  obtain rfl := Except.ok.inj same
  rw [Nat.zero_add] at imaged
  exact ⟨e₁', run, imaged⟩

end Evaluator

end Images

end TaylorTape
