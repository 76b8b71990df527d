import TaylorTape.Proofs.Forward

/-!
Runs of calls for the orders from zero on.

A run asks for order zero, then for order one, and so on.  If all calls succeed, every entry holds
at every order along every direction, and each answer consists of the coefficients of the outputs
that the table still has at the end.
-/

set_option autoImplicit false
set_option relaxedAutoImplicit false

namespace TaylorTape

variable {B F : Type} [Scalar F] [Base B F]

namespace Evaluator

/-- Calls for the orders from `k` on, one after another, each with its own seeds. -/
def forwardFrom (k : Nat) : List (List (List B)) → Evaluation B (List (List (List B)))
  | [] => return []
  | seeds :: rest => do
    let ys ← forward k seeds.length seeds
    return ys :: (← forwardFrom (k + 1) rest)

/-- A run is split where some of its calls have been answered. -/
theorem forwardFrom_append {e e' : Evaluator B} {k : Nat}
    {rows rows' answers : List (List (List B))} :
    forwardFrom k (rows ++ rows') e = (.ok answers, e') ↔ ∃ ys mid zs,
      forwardFrom k rows e = (.ok ys, mid) ∧
      forwardFrom (k + rows.length) rows' mid = (.ok zs, e') ∧ answers = ys ++ zs := by
  induction rows generalizing e k answers with
  | nil =>
    constructor
    · intro done
      exact ⟨[], e, answers, rfl, done, rfl⟩
    · rintro ⟨ys, mid, zs, none, done, rfl⟩
      obtain ⟨answer, rfl⟩ := Prod.mk.inj none
      obtain rfl := Except.ok.inj answer
      exact done
  | cons seeds rows ih =>
    have shift : k + (seeds :: rows).length = k + 1 + rows.length := by
      rw [List.length_cons]
      omega
    rw [shift]
    constructor
    · intro done
      obtain ⟨ys, e₁, first, rest⟩ := run_bind_eq_ok.1 done
      obtain ⟨zs, e₂, later, last⟩ := run_bind_eq_ok.1 rest
      obtain ⟨answer, rfl⟩ := Prod.mk.inj last
      obtain rfl := Except.ok.inj answer
      obtain ⟨us, mid, vs, before, after, rfl⟩ := ih.1 later
      exact ⟨ys :: us, mid, vs,
        run_bind_eq_ok.2 ⟨ys, e₁, first, run_bind_eq_ok.2 ⟨us, mid, before, rfl⟩⟩, after, rfl⟩
    · rintro ⟨all, mid, vs, done, after, rfl⟩
      obtain ⟨ys, e₁, first, rest⟩ := run_bind_eq_ok.1 done
      obtain ⟨us, e₂, before, last⟩ := run_bind_eq_ok.1 rest
      obtain ⟨answer, rfl⟩ := Prod.mk.inj last
      obtain rfl := Except.ok.inj answer
      exact run_bind_eq_ok.2 ⟨ys, e₁, first,
        run_bind_eq_ok.2 ⟨us ++ vs, e', ih.2 ⟨us, _, vs, before, after, rfl⟩, rfl⟩⟩

theorem forwardFrom_single {e e' : Evaluator B} {k : Nat} {seeds ys : List (List B)}
    (done : forward k seeds.length seeds e = (.ok ys, e')) :
    forwardFrom k [seeds] e = (.ok [ys], e') :=
  run_bind_eq_ok.2 ⟨ys, e', done, rfl⟩

/-- The seed of an order along a direction, where order zero has one for all directions. -/
def seedAt (rows : List (List (List B))) (k d : Nat) : List B :=
  (((rows[k]?).getD [])[if k = 0 then 0 else d]?).getD []

/-- The table has the orders that some seeds lead to. -/
structure Cached (e : Evaluator B) (rows : List (List (List B))) : Prop where
  orders : rows.length ≤ e.numOrders
  holds : ∀ k < rows.length, ∀ d < e.numDirections, ∀ i < e.tape.size,
    e.tape.Holds k (seedAt rows k d) (e.table.along d) i
  lengths : ∀ k < rows.length, ∀ d < e.numDirections, (seedAt rows k d).length = e.numInputs

theorem cached_nil (e : Evaluator B) : e.Cached [] :=
  ⟨Nat.zero_le _, nofun, nofun⟩

private theorem seedAt_append_of_lt {rows : List (List (List B))} (seeds : List (List B)) {k : Nat}
    (d : Nat) (below : k < rows.length) : seedAt (rows ++ [seeds]) k d = seedAt rows k d := by
  unfold seedAt
  rw [List.getElem?_append_left below]

theorem seedAt_cons_succ (first : List (List B)) {rows : List (List (List B))} {k d : Nat}
    (low : k < rows.length) (room : d < rows[k].length) :
    seedAt (first :: rows) (k + 1) d = rows[k][d] := by
  simp [seedAt, low, room]

private theorem seedAt_append_self (rows : List (List (List B))) {seeds : List (List B)} {d : Nat}
    {seed : List B} (found : seeds[if rows.length = 0 then 0 else d]? = some seed) :
    seedAt (rows ++ [seeds]) rows.length d = seed := by
  unfold seedAt
  rw [List.getElem?_concat_length, Option.getD_some, found]
  rfl

omit [Scalar F] [Base B F] in
/-- A seed that has something at a place is one of the rows. -/
theorem exists_of_seedAt {rows : List (List (List B))} {k d j : Nat} {x : B}
    (there : (seedAt rows k d)[j]? = some x) :
    ∃ row seed, rows[k]? = some row ∧ row[if k = 0 then 0 else d]? = some seed ∧
      seed[j]? = some x := by
  unfold seedAt at there
  cases order : rows[k]? with
  | none =>
    rw [order] at there
    cases there
  | some row =>
    rw [order, Option.getD_some] at there
    cases direction : row[if k = 0 then 0 else d]? with
    | none =>
      rw [direction] at there
      cases there
    | some seed =>
      rw [direction, Option.getD_some] at there
      exact ⟨row, seed, rfl, direction, there⟩

/-- A call for the next order extends the orders that are there. -/
theorem Cached.next {e e' : Evaluator B} {rows : List (List (List B))} {r : Nat}
    {seeds ys : List (List B)} (wf : e.WellFormed) (cached : e.Cached rows)
    (advanced : e.Advanced rows.length r seeds ys e') : e'.Cached (rows ++ [seeds]) := by
  have positive : 0 < e.numDirections := wf.table.directions
  have tape := advanced.tape
  -- the seed of the new order along each direction
  have seed : ∀ d < e'.numDirections, ∃ seed, seeds[if rows.length = 0 then 0 else d]? = some seed ∧
      seed.length = e.numInputs := by
    intro d below
    have inside : (if rows.length = 0 then 0 else d) < seeds.length := by
      rw [advanced.directions] at below
      rw [advanced.accepted.count]
      by_cases zero : rows.length = 0
      · rw [if_pos zero, advanced.accepted.point zero]
        exact Nat.one_pos
      · rw [if_neg zero] at below ⊢
        exact below
    exact ⟨_, List.getElem?_eq_getElem inside,
      advanced.accepted.lengths _ (List.getElem_mem inside)⟩
  -- a lower order above zero has the directions that it had before
  have same : ∀ k < rows.length, ∀ d < e'.numDirections, k = 0 ∨ d < e.numDirections := by
    intro k low d below
    rw [advanced.directions] at below
    by_cases first : k = 0
    · exact .inl first
    · rw [if_neg (by omega)] at below
      have := advanced.accepted.directions (by omega)
      omega
  constructor
  case orders =>
    rw [List.length_append, List.length_singleton, advanced.orders]
  case holds =>
    intro k below d along i inside
    rw [tape] at inside ⊢
    rw [List.length_append, List.length_singleton] at below
    rcases Nat.lt_succ_iff_lt_or_eq.1 below with low | rfl
    · rw [seedAt_append_of_lt seeds d low]
      have read : ∀ v < e.tape.size, ∀ j ≤ k, e'.table.along d v j = e.table.value v j d :=
        fun v var j le => advanced.low v var j (by omega) d
          (by have := same k low d along; omega)
      rcases same k low d along with rfl | along'
      · have zero : seedAt rows 0 d = seedAt rows 0 0 := rfl
        rw [zero]
        refine (cached.holds 0 low 0 positive i inside).congr wf.tape fun v made j le => ?_
        obtain rfl := Nat.le_zero.1 le
        rw [read v (wf.tape.lt_of_produced made) 0 le_rfl]
        exact e.table.value_zero_order v 0 d
      · refine (cached.holds k low d along' i inside).congr wf.tape fun v made j le => ?_
        exact (read v (wf.tape.lt_of_produced made) j le).symm
    · obtain ⟨seed, found, _⟩ := seed d along
      rw [seedAt_append_self rows found]
      by_cases zero : rows.length = 0
      · rw [if_pos zero] at found
        refine (advanced.holds 0 seed found i inside).congr wf.tape fun v _ j le => ?_
        obtain rfl : j = 0 := by omega
        exact e'.table.value_zero_order v 0 d
      · rw [if_neg zero] at found
        exact advanced.holds d seed found i inside
  case lengths =>
    intro k below d along
    have inputs : e'.numInputs = e.numInputs := congrArg Tape.numInputs tape
    rw [inputs]
    rw [List.length_append, List.length_singleton] at below
    rcases Nat.lt_succ_iff_lt_or_eq.1 below with low | rfl
    · rw [seedAt_append_of_lt seeds d low]
      rcases same k low d along with rfl | along'
      · exact cached.lengths 0 low 0 positive
      · exact cached.lengths k low d along'
    · obtain ⟨seed, found, count⟩ := seed d along
      rw [seedAt_append_self rows found, count]

/-- The answers of calls for the orders from `k` on: the coefficients of the outputs at each order
along each direction. -/
def answers (e : Evaluator B) (k : Nat) : List (List (List B)) → List (List (List B))
  | [] => []
  | seeds :: rest =>
    ((List.range seeds.length).map fun d => e.outputs.map fun y => e.table.value y k d) ::
      e.answers (k + 1) rest

/-- The answer for an order is read off the table at that order. -/
theorem getElem?_answers (e : Evaluator B) (k : Nat) (rows : List (List (List B))) (j : Nat) :
    (e.answers k rows)[j]? = rows[j]?.map fun seeds => (List.range seeds.length).map fun d =>
      e.outputs.map fun y => e.table.value y (k + j) d := by
  induction rows generalizing k j with
  | nil => rfl
  | cons seeds rows ih =>
    cases j with
    | zero => rfl
    | succ j =>
      rw [answers, List.getElem?_cons_succ, ih, List.getElem?_cons_succ, Nat.add_right_comm,
        Nat.add_assoc]

/-- What a run that succeeded has done. -/
structure Ran (e : Evaluator B) (before rows answers : List (List (List B))) (e' : Evaluator B) :
    Prop where
  wellFormed : e'.WellFormed
  tape : e'.tape = e.tape
  outputs : e'.outputs = e.outputs
  cached : e'.Cached (before ++ rows)
  orders : rows ≠ [] → e'.numOrders = before.length + rows.length
  directions : ∀ k seeds, 0 < before.length + k → rows[k]? = some seeds →
    seeds.length = e'.numDirections
  same : 1 < before.length → e'.numDirections = e.numDirections
  kept : ∀ v < e.tape.size, ∀ k < before.length, ∀ d, (k = 0 ∨ d < e.numDirections) →
    e'.table.value v k d = e.table.value v k d
  answers : answers = e'.answers before.length rows

/-- A run of calls that succeeds extends the orders that are there. -/
theorem forwardFrom_sound {e e' : Evaluator B} {before rows answers : List (List (List B))}
    (wf : e.WellFormed) (cached : e.Cached before)
    (done : forwardFrom before.length rows e = (.ok answers, e')) :
    e.Ran before rows answers e' := by
  induction rows generalizing e before answers with
  | nil =>
    obtain ⟨answer, rfl⟩ := Prod.mk.inj done
    obtain rfl := Except.ok.inj answer
    exact ⟨wf, rfl, rfl, by rwa [List.append_nil], by simp, by simp, fun _ => rfl,
      fun _ _ _ _ _ _ => rfl, rfl⟩
  | cons seeds rows ih =>
    obtain ⟨ys, e₁, first, rest⟩ := run_bind_eq_ok.1 done
    obtain ⟨zs, e₂, later, last⟩ := run_bind_eq_ok.1 rest
    obtain ⟨answer, rfl⟩ := Prod.mk.inj last
    obtain rfl := Except.ok.inj answer
    have advanced := forward_sound wf first
    have next := cached.next wf advanced
    have length : (before ++ [seeds]).length = before.length + 1 := by simp
    have ran := ih advanced.wellFormed next (length ▸ later)
    have kept : ∀ v < e.tape.size, ∀ k < before.length + 1, ∀ d,
        (k = 0 ∨ d < e₁.numDirections) → e₂.table.value v k d = e₁.table.value v k d :=
      fun v var k low d along => ran.kept v (advanced.tape ▸ var) k (length ▸ low) d along
    -- above order zero the directions stay as they are
    have settled : 0 < before.length → e₂.numDirections = e₁.numDirections := by
      intro positive
      exact ran.same (by omega)
    have own : 0 < before.length → e₁.numDirections = seeds.length := by
      intro positive
      rw [advanced.directions, if_neg (by omega)]
    have former : 1 < before.length → e₁.numDirections = e.numDirections := by
      intro higher
      rw [own (by omega)]
      exact advanced.accepted.directions higher
    refine ⟨ran.wellFormed, ran.tape.trans advanced.tape, ran.outputs.trans advanced.outputs, ?_,
      fun _ => ?_, ?_, fun higher => ?_, ?_, ?_⟩
    · have := ran.cached
      rwa [List.append_assoc] at this
    · by_cases none : rows = []
      · subst none
        obtain rfl : e₁ = e₂ := congrArg Prod.snd later
        exact advanced.orders
      · rw [ran.orders none, length, List.length_cons]
        omega
    · intro k row positive found
      cases k with
      | zero =>
        obtain rfl : seeds = row := by simpa using found
        rw [settled positive, own positive]
      | succ k => exact ran.directions k row (by omega) (by simpa using found)
    · rw [settled (by omega), former higher]
    · intro v var k low d along
      have along₁ : k = 0 ∨ d < e₁.numDirections := by
        rcases along with zero | below
        · exact .inl zero
        · by_cases zero : k = 0
          · exact .inl zero
          · exact .inr (by rwa [former (by omega)])
      exact (kept v var k (by omega) d along₁).trans (advanced.low v var k low d along₁)
    · rw [ran.answers, length, advanced.answer]
      refine congrArg (· :: _) (List.map_congr_left fun d below => ?_)
      rw [ran.outputs, advanced.outputs]
      refine List.map_congr_left fun y member => ?_
      refine (kept y (wf.outputs y member) before.length (by omega) d ?_).symm
      by_cases zero : before.length = 0
      · exact .inl zero
      · exact .inr (by rw [own (by omega)]; exact List.mem_range.1 below)

theorem forwardFrom_zero {e e' : Evaluator B} {rows answers : List (List (List B))}
    (wf : e.WellFormed) (done : forwardFrom 0 rows e = (.ok answers, e')) :
    e.Ran [] rows answers e' :=
  forwardFrom_sound wf e.cached_nil done

/-- A run of calls for the orders above those that are there succeeds if along each direction there
are coefficients that hold at all of its orders, and it finds them. -/
theorem forwardFrom_of_holds {e : Evaluator B} {r n : Nat} {rows : List (List (List B))}
    (wf : e.WellFormed) (builtIns : e.tape.OnlyBuiltIns) (positive : 0 < r) (started : 0 < n)
    (orders : e.numOrders = n) (directions : 1 < n → e.numDirections = r)
    (even : ∀ seeds ∈ rows, seeds.length = r ∧ ∀ seed ∈ seeds, seed.length = e.numInputs)
    (c : Nat → Nat → Nat → B)
    (low : ∀ d < r, ∀ v < e.tape.size, ∀ k < n, c d v k = e.table.value v k d)
    (holds : ∀ j seeds d seed, rows[j]? = some seeds → seeds[d]? = some seed →
      ∀ i < e.tape.size, e.tape.Holds (n + j) seed (c d) i) :
    ∃ answers e', forwardFrom n rows e = (.ok answers, e') ∧
      ∀ d < r, ∀ v < e.tape.size, ∀ k < n + rows.length, e'.table.value v k d = c d v k := by
  induction rows generalizing e n with
  | nil => exact ⟨[], e, rfl, fun d along v var k below => (low d along v var k below).symm⟩
  | cons seeds rows ih =>
    obtain ⟨count, lengths⟩ := even seeds List.mem_cons_self
    have accepts : e.Accepts n seeds.length seeds :=
      ⟨by omega, rfl, lengths, fun zero => by omega, orders.ge,
        fun higher => count.trans (directions higher).symm⟩
    obtain ⟨ys, e₁, first, advanced, found⟩ := forward_of_holds wf builtIns accepts c
      (fun d along => low d (count ▸ along))
      (fun d seed there i inside => holds 0 seeds d seed rfl there i inside)
    have along : e₁.numDirections = r := by rw [advanced.directions, if_neg (by omega), count]
    have tape := advanced.tape
    obtain ⟨zs, e₂, rest, values⟩ := ih (e := e₁) (n := n + 1) advanced.wellFormed (tape ▸ builtIns)
      (Nat.succ_pos n) advanced.orders (fun _ => along)
      (fun seeds member => by
        obtain ⟨count, lengths⟩ := even seeds (List.mem_cons_of_mem _ member)
        exact ⟨count, fun seed given => (lengths seed given).trans
          (congrArg Tape.numInputs tape).symm⟩)
      (fun d below v var k less => by
        rw [tape] at var
        rcases Nat.lt_succ_iff_lt_or_eq.1 less with less | rfl
        · rw [advanced.low v var k less d (.inr (along ▸ below))]
          exact low d below v var k less
        · exact (found d (count ▸ below) v var).symm)
      (fun j seeds d seed row there i inside => by
        rw [tape] at inside ⊢
        rw [Nat.add_assoc, Nat.add_comm 1 j]
        exact holds (j + 1) seeds d seed row there i inside)
    refine ⟨ys :: zs, e₂, ?_, fun d below v var k less => ?_⟩
    · exact run_bind_eq_ok.2 ⟨ys, e₁, first, run_bind_eq_ok.2 ⟨zs, e₂, rest, rfl⟩⟩
    · refine values d below v (tape ▸ var) k ?_
      rw [List.length_cons] at less
      omega

theorem Ran.holds_along {e e' : Evaluator B} {before rows found : List (List (List B))}
    (ran : e.Ran before rows found e') {d : Nat} (inside : d < e'.numDirections) :
    ∀ k < (before ++ rows).length, ∀ i < e.tape.size,
      e.tape.Holds k (seedAt (before ++ rows) k d) (e'.table.along d) i := by
  intro k low i var
  rw [← ran.tape] at var ⊢
  exact ran.cached.holds k low d inside i var

theorem Ran.answers_of_even {e e' : Evaluator B} {before rows found : List (List (List B))} {r : Nat}
    (ran : e.Ran before rows found e') (even : ∀ seeds ∈ rows, seeds.length = r) :
    found = (List.range rows.length).map fun k => (List.range r).map fun d =>
      e.outputs.map fun y => e'.table.value y (before.length + k) d := by
  refine List.ext_getElem? fun k => ?_
  rw [ran.answers, getElem?_answers, List.getElem?_map, ran.outputs]
  by_cases below : k < rows.length
  · rw [List.getElem?_eq_getElem below, List.getElem?_range below, Option.map_some,
      Option.map_some, even _ (List.getElem_mem below)]
  · rw [List.getElem?_eq_none (by omega), List.getElem?_eq_none (by simpa using below)]
    rfl

section Answered

variable {e f : Evaluator B} {rows answers : List (List (List B))} {k : Nat}

theorem point_of_forwardFrom (wf : e.WellFormed) (done : forwardFrom 0 rows e = (.ok answers, f)) :
    ∀ seeds, rows[0]? = some seeds → seeds.length = 1 := by
  intro seeds there
  obtain ⟨rest, rfl⟩ : ∃ rest, rows = seeds :: rest := by
    cases rows with
    | nil => cases there
    | cons first rest => exact ⟨rest, congrArg (· :: rest) (Option.some.inj there)⟩
  obtain ⟨ys, mid, first, _⟩ := run_bind_eq_ok.1 done
  exact (forward_sound wf first).accepted.point rfl

private theorem answers_alike (e : Evaluator B) (k : Nat) (rows : List (List (List B))) :
    List.Forall₂ (fun seeds ys => ys.length = seeds.length ∧ ∀ y ∈ ys, y.length = e.numOutputs) rows
      (e.answers k rows) := by
  induction rows generalizing k with
  | nil => exact .nil
  | cons seeds rows ih => exact .cons ⟨by simp, by simp [numOutputs]⟩ (ih (k + 1))

theorem Ran.alike (ran : e.Ran [] rows answers f) :
    List.Forall₂ (fun seeds ys => ys.length = seeds.length ∧ ∀ y ∈ ys, y.length = e.numOutputs) rows
      answers := by
  have alike := answers_alike f 0 rows
  rw [numOutputs, ran.outputs] at alike
  rwa [ran.answers]

theorem Ran.lt_directions (ran : e.Ran [] rows answers f)
    (point : ∀ seeds, rows[0]? = some seeds → seeds.length = 1) {seeds : List (List B)} {d : Nat}
    (there : rows[k]? = some seeds) (among : d < seeds.length) : d < f.numDirections := by
  rcases Nat.eq_zero_or_pos k with rfl | positive
  · have single := point seeds there
    have one : 1 ≤ f.numDirections := ran.wellFormed.table.directions
    omega
  · rwa [← ran.directions k seeds (by simpa using positive) there]

theorem Ran.numDirections_eq (ran : e.Ran [] rows answers f) (several : 1 < rows.length) :
    f.numDirections = rows[1].length :=
  (ran.directions 1 _ Nat.one_pos (List.getElem?_eq_getElem several)).symm

/-- The seeds that are made of answers. -/
theorem Ran.seedAt_answers (ran : e.Ran [] rows answers f)
    (point : ∀ seeds, rows[0]? = some seeds → seeds.length = 1) {d : Nat} (below : k < rows.length)
    (along : d < f.numDirections) :
    seedAt answers k d = e.outputs.map fun y => f.table.value y k d := by
  have there : rows[k]? = some rows[k] := List.getElem?_eq_getElem below
  have answered : answers[k]? = some ((List.range rows[k].length).map fun d =>
      e.outputs.map fun y => f.table.value y k d) := by
    rw [ran.answers, getElem?_answers, there, ran.outputs, Option.map_some, List.length_nil,
      Nat.zero_add]
  rw [seedAt, answered, Option.getD_some, List.getElem?_map]
  rcases Nat.eq_zero_or_pos k with rfl | positive
  · rw [if_pos rfl, point _ there, List.getElem?_range Nat.one_pos, Option.map_some,
      Option.getD_some]
    exact List.map_congr_left fun y _ => f.table.value_zero_order y 0 d
  · have many := ran.directions k _ (by simpa using positive) there
    rw [if_neg (Nat.ne_of_gt positive), List.getElem?_range (many ▸ along), Option.map_some,
      Option.getD_some]

end Answered

section Single

variable {e e' : Evaluator B} {rows : List (List B)} {found : List (List (List B))}

omit [Scalar F] [Base B F] in
private theorem seedAt_single (rows : List (List B)) (k : Nat) :
    seedAt (rows.map ([·])) k 0 = (rows[k]?).getD [] := by
  unfold seedAt
  rw [List.getElem?_map, ite_self]
  cases rows[k]? <;> rfl

/-- After a run along one direction every entry holds at each of its orders. -/
theorem Ran.holds (ran : e.Ran [] (rows.map ([·])) found e') :
    ∀ k < rows.length, ∀ i < e.tape.size,
      e.tape.Holds k ((rows[k]?).getD []) (e'.table.along 0) i := by
  intro k below i inside
  rw [← seedAt_single]
  exact ran.holds_along ran.wellFormed.table.directions k (by simpa using below) i inside

theorem Ran.lengths (ran : e.Ran [] (rows.map ([·])) found e') :
    ∀ seed ∈ rows, seed.length = e.numInputs := by
  intro seed member
  obtain ⟨k, below, rfl⟩ := List.getElem_of_mem member
  have count := ran.cached.lengths k (by simpa using below) 0 ran.wellFormed.table.directions
  rw [show seedAt ([] ++ rows.map ([·])) k 0 = _ from seedAt_single rows k,
    List.getElem?_eq_getElem below] at count
  exact count.trans (congrArg Tape.numInputs ran.tape)

theorem Ran.answers_eq (ran : e.Ran [] (rows.map ([·])) found e') :
    found = (List.range rows.length).map fun k => [e.outputs.map fun y => e'.table.value y k 0] := by
  have even : ∀ seeds ∈ rows.map ([·]), seeds.length = 1 := by simp
  rw [ran.answers_of_even even, List.length_map]
  exact List.map_congr_left fun k _ => by rw [List.length_nil, Nat.zero_add]; rfl

end Single

end Evaluator

end TaylorTape
