import TaylorTape.Proofs.Elements
import TaylorTape.Proofs.Frozen
import TaylorTape.Proofs.Reals

/-!
Directions do not interact.

A sweep along a direction reads the coefficients of that direction and those of order zero, which all
directions share.  So the coefficients that a run along several directions finds along one of them are
just those that a run along this direction alone finds.
-/

set_option autoImplicit false
set_option relaxedAutoImplicit false

namespace TaylorTape

variable {B F : Type} [Scalar F] [Base B F]

namespace Evaluator

variable {e e' : Evaluator B} {r : Nat}

/-- What belongs to one direction, of what is given or answered for each of them. -/
def lane (d : Nat) (row : List (List B)) : List (List B) :=
  (row[d]?).toList

omit [Scalar F] [Base B F] in
private theorem lane_eq {d : Nat} {row : List (List B)} {seed : List B}
    (found : row[d]? = some seed) :
    lane d row = [seed] := by
  rw [lane, found, Option.toList_some]

private theorem holds_of_run {x : List B} {rows answers : List (List (List B))} (wf : e.WellFormed)
    (cached : e.Cached [[x]]) (done : forwardFrom 1 rows e = (.ok answers, e')) :
    (∀ v < e.tape.size, ∀ d, e'.table.value v 0 d = e.table.value v 0 d) ∧
    ∀ j seeds, rows[j]? = some seeds → ∀ d seed, seeds[d]? = some seed →
      seed.length = e.numInputs ∧
        ∀ i < e.tape.size, e.tape.Holds (1 + j) seed (e'.table.along d) i := by
  have ran := forwardFrom_sound wf cached done
  refine ⟨fun v var d => ran.kept v var 0 Nat.one_pos d (.inl rfl), fun j seeds row d seed there => ?_⟩
  have order : 1 + j < ([[x]] ++ rows).length := by
    have := (List.getElem?_eq_some_iff.1 row).1
    rw [List.length_append, List.length_singleton]
    omega
  have along : d < e'.numDirections :=
    ran.directions j seeds (Nat.add_pos_left Nat.one_pos j) row ▸ (List.getElem?_eq_some_iff.1 there).1
  have given : seedAt ([[x]] ++ rows) (1 + j) d = seed := by
    have above : ([[x]] ++ rows)[1 + j]? = some seeds := by
      rw [List.getElem?_append_right (Nat.le_add_right 1 j), List.length_singleton,
        Nat.add_sub_cancel_left, row]
    rw [seedAt, above, if_neg (by omega), Option.getD_some, there, Option.getD_some]
  have length := ran.cached.lengths (1 + j) order d along
  have holds := ran.cached.holds (1 + j) order d along
  rw [given, ran.tape] at holds
  rw [given, numInputs, ran.tape] at length
  exact ⟨length, holds⟩

private theorem answers_lane {s s' : Evaluator B} {rows : List (List (List B))} {d : Nat}
    (outputs : s'.outputs = s.outputs) (along : ∀ seeds ∈ rows, d < seeds.length)
    (same : ∀ y ∈ s.outputs, ∀ k < 1 + rows.length, s'.table.value y k 0 = s.table.value y k d) :
    s'.answers 1 (rows.map (lane d)) = (s.answers 1 rows).map (lane d) := by
  apply List.ext_getElem?
  intro j
  rw [getElem?_answers, List.getElem?_map, List.getElem?_map, getElem?_answers]
  cases row : rows[j]? with
  | none => rfl
  | some seeds =>
    obtain ⟨below, rfl⟩ := List.getElem?_eq_some_iff.1 row
    have inside := along rows[j] (List.getElem_mem below)
    have single : (lane d rows[j]).length = 1 := by
      rw [lane_eq (List.getElem?_eq_getElem inside), List.length_singleton]
    have answer : lane d ((List.range rows[j].length).map fun d =>
        s.outputs.map fun y => s.table.value y (1 + j) d) =
        [s.outputs.map fun y => s.table.value y (1 + j) d] := by
      apply lane_eq
      rw [List.getElem?_map, List.getElem?_range inside, Option.map_some]
    rw [Option.map_some, Option.map_some, Option.map_some, Option.map_some, answer, single, outputs]
    exact congrArg (fun row => some [row]) (List.map_congr_left fun y member =>
      same y member (1 + j) (by omega))

private theorem length_of_answers {s : Evaluator B} {rows : List (List (List B))}
    (even : ∀ seeds ∈ rows, seeds.length = r) : ∀ row ∈ s.answers 1 rows, row.length = r := by
  intro row member
  obtain ⟨j, there⟩ := List.getElem?_of_mem member
  rw [getElem?_answers, Option.map_eq_some_iff] at there
  obtain ⟨seeds, given, rfl⟩ := there
  rw [List.length_map, List.length_range]
  exact even seeds (List.mem_of_getElem? given)

section Above

variable {x : List B} {rows : List (List (List B))} (wf : e.WellFormed)
  (builtIns : e.tape.OnlyBuiltIns) (cached : e.Cached [[x]]) (orders : e.numOrders = 1)
  (even : ∀ seeds ∈ rows, seeds.length = r)
include wf builtIns cached orders even

/-- What a run along several directions finds along one of them, a run along this one finds. -/
private theorem lane_of_run {answers : List (List (List B))}
    (done : forwardFrom 1 rows e = (.ok answers, e')) {d : Nat} (along : d < r) :
    ∃ e'', forwardFrom 1 (rows.map (lane d)) e = (.ok (answers.map (lane d)), e'') ∧
      ∀ v < e.tape.size, ∀ k < 1 + rows.length, e''.table.value v k 0 = e'.table.value v k d := by
  obtain ⟨zero, holds⟩ := holds_of_run wf cached done
  have inside : ∀ seeds ∈ rows, d < seeds.length := fun seeds member => even seeds member ▸ along
  have given : ∀ seeds ∈ rows, ∃ seed, seeds[d]? = some seed ∧ lane d seeds = [seed] := by
    intro seeds member
    have there := List.getElem?_eq_getElem (inside seeds member)
    exact ⟨_, there, lane_eq there⟩
  have single : ∀ seeds ∈ rows.map (lane d), seeds.length = 1 ∧
      ∀ seed ∈ seeds, seed.length = e.numInputs := by
    intro single listed
    obtain ⟨seeds, member, rfl⟩ := List.mem_map.1 listed
    obtain ⟨seed, there, only⟩ := given seeds member
    obtain ⟨j, row⟩ := List.getElem?_of_mem member
    rw [only]
    exact ⟨rfl, by simpa using (holds j seeds row d seed there).1⟩
  obtain ⟨ys, e'', single, values⟩ := forwardFrom_of_holds wf builtIns Nat.one_pos Nat.one_pos
    orders (by simp) single (fun _ => e'.table.along d)
    (by
      intro d' first v var k below
      obtain rfl : k = 0 := by omega
      exact (zero v var d).trans (e.table.value_zero_order v d d'))
    (by
      intro j row d' seed' found there i inside
      rw [List.getElem?_map, Option.map_eq_some_iff] at found
      obtain ⟨seeds, row, rfl⟩ := found
      obtain ⟨seed, here, only⟩ := given seeds (List.mem_of_getElem? row)
      rw [only] at there
      obtain rfl := List.mem_singleton.1 (List.mem_of_getElem? there)
      exact (holds j seeds row d seed' here).2 i inside)
  rw [List.length_map] at values
  have ran := forwardFrom_sound wf cached done
  have ran' := forwardFrom_sound wf cached single
  have same : ys = answers.map (lane d) := by
    rw [ran.answers, ran'.answers]
    refine answers_lane (ran'.outputs.trans ran.outputs.symm) inside fun y member k below => ?_
    rw [ran.outputs] at member
    exact values 0 Nat.one_pos y (wf.outputs y member) k below
  exact ⟨e'', same ▸ single, values 0 Nat.one_pos⟩

private theorem run_of_lanes (positive : 0 < r)
    (each : ∀ d < r, ∃ answers e', forwardFrom 1 (rows.map (lane d)) e = (.ok answers, e')) :
    ∃ answers e', forwardFrom 1 rows e = (.ok answers, e') := by
  have : Nonempty (Evaluator B) := ⟨e⟩
  choose! answers left done using each
  have alone : ∀ d < r, (∀ v < e.tape.size, ∀ d', (left d).table.value v 0 d' = e.table.value v 0 d') ∧
      ∀ j seeds, rows[j]? = some seeds → ∀ seed, seeds[d]? = some seed →
        seed.length = e.numInputs ∧
          ∀ i < e.tape.size, e.tape.Holds (1 + j) seed ((left d).table.along 0) i := by
    intro d along
    obtain ⟨zero, holds⟩ := holds_of_run wf cached (done d along)
    refine ⟨zero, fun j seeds row seed there => ?_⟩
    refine holds j [seed] ?_ 0 seed rfl
    rw [List.getElem?_map, row, Option.map_some, lane_eq there]
  obtain ⟨ys, e', run, _⟩ := forwardFrom_of_holds wf builtIns positive Nat.one_pos orders (by simp)
    (by
      intro seeds member
      refine ⟨even seeds member, fun seed given => ?_⟩
      obtain ⟨j, row⟩ := List.getElem?_of_mem member
      obtain ⟨d, there⟩ := List.getElem?_of_mem given
      have along : d < r := even seeds member ▸ (List.getElem?_eq_some_iff.1 there).1
      exact ((alone d along).2 j seeds row seed there).1)
    (fun d => (left d).table.along 0)
    (by
      intro d along v var k below
      obtain rfl : k = 0 := by omega
      exact ((alone d along).1 v var 0).trans (e.table.value_zero_order v 0 d))
    (by
      intro j seeds d seed row there i inside
      have along : d < r :=
        even seeds (List.mem_of_getElem? row) ▸ (List.getElem?_eq_some_iff.1 there).1
      exact ((alone d along).2 j seeds row seed there).2 i inside)
  exact ⟨ys, e', run⟩

end Above

/-- Directions do not interact: from any point a run along several directions succeeds just where the
run along each of them alone succeeds, and answers along each as that run does. -/
theorem directions_apart [LawfulBase B] (recorded : e.RecordedOfBuiltIns) (x : List B)
    (positive : 0 < r) {rows : List (List (List B))} (even : ∀ seeds ∈ rows, seeds.length = r) :
    ((∃ answers e', forwardFrom 0 ([x] :: rows) e = (.ok answers, e')) ↔
      ∀ d < r, ∃ answers e', forwardFrom 0 ([x] :: rows.map (lane d)) e = (.ok answers, e')) ∧
    ∀ answers e', forwardFrom 0 ([x] :: rows) e = (.ok answers, e') →
      ∃ y0 above, answers = [y0] :: above ∧ (∀ row ∈ above, row.length = r) ∧ ∀ d < r, ∃ e'',
        forwardFrom 0 ([x] :: rows.map (lane d)) e = (.ok ([y0] :: above.map (lane d)), e'') := by
  have wf := recorded.recorded.wellFormed
  have split : ∀ rows answers e', forwardFrom 0 ([x] :: rows) e = (.ok answers, e') ↔
      ∃ ys e₀ zs, forward 0 1 [x] e = (.ok ys, e₀) ∧ forwardFrom 1 rows e₀ = (.ok zs, e') ∧
        answers = ys :: zs := by
    intro rows answers e'
    constructor
    · intro done
      obtain ⟨ys, e₀, first, rest⟩ := run_bind_eq_ok.1 done
      obtain ⟨zs, e₁, later, last⟩ := run_bind_eq_ok.1 rest
      obtain ⟨answer, rfl⟩ := Prod.mk.inj last
      exact ⟨ys, e₀, zs, first, later, (Except.ok.inj answer).symm⟩
    · rintro ⟨ys, e₀, zs, first, later, rfl⟩
      exact run_bind_eq_ok.2 ⟨ys, e₀, first, run_bind_eq_ok.2 ⟨zs, e', later, rfl⟩⟩
  -- the point is set first, in every one of these runs
  have point : ∀ ys e₀, forward 0 1 [x] e = (.ok ys, e₀) → e₀.WellFormed ∧ e₀.tape.OnlyBuiltIns ∧
      e₀.Cached [[x]] ∧ e₀.numOrders = 1 ∧ ∃ y0, ys = [y0] := by
    intro ys e₀ first
    have advanced := forward_sound wf first
    exact ⟨advanced.wellFormed, advanced.tape ▸ recorded.onlyBuiltIns,
      (cached_nil e).next wf advanced, advanced.orders, _, advanced.answer⟩
  constructor
  · constructor
    · rintro ⟨answers, e', done⟩ d along
      obtain ⟨ys, e₀, zs, first, later, _⟩ := (split _ _ _).1 done
      obtain ⟨wf₀, builtIns, cached, orders, _⟩ := point ys e₀ first
      obtain ⟨e'', single, _⟩ := lane_of_run wf₀ builtIns cached orders even later along
      exact ⟨_, e'', (split _ _ _).2 ⟨ys, e₀, _, first, single, rfl⟩⟩
    · intro each
      obtain ⟨_, _, done⟩ := each 0 positive
      obtain ⟨ys, e₀, _, first, _, _⟩ := (split _ _ _).1 done
      obtain ⟨wf₀, builtIns, cached, orders, _⟩ := point ys e₀ first
      obtain ⟨zs, e', run⟩ := run_of_lanes wf₀ builtIns cached orders even positive fun d along => by
        obtain ⟨_, _, done⟩ := each d along
        obtain ⟨ys', e₁, zs, first', later, _⟩ := (split _ _ _).1 done
        obtain rfl : e₁ = e₀ := congrArg Prod.snd (first'.symm.trans first)
        exact ⟨zs, _, later⟩
      exact ⟨_, e', (split _ _ _).2 ⟨ys, e₀, zs, first, run, rfl⟩⟩
  · intro answers e' done
    obtain ⟨ys, e₀, zs, first, later, rfl⟩ := (split _ _ _).1 done
    obtain ⟨wf₀, builtIns, cached, orders, y0, rfl⟩ := point ys e₀ first
    refine ⟨y0, zs, rfl, ?_, fun d along => ?_⟩
    · rw [(forwardFrom_sound wf₀ cached later).answers]
      exact length_of_answers even
    obtain ⟨e'', single, _⟩ := lane_of_run wf₀ builtIns cached orders even later along
    exact ⟨e'', (split _ _ _).2 ⟨_, e₀, _, first, single, rfl⟩⟩

/-- The sine of a product through order two, along the directions of its two factors. -/
theorem directions_apart_sin : ∃ f : Program.Frozen ℝ,
    Program.freeze Registry.builtins 7 [1, 2] [.binary .mul 0 1, .unary .sin 2] [3] = .ok f ∧
    let rows : List (List (List ℝ)) := [[[1, 0], [0, 1]], [[0, 0], [3, 0]]]
    ∃ y0 above e', forwardFrom 0 ([[4, 5]] :: rows) f.evaluator = (.ok ([y0] :: above), e') ∧
      (∀ row ∈ above, row.length = 2) ∧
      ∀ d < 2, ∃ e'', forwardFrom 0 ([[4, 5]] :: rows.map (lane d)) f.evaluator =
        (.ok ([y0] :: above.map (lane d)), e'') := by
  let tape : Tape ℝ := {
    id := 7
    nodes := #[⟨.input, 1⟩, ⟨.input, 2⟩, ⟨.binary .mul 0 1, 1 * 2⟩,
      ⟨.unary .sin 2, Scalar.sin (1 * 2)⟩]
    numInputs := 2
    atomics := #[] }
  have frozen : Program.freeze Registry.builtins 7 [1, 2]
      [.binary .mul 0 1, .unary .sin 2] [3] =
      .ok ⟨[Scalar.sin (1 * 2)], [.binary .mul 0 1, .unary .sin 2], .ofTape tape [3]⟩ := rfl
  have recorded : (Evaluator.ofTape tape [3]).RecordedOfBuiltIns :=
    ⟨_, 7, _, _, [3], _, Registry.builtins_faithful, by simp [Step.Foreign],
      by simp [Step.CallsBuiltIns], frozen, .refl⟩
  have passing : tape.Passing := Tape.passing_of_no_call (by simp [tape])
  have even : ∀ seeds ∈ ([[[1, 0], [0, 1]], [[0, 0], [3, 0]]] : List (List (List ℝ))),
      seeds.length = 2 := by simp
  obtain ⟨same, each⟩ := directions_apart recorded [4, 5] (by decide) even
  have alone : ∀ d < 2, ∃ answers e', forwardFrom 0 ([[4, 5]] ::
      [[[1, 0], [0, 1]], [[0, 0], [3, 0]]].map (lane d)) (.ofTape tape [3]) = (.ok answers, e') := by
    intro d along
    rcases Nat.le_one_iff_eq_zero_or_eq_one.1 (Nat.lt_succ_iff.1 along) with rfl | rfl
    · have fits : ∀ seed ∈ ([[4, 5], [1, 0], [0, 0]] : List (List ℝ)), seed.length = 2 := by simp
      have run := forwardFrom_scalar (k := 0) recorded.recorded.wellFormed passing fits
        (Nat.zero_le _) (by omega)
      exact run
    · have fits : ∀ seed ∈ ([[4, 5], [0, 1], [3, 0]] : List (List ℝ)), seed.length = 2 := by simp
      have run := forwardFrom_scalar (k := 0) recorded.recorded.wellFormed passing fits
        (Nat.zero_le _) (by omega)
      exact run
  obtain ⟨answers, e', done⟩ := same.2 alone
  obtain ⟨y0, above, rfl, even, lanes⟩ := each answers e' done
  exact ⟨_, frozen, y0, above, e', done, even, lanes⟩

end Evaluator

end TaylorTape
