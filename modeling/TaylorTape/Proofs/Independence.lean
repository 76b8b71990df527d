import TaylorTape.Proofs.Reals
import TaylorTape.Proofs.Elements
import TaylorTape.Proofs.WellShaped
import TaylorTape.Proofs.Dependence
import TaylorTape.Proofs.Lockstep
import TaylorTape.Proofs.Zeros

/-!
What has no place in the pattern has no influence.

A call of a built-in links every result to every argument.  So the entry that produces a variable
reads only variables that depend on no other inputs, and the coefficients of a variable come from
the seeds of the inputs that it depends on and from nothing else.  And what reads a variable that
depends on an input depends on that input too: if only weights of other outputs differ from zero,
then all that such variables receive is zero, and their entries are left out of a reverse sweep.
-/

set_option autoImplicit false
set_option relaxedAutoImplicit false

namespace TaylorTape

variable {B F : Type} [Scalar F] [Base B F]

namespace Tape

variable {tape : Tape B} {i j q : Nat} {e : Entry}

/-- Every result is linked to every operand. -/
abbrev AllLinked : Nat → Nat → Nat → Nat → Prop :=
  fun _ _ _ _ => True

theorem OnlyBuiltIns.unionsOver (builtIns : tape.OnlyBuiltIns) : tape.UnionsOver AllLinked := by
  intro i place args n r found entered
  obtain ⟨r', entered', builtIn⟩ := builtIns i place args n found
  obtain rfl := Option.some.inj (entered.symm.trans entered')
  exact builtIn.unionsOver

omit [Scalar F] [Base B F] in
private theorem dependsOn_all_iff (wf : tape.WellFormed) (found : tape.entry i = .ok e) {r : Nat}
    (below : r < e.span) : tape.DependsOn AllLinked (i + r) j ↔
      (e = .input ∧ j = i) ∨ ∃ a ∈ e.operands, tape.DependsOn AllLinked a j := by
  rw [dependsOn_iff wf found below]
  refine or_congr_right (exists_congr fun a => and_congr_left' ⟨fun linked => linked.mem_operands,
    fun reads => ?_⟩)
  cases e with
  | input | const | result => cases reads
  | unary op b =>
    exact Entry.linked_unary_iff.2 ⟨Nat.lt_one_iff.1 below, List.mem_singleton.1 reads⟩
  | binary op b c =>
    exact Entry.linked_binary_iff.2 ⟨Nat.lt_one_iff.1 below, List.mem_pair.1 reads⟩
  | call place args n =>
    obtain ⟨k, argument⟩ := List.mem_iff_getElem?.1 reads
    exact Entry.linked_call_iff.2 ⟨k, argument, trivial⟩

/-! ### The coefficients of a variable come from the seeds of the inputs that it depends on -/

/-- Seeds of two runs are the same at all inputs that a variable depends on. -/
def SeedsAgree (tape : Tape B) (q : Nat) (seed seed' : Nat → List B) (v : Nat) : Prop :=
  ∀ j, tape.DependsOn AllLinked v j → ∀ k < q, (seed k)[j]? = (seed' k)[j]?

section Coefficients

variable {seed seed' : Nat → List B}

omit [Scalar F] [Base B F] in
private theorem SeedsAgree.operand (wf : tape.WellFormed) (found : tape.entry i = .ok e) {r : Nat}
    (below : r < e.span) (agree : tape.SeedsAgree q seed seed' (i + r)) :
    tape.SeedsAgree q seed seed' i ∧ ∀ a ∈ e.operands, tape.SeedsAgree q seed seed' a := by
  refine ⟨fun j depends => agree j ?_, fun a reads j depends => agree j ?_⟩
  · have first : 0 < e.span := by omega
    exact (dependsOn_all_iff wf found below).2 ((dependsOn_all_iff wf found first).1 depends)
  · exact (dependsOn_all_iff wf found below).2 (.inr ⟨a, reads, depends⟩)

private theorem Yields.reseed {y y' xs : List B} {c : Nat → Nat → B} (found : tape.entry i = .ok e)
    (other : e ≠ .input) (yields : tape.Yields q y c i xs) : tape.Yields q y' c i xs := by
  obtain ⟨⟨entry, value⟩, node, yields⟩ := yields
  obtain rfl : e = entry := Except.ok.inj (found.symm.trans (entry_of_node node))
  refine ⟨⟨e, value⟩, node, ?_⟩
  cases e with
  | input => exact absurd rfl other
  | const | unary | binary | call | result => exact yields

private theorem eq_of_seedsAgree {c c' : Nat → Nat → B} (wf : tape.WellFormed)
    (builtIns : tape.OnlyBuiltIns) (holds : ∀ k < q, ∀ i < tape.size, tape.Holds k (seed k) c i)
    (holds' : ∀ k < q, ∀ i < tape.size, tape.Holds k (seed' k) c' i) :
    ∀ k < q, ∀ v < tape.size, tape.SeedsAgree q seed seed' v → c v k = c' v k := by
  intro k
  induction k using Nat.strongRecOn with
  | ind k lower =>
  intro below
  refine wf.induction fun i e found operands v low high agree => ?_
  have inside := lt_size_of_entry found
  obtain ⟨r, rfl⟩ : ∃ r, v = i + r := ⟨v - i, by omega⟩
  have within : r < e.span := by omega
  obtain ⟨own, operand⟩ := agree.operand wf found within
  by_cases input : e = .input
  · subst input
    obtain rfl : r = 0 := Nat.lt_one_iff.1 within
    have itself : tape.DependsOn AllLinked (i + 0) i :=
      (dependsOn_all_iff wf found within).2 (.inl ⟨rfl, rfl⟩)
    have first := (holds k below i inside).input found
    have second := (holds' k below i inside).input found
    exact Option.some.inj (first.symm.trans ((agree i itself k below).trans second))
  obtain ⟨e₁, found₁, yields⟩ := holds k below i inside
  obtain ⟨e₂, found₂, yields'⟩ := holds' k below i inside
  obtain rfl := Except.ok.inj (found.symm.trans found₁)
  obtain rfl := Except.ok.inj (found.symm.trans found₂)
  have read : ∀ a ∈ e.operands, ∀ j ≤ k, c' a j = c a j := by
    intro a reads j low
    rcases Nat.lt_or_eq_of_le low with less | rfl
    · exact (lower j less (less.trans below) a (wf.operand_lt found reads)
        (operand a reads)).symm
    · exact (operands a reads (operand a reads)).symm
  have known : ∀ j < k, c' i j = c i j := fun j less =>
    (lower j less (less.trans below) i inside own).symm
  have moved : tape.Yields k (seed k) c i ((List.range' i e.span).map (c' · k)) :=
    (yields'.congr found read known).reseed found input
  exact List.map_inj_left.1 (yields.unique builtIns moved) (i + r)
    (List.mem_range'_1.2 ⟨low, high⟩)

end Coefficients

end Tape

namespace Evaluator

variable {e e₁ e₂ : Evaluator B} {q : Nat} {weights px : List (List B)}

/-- Two families of rows have the same at a place, wherever both have something there. -/
def AgreeAt (rows rows' : List (List (List B))) (j : Nat) : Prop :=
  ∀ (k d : Nat) row row' seed seed' x x', rows[k]? = some row → rows'[k]? = some row' →
    row[d]? = some seed → row'[d]? = some seed' → seed[j]? = some x → seed'[j]? = some x' → x = x'

section Runs

variable {e' : Evaluator B} {rows rows' answers answers' : List (List (List B))} {k d i : Nat}

omit [Scalar F] [Base B F] in
private theorem AgreeAt.seedAt_eq {j n : Nat} (agree : AgreeAt rows rows' j) (input : j < n)
    (count : (seedAt rows k d).length = n) (count' : (seedAt rows' k d).length = n) :
    (seedAt rows k d)[j]? = (seedAt rows' k d)[j]? := by
  have there := List.getElem?_eq_getElem (count ▸ input : j < (seedAt rows k d).length)
  have there' := List.getElem?_eq_getElem (count' ▸ input : j < (seedAt rows' k d).length)
  obtain ⟨row, seed, order, direction, here⟩ := exists_of_seedAt there
  obtain ⟨row', seed', order', direction', here'⟩ := exists_of_seedAt there'
  rw [there, there', agree _ _ row row' seed seed' _ _ order order' direction direction' here here']

private theorem value_of_answer (wf : e.WellFormed)
    (done : forwardFrom 0 rows e = (.ok answers, e'))
    {row : List (List B)} {answer : List B} {x : B} (order : answers[k]? = some row)
    (direction : row[d]? = some answer) (place : answer[i]? = some x) :
    k < rows.length ∧ d < e'.numDirections ∧
      ∃ y, e.outputs[i]? = some y ∧ x = e'.table.value y k d := by
  have ran := forwardFrom_zero wf done
  have answered := getElem?_answers e' 0 rows k
  have found : (e'.answers 0 rows)[k]? = some row := ran.answers ▸ order
  rw [found] at answered
  obtain ⟨seeds, asked, rfl⟩ := Option.map_eq_some_iff.1 answered.symm
  rw [List.getElem?_map] at direction
  obtain ⟨d', along, rfl⟩ := Option.map_eq_some_iff.1 direction
  obtain ⟨below, rfl⟩ := List.getElem?_eq_some_iff.1 along
  rw [List.getElem_range, List.getElem?_map, ran.outputs, Nat.zero_add] at place
  rw [List.length_range] at below
  obtain ⟨y, output, rfl⟩ := Option.map_eq_some_iff.1 place
  refine ⟨(List.getElem?_eq_some_iff.1 asked).1, ?_, y, output, rfl⟩
  rcases Nat.eq_zero_or_pos k with rfl | positive
  · -- order zero has one direction, and there always is one
    obtain ⟨rest, rfl⟩ : ∃ rest, rows = seeds :: rest := by
      cases rows with
      | nil => cases asked
      | cons first rest => exact ⟨rest, by rw [Option.some.inj asked]⟩
    obtain ⟨_, _, first, _⟩ := run_bind_eq_ok.1 done
    rw [(forward_sound wf first).accepted.point rfl] at below
    exact below.trans_le ran.wellFormed.table.directions
  · rw [← ran.directions k seeds (by simpa using positive) asked]
    exact below

private theorem forwardFrom_independent {e₁' e₂' : Evaluator B} (wf₁ : e₁.WellFormed)
    (wf₂ : e₂.WellFormed)
    (builtIns : e₁.tape.OnlyBuiltIns) (tape : e₂.tape = e₁.tape) (outputs : e₂.outputs = e₁.outputs)
    (done : forwardFrom 0 rows e₁ = (.ok answers, e₁'))
    (done' : forwardFrom 0 rows' e₂ = (.ok answers', e₂'))
    (agree : ∀ y j, e₁.outputs[i]? = some y → e₁.tape.DependsOn Tape.AllLinked y j →
      AgreeAt rows rows' j) :
    AgreeAt answers answers' i := by
  intro k d row row' answer answer' x x' order order' direction direction' place place'
  obtain ⟨below, along, y, output, rfl⟩ := value_of_answer wf₁ done order direction place
  obtain ⟨below', along', y', output', rfl⟩ := value_of_answer wf₂ done' order' direction' place'
  obtain rfl := Option.some.inj (output.symm.trans (outputs ▸ output'))
  have ran := forwardFrom_zero wf₁ done
  have ran' := forwardFrom_zero wf₂ done'
  have inputs : e₁'.numInputs = e₁.numInputs := congrArg Tape.numInputs ran.tape
  have inputs' : e₂'.numInputs = e₁.numInputs := congrArg Tape.numInputs (ran'.tape.trans tape)
  have holds : ∀ n < k + 1, ∀ v < e₁.tape.size,
      e₁.tape.Holds n (seedAt rows n d) (e₁'.table.along d) v := by
    intro n low v inside
    rw [← ran.tape] at inside ⊢
    exact ran.cached.holds n (by simpa using (by omega : n < rows.length)) d along v inside
  have holds' : ∀ n < k + 1, ∀ v < e₁.tape.size,
      e₁.tape.Holds n (seedAt rows' n d) (e₂'.table.along d) v := by
    intro n low v inside
    rw [← tape, ← ran'.tape] at inside ⊢
    exact ran'.cached.holds n (by simpa using (by omega : n < rows'.length)) d along' v inside
  refine Tape.eq_of_seedsAgree wf₁.tape builtIns holds holds' k (Nat.lt_succ_self k) y
    (wf₁.outputs y (List.mem_of_getElem? output)) fun j depends n low => ?_
  refine (agree y j output depends).seedAt_eq depends.1 ?_ ?_
  · exact (ran.cached.lengths n (by simpa using (by omega : n < rows.length)) d along).trans inputs
  · exact (ran'.cached.lengths n (by simpa using (by omega : n < rows'.length)) d along').trans
      inputs'

end Runs

/-! ### What depends on an input receives nothing from elsewhere -/

/-- The variables of a kind have received only zeros. -/
def Silent (N : Nat → Prop) (ps : Array (Series B)) : Prop :=
  ∀ (v : Nat) (p : Series B), N v → ps[v]? = some p → ∀ u ∈ p, Base.isAllZero u = true

variable [ZeroBase B]

private theorem addAt_zeros {s t : Series B} {k : Nat} {w : B}
    (zeros : ∀ u ∈ s, Base.isAllZero u = true)
    (zero : Base.isAllZero w = true) (done : s.addAt k w = .ok t) :
    ∀ u ∈ t, Base.isAllZero u = true := by
  obtain ⟨old, there, done⟩ := bind_eq_ok.1 done
  obtain ⟨sum, added, stored⟩ := bind_eq_ok.1 done
  obtain ⟨inside, rfl⟩ := store_eq_ok_iff.1 stored
  intro u member
  rcases Array.mem_or_eq_of_mem_set member with before | rfl
  · exact zeros u before
  · exact ZeroBase.add old w u (zeros old (Array.mem_of_getElem? (fetch_eq_ok_iff.1 there))) zero
      added

variable {N : Nat → Prop} {ps next : Array (Series B)}

private theorem accumulate_silent {v : Nat} {share : Series B}
    (done : e.accumulate ps v share = .ok next)
    (silent : Silent N ps) (zeros : N v → ∀ u ∈ share, Base.isAllZero u = true) :
    next.size = ps.size ∧ Silent N next := by
  obtain ⟨entry, found, done⟩ := bind_eq_ok.1 done
  split at done
  · obtain rfl := pure_eq_ok.1 done
    exact ⟨rfl, silent⟩
  obtain ⟨shape, _, done⟩ := bind_eq_ok.1 done
  obtain ⟨p, there, done⟩ := bind_eq_ok.1 done
  obtain ⟨sum, added, stored⟩ := bind_eq_ok.1 done
  obtain ⟨inside, rfl⟩ := store_eq_ok_iff.1 stored
  refine ⟨Array.size_set .., fun w p' kind here => ?_⟩
  rw [Array.getElem?_set] at here
  split at here
  · rename_i same
    subst same
    obtain rfl := Option.some.inj here
    rw [List.range_eq_range'] at added
    refine foldlM_up_kept (P := fun _ s => ∀ u ∈ s, Base.isAllZero u = true)
      (fun k s t _ _ before step => ?_) (silent v p kind (fetch_eq_ok_iff.1 there)) added
    obtain ⟨x, read, step⟩ := bind_eq_ok.1 step
    have zero := zeros kind x (Array.mem_of_getElem? (fetch_eq_ok_iff.1 read))
    exact addAt_zeros before (ZeroBase.reduceLike x shape zero) step
  · exact silent w p' kind here

private theorem accumulates_silent {pairs : List (Nat × Series B)}
    (done : pairs.foldlM (fun ps p => e.accumulate ps p.1 p.2) ps = .ok next)
    (silent : Silent N ps) (zeros : ∀ p ∈ pairs, N p.1 → ∀ u ∈ p.2, Base.isAllZero u = true) :
    next.size = ps.size ∧ Silent N next := by
  induction pairs generalizing ps with
  | nil =>
    obtain rfl := pure_eq_ok.1 done
    exact ⟨rfl, silent⟩
  | cons p pairs ih =>
    obtain ⟨first, rest⟩ := List.forall_mem_cons.1 zeros
    rw [List.foldlM_cons] at done
    obtain ⟨mid, one, others⟩ := bind_eq_ok.1 done
    obtain ⟨size, silent'⟩ := accumulate_silent one silent first
    obtain ⟨size', silent''⟩ := ih others silent' rest
    exact ⟨size'.trans size, silent''⟩

private theorem retreat_silent (wf : e.WellFormed) {i j : Nat} (inside : i < e.tape.size)
    (size : ps.size = e.tape.size) (silent : Silent (e.tape.DependsOn Tape.AllLinked · j) ps)
    (done : e.retreat Base.isAllZero q ps i = .ok next) :
    next.size = e.tape.size ∧ Silent (e.tape.DependsOn Tape.AllLinked · j) next := by
  obtain ⟨entry, found⟩ := Tape.exists_entry inside
  have room := wf.tape.span_le found
  have results : ∀ v ∈ List.range' i entry.span, ∃ p, fetch ps v = .ok p := fun v member => by
    have below : v < ps.size := by
      have := List.mem_range'_1.1 member
      omega
    exact ⟨ps[v], fetch_eq_ok_iff.2 (Array.getElem?_eq_getElem below)⟩
  obtain ⟨own, read⟩ := exists_mapM results
  rw [retreat_eq found read] at done
  split at done
  · obtain rfl := Except.ok.inj done
    exact ⟨size, silent⟩
  rename_i busy
  obtain ⟨shares, _, done⟩ := bind_eq_ok.1 done
  have apart : ∀ a ∈ entry.operands, ¬ e.tape.DependsOn Tape.AllLinked a j := by
    intro a reads depends
    refine busy (List.all_eq_true.2 fun p member => ?_)
    obtain ⟨v, among, there⟩ := exists_of_mem_mapM read member
    obtain ⟨low, high⟩ := List.mem_range'_1.1 among
    obtain ⟨r, rfl⟩ : ∃ r, v = i + r := ⟨v - i, by omega⟩
    have result : e.tape.DependsOn Tape.AllLinked (i + r) j :=
      (Tape.dependsOn_all_iff wf.tape found (by omega)).2 (.inr ⟨a, reads, depends⟩)
    exact Array.all_eq_true_iff_forall_mem.2 (silent (i + r) p result (fetch_eq_ok_iff.1 there))
  obtain ⟨size', silent'⟩ := accumulates_silent done silent fun p member kind =>
    absurd kind (apart p.1 (List.of_mem_zip member).1)
  exact ⟨size'.trans size, silent'⟩

/-- An input receives zeros only if all outputs that depend on it have zero weights. -/
private theorem reverse_silent (wf : e.WellFormed) (done : e.reverse q weights = .ok px) {j : Nat}
    (zeros : ∀ (i : Nat) y w, e.outputs[i]? = some y → e.tape.DependsOn Tape.AllLinked y j →
      weights[i]? = some w → ∀ u ∈ w, Base.isAllZero u = true) :
    ∀ row, px[j]? = some row → ∀ u ∈ row, Base.isAllZero u = true := by
  obtain ⟨_, _, done⟩ := bind_eq_ok.1 done
  obtain ⟨weighted, weigh, done⟩ := bind_eq_ok.1 done
  obtain ⟨partials, swept, received⟩ := bind_eq_ok.1 done
  have start : Silent (e.tape.DependsOn Tape.AllLinked · j)
      (Array.replicate e.size (Series.zeros (B := B) q)) := by
    intro v p _ there u member
    obtain ⟨_, rfl⟩ := Array.getElem?_eq_some_iff.1 there
    rw [Array.getElem_replicate] at member
    rw [Array.eq_of_mem_replicate member]
    exact LawfulZero.zero
  have shares : ((e.outputs.zip weights).map fun p => (p.1, p.2.toArray)).foldlM
      (fun ps p => e.accumulate ps p.1 p.2) (Array.replicate e.size (Series.zeros q)) =
        .ok weighted := by
    rw [List.foldlM_map]
    exact weigh
  obtain ⟨size, silent⟩ := accumulates_silent shares start (by
    simp only [List.forall_mem_map]
    intro p member depends u inside
    obtain ⟨i, there⟩ := List.mem_iff_getElem?.1 member
    obtain ⟨output, weight⟩ := List.getElem?_zip_eq_some.1 there
    exact zeros i p.1 p.2 output depends weight u (List.mem_toArray.1 inside))
  rw [Array.size_replicate] at size
  rw [List.range_eq_range'] at swept
  obtain ⟨_, silent'⟩ := foldlM_down_kept (a := 0) (n := e.size)
    (P := fun _ ps => ps.size = e.tape.size ∧ Silent (e.tape.DependsOn Tape.AllLinked · j) ps)
    (fun i s t _ below kept step => retreat_silent wf (by rwa [Nat.zero_add] at below) kept.1 kept.2
      step) ⟨size, silent⟩ swept
  intro row there u member
  have input : j < e.numInputs := by
    have count := length_of_mapM received
    rw [List.length_range] at count
    exact count ▸ (List.getElem?_eq_some_iff.1 there).1
  obtain ⟨row', there', computed⟩ := getElem?_of_mapM received (List.getElem?_range input)
  obtain rfl := Option.some.inj (there.symm.trans there')
  obtain ⟨x, _, computed⟩ := bind_eq_ok.1 computed
  obtain ⟨p, found, spread⟩ := bind_eq_ok.1 computed
  obtain ⟨w, among, last⟩ := exists_of_mem_mapM spread member
  have zero := silent' j p ⟨input, .refl⟩ (fetch_eq_ok_iff.1 found) w (Array.mem_toList_iff.1 among)
  exact ZeroBase.broadcastLike _ x u (ZeroBase.reduceLike w x zero) last

omit [ZeroBase B] in
private theorem Later.forwardFrom {e e₁ e₂ : Evaluator B} (later : e.Later e₁) {k : Nat}
    {rows answers : List (List (List B))}
    (done : Evaluator.forwardFrom k rows e₁ = (.ok answers, e₂)) : e.Later e₂ := by
  induction rows generalizing e₁ k answers with
  | nil =>
    obtain ⟨_, rfl⟩ := Prod.mk.inj done
    exact later
  | cons seeds rows ih =>
    obtain ⟨ys, mid, first, rest⟩ := run_bind_eq_ok.1 done
    obtain ⟨zs, last, others, same⟩ := run_bind_eq_ok.1 rest
    obtain ⟨_, rfl⟩ := Prod.mk.inj same
    have next := later.forward k seeds.length seeds
    rw [first] at next
    exact ih next others

/-- What has no place in the pattern has no influence.  Two runs answer the same for an output, at
every order, if their seeds are the same at the inputs that have a place with it; and a reverse
sweep gives an input zeros only if the weights of the outputs that have a place with it are zero. -/
theorem pattern_sound [LawfulBase B] (recorded : e.RecordedOfBuiltIns) :
    ∃ p, e.forwardSparsity = .ok p ∧
      (∀ e₁ e₂ e₁' e₂' rows rows' answers answers', e.Later e₁ → e.Later e₂ →
        forwardFrom 0 rows e₁ = (.ok answers, e₁') → forwardFrom 0 rows' e₂ = (.ok answers', e₂') →
        ∀ i, (∀ j, (i, j) ∈ p.entries → AgreeAt rows rows' j) → AgreeAt answers answers' i) ∧
      ∀ e₁ q weights px, e.Later e₁ → e₁.reverse q weights = .ok px →
        ∀ j, (∀ i, (i, j) ∈ p.entries → ∀ w, weights[i]? = some w →
            ∀ u ∈ w, Base.isAllZero u = true) →
          ∀ row, px[j]? = some row → ∀ u ∈ row, Base.isAllZero u = true := by
  have wf := recorded.recorded.wellFormed
  have builtIns := recorded.onlyBuiltIns
  obtain ⟨p, found, described⟩ := forwardSparsity_spec wf builtIns.unionsOver
  refine ⟨p, found, ?_, ?_⟩
  · intro e₁ e₂ e₁' e₂' rows rows' answers answers' later₁ later₂ done done' i agree
    obtain ⟨wf₁, tape₁, outputs₁⟩ := later₁.kept wf
    obtain ⟨wf₂, tape₂, outputs₂⟩ := later₂.kept wf
    refine forwardFrom_independent wf₁ wf₂ (tape₁ ▸ builtIns) (tape₂.trans tape₁.symm)
      (outputs₂.trans outputs₁.symm) done done' fun y j output depends => agree j ?_
    exact (described.mem_iff i j).2 ⟨y, outputs₁ ▸ output, tape₁ ▸ depends⟩
  · intro e₁ q weights px later done j zeros
    obtain ⟨wf₁, tape₁, outputs₁⟩ := later.kept wf
    refine reverse_silent wf₁ done fun i y w output depends weight => zeros i ?_ w weight
    exact (described.mem_iff i j).2 ⟨y, outputs₁ ▸ output, tape₁ ▸ depends⟩

/-- The sine of an input beside a product with it: the other factor has no influence on the sine,
and a weight on the sine does not reach it. -/
theorem pattern_sound_sin : ∃ (f : Program.Frozen ℝ) (e₁ e₂ : Evaluator ℝ)
    (answers answers' : List (List (List ℝ))) (px : List (List ℝ)),
    Program.freeze Registry.builtins 7 [1, 2] [.unary .sin 0, .binary .mul 2 1] [2, 3] = .ok f ∧
    f.evaluator.forwardSparsity = .ok ⟨2, 2, [(0, 0), (1, 0), (1, 1)]⟩ ∧
    forwardFrom 0 [[[1, 2]], [[3, 4]]] f.evaluator = (.ok answers, e₁) ∧
    forwardFrom 0 [[[1, 5]], [[3, 6]]] f.evaluator = (.ok answers', e₂) ∧
    AgreeAt answers answers' 0 ∧
    e₁.reverse 2 [[7, 8], [0, 0]] = .ok px ∧
    ∀ row, px[1]? = some row → ∀ u ∈ row, Base.isAllZero u = true := by
  let tape : Tape ℝ := {
    id := 7
    nodes := #[⟨.input, 1⟩, ⟨.input, 2⟩, ⟨.unary .sin 0, Real.sin 1⟩,
      ⟨.binary .mul 2 1, Real.sin 1 * 2⟩]
    numInputs := 2
    atomics := #[] }
  have frozen : Program.freeze Registry.builtins 7 [1, 2] [.unary .sin 0, .binary .mul 2 1] [2, 3] =
      .ok ⟨[Real.sin 1, Real.sin 1 * 2], [.unary .sin 0, .binary .mul 2 1],
        .ofTape tape [2, 3]⟩ := rfl
  have recorded : (Evaluator.ofTape tape [2, 3]).RecordedOfBuiltIns :=
    ⟨_, 7, _, _, [2, 3], _, Registry.builtins_faithful, by simp [Step.Foreign],
      by simp [Step.CallsBuiltIns], frozen, .refl⟩
  have wf := recorded.recorded.wellFormed
  have pattern : (Evaluator.ofTape tape [2, 3]).forwardSparsity =
      .ok ⟨2, 2, [(0, 0), (1, 0), (1, 1)]⟩ := rfl
  have passing : tape.Passing := Tape.passing_of_no_call (by simp [tape])
  obtain ⟨answers, e₁, done⟩ := forwardFrom_scalar (k := 0) wf passing
    (show ∀ seed ∈ [[1, 2], [3, 4]], _ by simp [numInputs, ofTape, tape]) (Nat.zero_le _) (by omega)
  obtain ⟨answers', e₂, done'⟩ := forwardFrom_scalar (k := 0) wf passing
    (show ∀ seed ∈ [[1, 5], [3, 6]], _ by simp [numInputs, ofTape, tape]) (Nat.zero_le _) (by omega)
  have ran := forwardFrom_zero wf done
  have orders : e₁.numOrders = 2 := ran.orders (by simp)
  have one : e₁.numDirections = 1 := (ran.directions 1 [[3, 4]] (by simp) rfl).symm
  have scalars : ∀ u s : ℝ, Base.Compatible u s := fun _ _ => .inl rfl
  have shaped : e₁.WellShaped 2 1 := (recorded.forwardFrom done).wellShaped Nat.two_pos
    orders.ge one.ge fun _ _ _ _ _ _ => scalars _ _
  have accepts : e₁.AcceptsReverse 2 [[7, 8], [0, 0]] :=
    ⟨by decide, orders.ge, fun _ => one, by rw [numOutputs, ran.outputs]; rfl, by simp⟩
  have fits : List.Forall₂ (fun y w => ∀ u ∈ w, Base.Compatible u (e₁.table.value y 0 0))
      e₁.outputs [[7, 8], [0, 0]] := by
    rw [ran.outputs]
    exact .cons (fun _ _ => scalars _ _) (.cons (fun _ _ => scalars _ _) .nil)
  obtain ⟨px, swept, _⟩ := shaped.reverse accepts fits
  obtain ⟨p, found, ahead, back⟩ := pattern_sound recorded
  obtain rfl := Except.ok.inj (pattern.symm.trans found)
  have apart : AgreeAt answers answers' 0 := by
    refine ahead _ _ _ _ _ _ _ _ .refl .refl done done' 0 fun j place => ?_
    obtain rfl : j = 0 := by simpa using place
    intro k d row row' seed seed' x x' order order' along along' here here'
    rcases k with _ | _ | k <;> rcases d with _ | d <;> cases order <;> cases order' <;>
      cases along <;> cases along' <;> cases here <;> cases here' <;> rfl
  refine ⟨_, e₁, e₂, answers, answers', px, frozen, pattern, done, done', apart, swept, ?_⟩
  refine back e₁ 2 _ px (Later.refl.forwardFrom done) swept 1 fun i place => ?_
  obtain rfl : i = 1 := by simpa using place
  intro w weight u member
  obtain rfl := Option.some.inj weight
  obtain rfl : u = 0 := by simpa using member
  simp [Base.isAllZero, Base.toList, ExactScalar.beq_iff]

end Evaluator

end TaylorTape
