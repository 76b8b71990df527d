import TaylorTape.Proofs.Pruning
import Mathlib.Data.List.Sort

/-!
Pruning succeeds, and once is enough.

On a well-formed tape nothing that pruning looks up is missing, so it succeeds for all outputs that
there are.  What the outputs need among the entries of the tape they need among those that stayed.
So a pruned tape has no entry that could be taken out, and pruning it again changes nothing.
-/

set_option autoImplicit false
set_option relaxedAutoImplicit false

namespace TaylorTape

attribute [ext] Tape

variable {B : Type}

private theorem Entry.exists_rename {f : Nat → Except Error Nat} {e : Entry}
    (each : ∀ a ∈ e.names, ∃ r, f a = .ok r) : ∃ renamed, e.rename f = .ok renamed := by
  cases e with
  | input | const => exact ⟨_, rfl⟩
  | unary op a =>
    obtain ⟨r, first⟩ := each a List.mem_cons_self
    exact ⟨.unary op r, map_eq_ok.2 ⟨r, first, rfl⟩⟩
  | binary op a b =>
    obtain ⟨r, first⟩ := each a List.mem_cons_self
    obtain ⟨s, second⟩ := each b (List.mem_cons_of_mem _ List.mem_cons_self)
    exact ⟨.binary op r s, bind_eq_ok.2 ⟨r, first, map_eq_ok.2 ⟨s, second, rfl⟩⟩⟩
  | call place args n =>
    obtain ⟨rs, renamed⟩ := exists_mapM each
    exact ⟨.call place rs n, map_eq_ok.2 ⟨rs, renamed, rfl⟩⟩
  | result owner =>
    obtain ⟨r, first⟩ := each owner List.mem_cons_self
    exact ⟨.result r, map_eq_ok.2 ⟨r, first, rfl⟩⟩

namespace Tape

variable {tape : Tape B} {outputs places : List Nat} {marks : Array Bool} {pruned : Pruned B}

private theorem exists_mark {live : Array Bool} {positions : List Nat}
    (inside : ∀ p ∈ positions, p < live.size) : ∃ marked, mark live positions = .ok marked := by
  unfold mark
  induction positions generalizing live with
  | nil => exact ⟨live, rfl⟩
  | cons p positions ih =>
    obtain ⟨here, rest⟩ := List.forall_mem_cons.1 inside
    obtain ⟨marked, done⟩ : ∃ marked, mark (live.set p true here) positions = .ok marked :=
      ih (by simpa using rest)
    exact ⟨marked, bind_eq_ok.2 ⟨_, store_eq_ok_iff.2 ⟨here, rfl⟩, done⟩⟩

theorem WellFormed.names_lt (wf : tape.WellFormed) {i a : Nat} {e : Entry}
    (found : tape.entry i = .ok e) (named : a ∈ e.names) : a < tape.size := by
  cases e with
  | input | const => cases named
  | unary | binary | call => exact wf.operand_lt found named
  | result owner =>
    obtain ⟨_, _, _, call, _⟩ := wf.results i owner found
    exact List.mem_singleton.1 named ▸ lt_size_of_entry call

private theorem WellFormed.reaches_lt (wf : tape.WellFormed) {i j : Nat} {e : Entry}
    (found : tape.entry i = .ok e) (reached : j ∈ e.reaches i) : j < tape.size := by
  cases e with
  | input | const | unary | binary | result => exact wf.names_lt found reached
  | call place args n =>
    rcases List.mem_append.1 reached with further | reads
    · have room : i + n ≤ tape.size := wf.span_le found
      have := List.mem_range'_1.1 further
      omega
    · exact wf.names_lt found reads

private theorem exists_live (wf : tape.WellFormed) (inside : ∀ y ∈ outputs, y < tape.size) :
    ∃ marks, tape.live outputs = .ok marks := by
  have room : ∀ p ∈ List.range tape.numInputs ++ outputs,
      p < (Array.replicate tape.size false).size := by
    intro p member
    rw [Array.size_replicate]
    rcases List.mem_append.1 member with input | asked
    · exact (List.mem_range.1 input).trans_le wf.inputs_le
    · exact inside p asked
  obtain ⟨start, marked⟩ := exists_mark room
  have size := (mark_spec marked).1
  rw [Array.size_replicate] at size
  have step : ∀ i (live : Array Bool), i < tape.size → live.size = tape.size → ∃ next,
      (do if ← fetch live i then mark live ((← tape.entry i).reaches i) else return live) =
        Except.ok (ε := Error) next ∧ next.size = tape.size := by
    intro i live inside size
    have low : i < live.size := size ▸ inside
    have flag : fetch live i = .ok live[i] := fetch_eq_ok_iff.2 (Array.getElem?_eq_getElem low)
    obtain ⟨e, found⟩ := exists_entry inside
    rw [flag, ok_bind]
    split
    · obtain ⟨next, grown⟩ := exists_mark fun j reached => size ▸ wf.reaches_lt found reached
      rw [found, ok_bind, grown]
      exact ⟨next, rfl, (mark_spec grown).1.trans size⟩
    · exact ⟨live, rfl, size⟩
  obtain ⟨marks, walked, _⟩ := foldlM_down (P := fun _ (live : Array Bool) => live.size = tape.size)
    (fun i live _ high => step i live (high.trans_eq (Nat.zero_add _))) size
  refine ⟨marks, bind_eq_ok.2 ⟨start, marked, ?_⟩⟩
  rw [List.range_eq_range']
  exact walked

private theorem exists_rank (marks : Array Bool) {k : Nat} (inside : k < marks.size) :
    ∃ r, fetch (ranks marks) k = .ok r :=
  ⟨_, fetch_eq_ok_iff.2 (ranks_spec marks inside)⟩

private theorem exists_compact (wf : tape.WellFormed) (size : marks.size = tape.size) :
    ∃ small, tape.compact marks = .ok small := by
  have step : ∀ i (nodes : Array (Node B)), i < tape.size → ∃ next, (do
      if ← fetch marks i then
        let node ← fetch tape.nodes i
        return nodes.push ⟨← node.entry.rename (fetch (ranks marks)), node.value⟩
      else
        return nodes) = Except.ok (ε := Error) next := by
    intro i nodes inside
    have low : i < marks.size := size ▸ inside
    have flag : fetch marks i = .ok marks[i] := fetch_eq_ok_iff.2 (Array.getElem?_eq_getElem low)
    obtain ⟨node, there⟩ := exists_node inside
    obtain ⟨renamed, done⟩ := Entry.exists_rename fun a named =>
      exists_rank marks (size ▸ wf.names_lt (entry_of_node there) named)
    rw [flag, ok_bind]
    split
    · exact ⟨_, bind_eq_ok.2 ⟨node, fetch_eq_ok_iff.2 there, bind_eq_ok.2 ⟨renamed, done, rfl⟩⟩⟩
    · exact ⟨nodes, rfl⟩
  obtain ⟨nodes, walked, _⟩ := foldlM_up (P := fun _ (_ : Array (Node B)) => True) (s := #[])
    (fun i nodes _ high _ => (step i nodes (high.trans_eq (Nat.zero_add _))).imp fun _ done =>
      ⟨done, trivial⟩) trivial
  refine ⟨_, bind_eq_ok.2 ⟨nodes, ?_, rfl⟩⟩
  rw [List.range_eq_range']
  exact walked

theorem exists_prune (wf : tape.WellFormed) (inside : ∀ y ∈ outputs, y < tape.size) :
    ∃ pruned places, tape.prune outputs = .ok pruned ∧ tape.Prunes outputs pruned places := by
  obtain ⟨marks, lived⟩ := exists_live wf inside
  have size := (live_spec wf lived).size
  obtain ⟨small, compacted⟩ := exists_compact wf size
  obtain ⟨moved, renamed⟩ := exists_mapM fun y asked =>
    exists_rank marks (size.trans_gt (inside y asked))
  have done : tape.prune outputs = .ok ⟨small, moved, tape.size - small.size⟩ :=
    bind_eq_ok.2 ⟨marks, lived, bind_eq_ok.2 ⟨small, compacted, bind_eq_ok.2 ⟨moved, renamed, rfl⟩⟩⟩
  obtain ⟨places, prunes⟩ := prune_spec wf done
  exact ⟨_, places, done, prunes⟩

private theorem getD_eq {r k : Nat} (found : places[r]? = some k) : places.getD r 0 = k := by
  rw [List.getD_eq_getElem?_getD, found]
  rfl

namespace Prunes

variable (prunes : tape.Prunes outputs pruned places)
include prunes

private theorem exists_place {i : Nat} (stays : i < tape.numInputs ∨ tape.Needed outputs i) :
    ∃ r < pruned.tape.size, places.getD r 0 = i := by
  obtain ⟨r, low, rfl⟩ := List.getElem_of_mem ((prunes.mem i).2 stays)
  exact ⟨r, prunes.size ▸ low, getD_eq (List.getElem?_eq_getElem low)⟩

private theorem needed {i : Nat} (needed : tape.Needed outputs i) {r : Nat}
    (inside : r < pruned.tape.size)
    (moved : places.getD r 0 = i) : pruned.tape.Needed pruned.outputs r := by
  have embeds := prunes.embeds
  induction needed generalizing r with
  | @output y asked =>
    rw [← prunes.outputs] at asked
    obtain ⟨r', asked', same⟩ := List.mem_map.1 asked
    obtain rfl := embeds.injective inside (prunes.inside r' asked') (moved.trans same.symm)
    exact .output asked'
  | @operand i a e needed found reads ih =>
    obtain ⟨s, inside', rfl⟩ := prunes.exists_place (.inr needed)
    obtain ⟨e', found'⟩ := exists_entry inside'
    obtain rfl := Except.ok.inj (found.symm.trans (embeds.entry found'))
    rw [Entry.operands_relabel] at reads
    obtain ⟨a', reads', rfl⟩ := List.mem_map.1 reads
    have low := embeds.names s e' found' a' (Entry.mem_names_of_operands reads')
    obtain rfl := embeds.injective inside low moved
    exact (ih inside' rfl).operand found' reads'
  | @owner j i needed found ih =>
    obtain ⟨s, inside', rfl⟩ := prunes.exists_place (.inr needed)
    obtain ⟨e', found'⟩ := exists_entry inside'
    obtain ⟨o, rfl, same⟩ :=
      Entry.exists_owner (Except.ok.inj ((embeds.entry found').symm.trans found))
    have low := embeds.names s _ found' o List.mem_cons_self
    obtain rfl := embeds.injective inside low (moved.trans same.symm)
    exact (ih inside' rfl).owner found'
  | @result i j needed found ih =>
    obtain ⟨s, inside', rfl⟩ := prunes.exists_place (.inr needed)
    obtain ⟨e', found'⟩ := exists_entry inside
    rw [← moved] at found
    obtain ⟨o, rfl, same⟩ :=
      Entry.exists_owner (Except.ok.inj ((embeds.entry found').symm.trans found))
    have low := embeds.names r _ found' o List.mem_cons_self
    obtain rfl := embeds.injective low inside' same
    exact (ih inside' rfl).result found'

private theorem all_needed {r : Nat} (inside : r < pruned.tape.size) :
    r < pruned.tape.numInputs ∨ pruned.tape.Needed pruned.outputs r := by
  have embeds := prunes.embeds
  have low : r < places.length := prunes.size ▸ inside
  have place := getD_eq (List.getElem?_eq_getElem low)
  rcases (prunes.mem places[r]).1 (List.getElem_mem low) with input | needed
  · left
    rw [← embeds.inputs] at input
    have room := input.trans_le embeds.inputs_le
    have same := embeds.injective inside room (place.trans (embeds.fixed _ input).symm)
    rwa [← same] at input
  · exact .inr (prunes.needed needed inside place)

/-- A pruned tape is left as it is when it is pruned again. -/
theorem prune_again (wf : tape.WellFormed) :
    pruned.tape.prune pruned.outputs = .ok ⟨pruned.tape, pruned.outputs, 0⟩ := by
  have wf' := prunes.embeds.wellFormed wf
  obtain ⟨again, places', done, prunes'⟩ := exists_prune wf' prunes.inside
  have all : places' = List.range pruned.tape.size := by
    refine prunes'.increasing.eq_of_mem_iff List.pairwise_lt_range fun i => ?_
    rw [prunes'.mem, List.mem_range]
    constructor
    · intro stays
      obtain ⟨r, inside, rfl⟩ := prunes'.exists_place stays
      exact prunes'.embeds.inside inside
    · exact prunes.all_needed
  obtain ⟨small, outputs', removed⟩ := again
  have size : small.size = pruned.tape.size := by rw [prunes'.size, all, List.length_range]
  have fixed : ∀ r < small.size, places'.getD r 0 = r := fun r inside =>
    getD_eq (all ▸ List.getElem?_range (size ▸ inside))
  have nodes : small.nodes = pruned.tape.nodes := by
    refine Array.ext_getElem? fun r => ?_
    by_cases inside : r < small.size
    · obtain ⟨⟨e, v⟩, there⟩ := exists_node inside
      have old := prunes'.embeds.node r e v there
      have names := prunes'.embeds.names r e (entry_of_node there)
      rw [fixed r inside, Entry.relabel_eq_self fun a named => fixed a (names a named)] at old
      rw [there, old]
    · rw [Array.getElem?_eq_none (Nat.le_of_not_lt inside),
        Array.getElem?_eq_none (size.symm.trans_le (Nat.le_of_not_lt inside))]
  have kept : small = pruned.tape :=
    Tape.ext prunes'.id nodes prunes'.embeds.inputs prunes'.embeds.atomics
  have same : outputs' = pruned.outputs := by
    rw [← prunes'.outputs]
    exact ((List.map_congr_left fun r member => fixed r (prunes'.inside r member)).trans
      (List.map_id' outputs')).symm
  have none : removed = 0 := by
    have count : removed + places'.length = pruned.tape.size := prunes'.removed
    rw [all, List.length_range] at count
    omega
  rw [done, kept, same, none]

end Prunes

end Tape

end TaylorTape
