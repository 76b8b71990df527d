import Mathlib.Data.List.Sort
import TaylorTape.Proofs.Links
import TaylorTape.Proofs.Frozen
import TaylorTape.Evaluator.Sparsity

/-!
What a sparsity pattern says about a tape.

Where the rules of the atomics are unions over links, the walk forward leaves with every variable
exactly the inputs that it depends on, and the walk back exactly the outputs that depend on it; so
both patterns are the relation between outputs and inputs, written down row by row.
-/

set_option autoImplicit false
set_option relaxedAutoImplicit false

namespace TaylorTape

namespace Tape

variable {B F : Type} {tape : Tape B} {links : Nat → Nat → Nat → Nat → Prop} {i p v w j : Nat}
  {e : Entry} {sets : Array IndexSet}

/-! ### Sets at positions -/

/-- A number belongs to the set at a position. -/
def Has (sets : Array IndexSet) (v x : Nat) : Prop :=
  ∃ s, sets[v]? = some s ∧ x ∈ s.toList

private theorem has_iff {s : IndexSet} {x : Nat} (there : fetch sets v = .ok s) :
    Has sets v x ↔ x ∈ s.toList := by
  simp [Has, fetch_eq_ok_iff.1 there]

private theorem not_has_replicate (n v x : Nat) : ¬ Has (Array.replicate n IndexSet.empty) v x := by
  rintro ⟨s, found, member⟩
  obtain ⟨_, same⟩ := Array.getElem?_eq_some_iff.1 found
  rw [← same, Array.getElem_replicate] at member
  exact IndexSet.not_mem_empty x member

private theorem exists_fetch_set (inside : v < sets.size) : ∃ s, fetch sets v = .ok s :=
  ⟨sets[v], fetch_eq_ok_iff.2 (Array.getElem?_eq_getElem inside)⟩

private theorem store_members {s : IndexSet} (inside : i < sets.size) :
    ∃ next, store sets i s = .ok next ∧ next.size = sets.size ∧
      ∀ v x, Has next v x ↔ (v = i ∧ x ∈ s.toList) ∨ (v ≠ i ∧ Has sets v x) := by
  refine ⟨_, store_eq_ok_iff.2 ⟨inside, rfl⟩, Array.size_set .., fun v x => ?_⟩
  unfold Has
  rw [Array.getElem?_set]
  by_cases here : v = i
  · simp [here]
  · simp [here, Ne.symm here]

private theorem joinAt_members {s : IndexSet} (inside : i < sets.size) :
    ∃ next, joinAt sets i s = .ok next ∧ next.size = sets.size ∧
      ∀ v x, Has next v x ↔ Has sets v x ∨ (v = i ∧ x ∈ s.toList) := by
  obtain ⟨t, there⟩ := exists_fetch_set inside
  obtain ⟨next, stored, size, members⟩ := store_members (s := t.union s) inside
  refine ⟨next, ?_, size, fun v x => ?_⟩
  · rw [joinAt, there, ok_bind, stored]
  · rw [members, IndexSet.mem_union]
    by_cases here : v = i
    · simp [here, has_iff there]
    · simp [here]

private theorem joins_members {pairs : List (Nat × IndexSet)}
    (inside : ∀ p ∈ pairs, p.1 < sets.size) :
    ∃ next, pairs.foldlM (fun sets p => joinAt sets p.1 p.2) sets = .ok next ∧
      next.size = sets.size ∧
      ∀ v x, Has next v x ↔ Has sets v x ∨ ∃ s, (v, s) ∈ pairs ∧ x ∈ s.toList := by
  induction pairs generalizing sets with
  | nil => exact ⟨sets, rfl, rfl, by simp⟩
  | cons p pairs ih =>
    obtain ⟨here, rest⟩ := List.forall_mem_cons.1 inside
    obtain ⟨mid, first, size, members⟩ := joinAt_members (s := p.2) here
    have others : ∀ q ∈ pairs, q.1 < mid.size := fun q member => size ▸ rest q member
    obtain ⟨next, later, size', members'⟩ := ih others
    refine ⟨next, ?_, size'.trans size, fun v x => ?_⟩
    · rw [List.foldlM_cons, first, ok_bind, later]
    · simp only [members', members, List.mem_cons, Prod.ext_iff, or_and_right, exists_or, or_assoc]
      simp

private theorem stores_members {new : List IndexSet} {k : Nat}
    (room : i + k + new.length ≤ sets.size) : ∃ next,
      (new.zipIdx k).foldlM (fun sets p => store sets (i + p.2) p.1) sets = .ok next ∧
      next.size = sets.size ∧
      ∀ v x, Has next v x ↔ (∃ r, v = i + k + r ∧ InSet new r x) ∨
        ((v < i + k ∨ i + k + new.length ≤ v) ∧ Has sets v x) := by
  induction new generalizing k sets with
  | nil => exact ⟨sets, rfl, rfl, fun v x => by simp [InSet, Nat.lt_or_ge]⟩
  | cons s new ih =>
    rw [List.length_cons] at room
    obtain ⟨mid, first, size, members⟩ := store_members (s := s) (show i + k < sets.size by omega)
    have further : i + (k + 1) + new.length ≤ mid.size := by omega
    obtain ⟨next, later, size', members'⟩ := ih further
    refine ⟨next, ?_, size'.trans size, fun v x => ?_⟩
    · rw [List.zipIdx_cons, List.foldlM_cons, first, ok_bind, later]
    · rw [members', members, exists_inSet_cons, List.length_cons, ← Nat.add_assoc i k 1]
      by_cases here : v = i + k
      · have after : v < i + k + 1 ∨ i + k + 1 + new.length ≤ v := by omega
        have inside : ¬ (v < i + k ∨ i + k + (new.length + 1) ≤ v) := by omega
        rw [iff_true_intro after, iff_false_intro inside]
        simp [here, or_comm]
      · have outside : (v < i + k + 1 ∨ i + k + 1 + new.length ≤ v) ↔
            (v < i + k ∨ i + k + (new.length + 1) ≤ v) := by omega
        rw [outside]
        simp [here]

private theorem storeFrom_members {new : List IndexSet} (room : i + new.length ≤ sets.size) :
    ∃ next, storeFrom sets i new = .ok next ∧ next.size = sets.size ∧
      ∀ v x, Has next v x ↔ (∃ r, v = i + r ∧ InSet new r x) ∨
        ((v < i ∨ i + new.length ≤ v) ∧ Has sets v x) :=
  stores_members (k := 0) room

private theorem inSet_mapM_fetch {vs : List Nat} {given : List IndexSet}
    (read : vs.mapM (fetch sets) = .ok given) {k x : Nat} :
    InSet given k x ↔ ∃ a, vs[k]? = some a ∧ Has sets a x := by
  constructor
  · rintro ⟨s, found, member⟩
    have below : k < vs.length :=
      length_of_mapM read ▸ (List.getElem?_eq_some_iff.1 found).1
    obtain ⟨s', found', there⟩ := getElem?_of_mapM read (List.getElem?_eq_getElem below)
    obtain rfl : s = s' := Option.some.inj (found.symm.trans found')
    exact ⟨vs[k], List.getElem?_eq_getElem below, (has_iff there).2 member⟩
  · rintro ⟨a, argument, has⟩
    obtain ⟨s, found, there⟩ := getElem?_of_mapM read argument
    exact ⟨s, found, (has_iff there).1 has⟩

/-! ### The walk forward -/

/-- The sets in front of a position are those of the inputs that the variables there depend on. -/
structure Gathered (tape : Tape B) (links : Nat → Nat → Nat → Nat → Prop) (i : Nat)
    (sets : Array IndexSet) : Prop where
  size : sets.size = tape.size
  members : ∀ v j, Has sets v j ↔ tape.Produced i v ∧ tape.DependsOn links v j

namespace Gathered

variable (gathered : tape.Gathered links i sets) (wf : tape.WellFormed)
  (found : tape.entry i = .ok e)
include gathered wf found

private theorem operand {a : Nat} (reads : a ∈ e.operands) :
    Has sets a j ↔ tape.DependsOn links a j := by
  rw [gathered.members]
  exact and_iff_right (wf.produced_operand found reads)

private theorem not_has {r : Nat} (below : r < e.span) : ¬ Has sets (i + r) j := by
  rw [gathered.members]
  exact fun both => wf.not_produced found (Nat.le_add_right i r) (Nat.add_lt_add_left below i)
    both.1

private theorem step {next : Array IndexSet} (size : next.size = sets.size)
    (own : ∀ r < e.span, ∀ j, Has next (i + r) j ↔
      (e = .input ∧ j = i) ∨ ∃ a, e.Linked links r a ∧ Has sets a j)
    (others : ∀ v j, v < i ∨ i + e.span ≤ v → (Has next v j ↔ Has sets v j)) :
    tape.Gathered links (i + 1) next where
  size := size.trans gathered.size
  members v j := by
    rw [produced_succ found]
    by_cases outside : v < i ∨ i + e.span ≤ v
    · have elsewhere : ¬ (i ≤ v ∧ v < i + e.span) := by omega
      rw [others v j outside, gathered.members, or_iff_left elsewhere]
    · obtain ⟨r, rfl⟩ : ∃ r, v = i + r := ⟨v - i, by omega⟩
      have below : r < e.span := by omega
      have made : tape.Produced i (i + r) ∨ (i ≤ i + r ∧ i + r < i + e.span) := .inr (by omega)
      rw [own r below, dependsOn_iff wf found below, and_iff_right made]
      refine or_congr_right (exists_congr fun a => and_congr_right fun linked => ?_)
      exact gathered.operand wf found linked.mem_operands

private theorem store_set (single : e.span = 1) {s : IndexSet}
    (own : ∀ j, j ∈ s.toList ↔ (e = .input ∧ j = i) ∨ ∃ a, e.Linked links 0 a ∧ Has sets a j) :
    ∃ next, store sets i s = .ok next ∧ tape.Gathered links (i + 1) next := by
  have here : i < sets.size := gathered.size ▸ lt_size_of_entry found
  obtain ⟨next, stored, size, members⟩ := store_members (s := s) here
  refine ⟨next, stored, gathered.step wf found size (fun r below j => ?_) fun v j outside => ?_⟩
  · obtain rfl : r = 0 := by omega
    simp [members, own]
  · have elsewhere : v ≠ i := by omega
    simp [members, elsewhere]

private theorem kept (noInput : e ≠ .input) (none : e.operands = []) :
    tape.Gathered links (i + 1) sets := by
  refine gathered.step wf found rfl (fun r below j => ?_) fun v j _ => Iff.rfl
  refine iff_of_false (gathered.not_has wf found below) ?_
  rintro (⟨same, _⟩ | ⟨a, linked, _⟩)
  · exact noInput same
  · have reads := linked.mem_operands
    rw [none] at reads
    cases reads

end Gathered

/-- A step forward leaves with the results of an entry the inputs that they depend on. -/
private theorem gather_spec (wf : tape.WellFormed) (unions : tape.UnionsOver links)
    (inside : i < tape.size) (gathered : tape.Gathered links i sets) :
    ∃ next, tape.gather sets i = .ok next ∧ tape.Gathered links (i + 1) next := by
  obtain ⟨e, found⟩ := exists_entry inside
  have read : ∀ a ∈ e.operands, ∃ s, fetch sets a = .ok s := fun a reads =>
    exists_fetch_set (gathered.size ▸ wf.operand_lt found reads)
  unfold gather
  rw [found, ok_bind]
  cases e with
  | input => exact gathered.store_set wf found rfl fun j => by simp [IndexSet.singleton]
  | const => exact ⟨sets, rfl, gathered.kept wf found (by simp) rfl⟩
  | result owner => exact ⟨sets, rfl, gathered.kept wf found (by simp) rfl⟩
  | unary op a =>
    obtain ⟨s, there⟩ := read a List.mem_cons_self
    simp only [there, ok_bind]
    exact gathered.store_set wf found rfl fun j => by simp [has_iff there]
  | binary op a b =>
    obtain ⟨s, there⟩ := read a List.mem_cons_self
    obtain ⟨t, there'⟩ := read b (List.mem_cons_of_mem _ List.mem_cons_self)
    simp only [there, there', ok_bind]
    exact gathered.store_set wf found rfl fun j => by
      simp [IndexSet.mem_union, has_iff there, has_iff there', or_and_right, exists_or]
  | call place args n =>
    obtain ⟨r, entered, count⟩ := wf.atomics i place args n found
    have table : fetch tape.atomics place = .ok r := fetch_eq_ok_iff.2 entered
    obtain ⟨given, given_eq⟩ := exists_mapM read
    have given_eq : args.mapM (fetch sets) = .ok given := given_eq
    have arity : given.length = args.length := length_of_mapM given_eq
    have room : i + n ≤ sets.size := gathered.size ▸ wf.span_le found
    have short : ((r.op.forwardSparsity given n).take n).length ≤ n := List.length_take_le _ _
    have fits : i + ((r.op.forwardSparsity given n).take n).length ≤ sets.size := by omega
    obtain ⟨next, stored, size, members⟩ := storeFrom_members fits
    refine ⟨next, ?_, gathered.step wf found size (fun k below j => ?_) fun v j outside => ?_⟩
    · simp only [table, given_eq, ok_bind, stored]
    · have below : k < n := below
      have forward := (unions i place args n r found entered).forward given k j
        (by rwa [arity, count])
      rw [arity, count] at forward
      have stored_here : Has next (i + k) j ↔ InSet (r.op.forwardSparsity given n) k j := by
        rw [members, iff_false_intro (gathered.not_has wf found below)]
        simp [inSet_take below]
      rw [stored_here, forward]
      simp only [reduceCtorEq, false_and, false_or, Entry.linked_call_iff,
        inSet_mapM_fetch given_eq]
      constructor
      · rintro ⟨a, linked, w, argument, has⟩
        exact ⟨w, ⟨a, argument, linked⟩, has⟩
      · rintro ⟨w, ⟨a, argument, linked⟩, has⟩
        exact ⟨a, linked, w, argument, has⟩
    · have outside : v < i ∨ i + n ≤ v := outside
      have away : ¬ ∃ k, v = i + k ∧ InSet ((r.op.forwardSparsity given n).take n) k j := by
        rintro ⟨k, rfl, inside⟩
        have := inside.lt_length
        omega
      rw [members, iff_false_intro away, false_or]
      exact and_iff_right (by omega)

/-! ### The walk back -/

/-- An output depends on a variable through a chain of links. -/
def Feeds (tape : Tape B) (links : Nat → Nat → Nat → Nat → Prop) (outputs : List Nat)
    (v row : Nat) : Prop :=
  ∃ y, outputs[row]? = some y ∧ Relation.ReflTransGen (tape.Link links) y v

/-- The sets behind a position: a variable has the outputs that it is, and those that it feeds
through the entries behind the position. -/
structure Spread (tape : Tape B) (links : Nat → Nat → Nat → Nat → Prop) (outputs : List Nat)
    (i : Nat) (sets : Array IndexSet) : Prop where
  size : sets.size = tape.size
  members : ∀ v row, Has sets v row ↔ outputs[row]? = some v ∨
    ∃ p w, i ≤ p ∧ tape.LinkAt links p w v ∧ tape.Feeds links outputs w row

private theorem feeds_iff {outputs : List Nat} {row : Nat} : tape.Feeds links outputs v row ↔
    outputs[row]? = some v ∨ ∃ p w, tape.LinkAt links p w v ∧ tape.Feeds links outputs w row := by
  constructor
  · rintro ⟨y, output, chain⟩
    rcases (Relation.ReflTransGen.cases_tail_iff _ _ _).1 chain with rfl | ⟨w, before, p, linked⟩
    · exact .inl output
    · exact .inr ⟨p, w, linked, y, output, before⟩
  · rintro (output | ⟨p, w, linked, y, output, before⟩)
    · exact ⟨v, output, .refl⟩
    · exact ⟨y, output, before.tail ⟨p, linked⟩⟩

namespace Spread

variable {outputs : List Nat} {row : Nat}

private theorem complete (spread : tape.Spread links outputs i sets) (wf : tape.WellFormed)
    (here : i ≤ v + 1) : Has sets v row ↔ tape.Feeds links outputs v row := by
  rw [spread.members, feeds_iff]
  refine or_congr_right (exists_congr fun p => exists_congr fun w => ?_)
  constructor
  · exact fun ⟨_, linked, feeds⟩ => ⟨linked, feeds⟩
  · exact fun ⟨linked, feeds⟩ => ⟨here.trans (linked.lt wf), linked, feeds⟩

variable (spread : tape.Spread links outputs (i + 1) sets) (wf : tape.WellFormed)
  (found : tape.entry i = .ok e)
include spread wf found

private theorem step {next : Array IndexSet} (size : next.size = sets.size)
    (members : ∀ v row, Has next v row ↔ Has sets v row ∨
      ∃ r, r < e.span ∧ e.Linked links r v ∧ Has sets (i + r) row) :
    tape.Spread links outputs i next where
  size := size.trans spread.size
  members v row := by
    rw [members, spread.members, or_assoc]
    refine or_congr_right ?_
    constructor
    · rintro (⟨p, w, behind, rest⟩ | ⟨r, below, linked, has⟩)
      · exact ⟨p, w, Nat.le_of_succ_le behind, rest⟩
      · exact ⟨i, i + r, le_rfl, ⟨e, r, found, below, rfl, linked⟩,
          (spread.complete wf (by omega)).1 has⟩
    · rintro ⟨p, w, behind, linked, feeds⟩
      rcases Nat.eq_or_lt_of_le behind with rfl | after
      · obtain ⟨e', r, found', below, rfl, linked⟩ := linked
        obtain rfl : e = e' := Except.ok.inj (found.symm.trans found')
        exact .inr ⟨r, below, linked, (spread.complete wf (by omega)).2 feeds⟩
      · exact .inl ⟨p, w, after, linked, feeds⟩

private theorem kept (none : ∀ r v, ¬ e.Linked links r v) : tape.Spread links outputs i sets :=
  spread.step wf found rfl fun v row => by simp [none]

end Spread

private theorem inSet_range' {n k x : Nat} {given : List IndexSet}
    (read : (List.range' i n).mapM (fetch sets) = .ok given) :
    InSet given k x ↔ k < n ∧ Has sets (i + k) x := by
  rw [inSet_mapM_fetch read]
  constructor
  · rintro ⟨v, place_k, has⟩
    obtain ⟨below, rfl⟩ := List.getElem?_eq_some_iff.1 place_k
    rw [List.getElem_range', Nat.one_mul] at has
    exact ⟨by simpa using below, has⟩
  · rintro ⟨below, has⟩
    exact ⟨i + k, by rw [List.getElem?_range' below, Nat.one_mul], has⟩

private theorem UnionsOver.passed_back (unions : tape.UnionsOver links) {place n row : Nat}
    {args : List Nat} {r : Registered B} {given : List IndexSet}
    (found : tape.entry i = .ok (.call place args n)) (entered : tape.atomics[place]? = some r)
    (arity : given.length = r.op.numResults args.length) :
    (∃ s, (v, s) ∈ args.zip (r.op.reverseSparsity given args.length) ∧ row ∈ s.toList) ↔
      ∃ k, (Entry.call place args n).Linked links k v ∧ InSet given k row := by
  have reverse (a : Nat) (below : a < args.length) :=
    (unions i place args n r found entered).reverse given args.length a row arity below
  have pair (s : IndexSet) : (v, s) ∈ args.zip (r.op.reverseSparsity given args.length) ↔
      ∃ a : Nat, args[a]? = some v ∧
        (r.op.reverseSparsity given args.length)[a]? = some s := by
    simp [List.mem_iff_getElem?, List.getElem?_zip_eq_some]
  simp only [pair, Entry.linked_call_iff]
  constructor
  · rintro ⟨s, ⟨a, argument, passed⟩, member⟩
    have below := (List.getElem?_eq_some_iff.1 argument).1
    obtain ⟨k, linked, inside⟩ := (reverse a below).1 ⟨s, passed, member⟩
    exact ⟨k, ⟨a, argument, linked⟩, inside⟩
  · rintro ⟨k, ⟨a, argument, linked⟩, inside⟩
    have below := (List.getElem?_eq_some_iff.1 argument).1
    obtain ⟨s, passed, member⟩ := (reverse a below).2 ⟨k, linked, inside⟩
    exact ⟨s, ⟨a, argument, passed⟩, member⟩

/-- A step back leaves with the operands of an entry the outputs that they feed through it. -/
private theorem spread_spec {outputs : List Nat} (wf : tape.WellFormed)
    (unions : tape.UnionsOver links)
    (inside : i < tape.size) (spread : tape.Spread links outputs (i + 1) sets) :
    ∃ next, tape.spread sets i = .ok next ∧ tape.Spread links outputs i next := by
  obtain ⟨e, found⟩ := exists_entry inside
  obtain ⟨s, there⟩ := exists_fetch_set (spread.size ▸ inside : i < sets.size)
  have room : ∀ a ∈ e.operands, a < sets.size := fun a reads =>
    spread.size ▸ wf.operand_lt found reads
  unfold Tape.spread
  rw [found, ok_bind]
  cases e with
  | input => exact ⟨sets, rfl, spread.kept wf found (by simp)⟩
  | const => exact ⟨sets, rfl, spread.kept wf found (by simp)⟩
  | result owner => exact ⟨sets, rfl, spread.kept wf found (by simp)⟩
  | unary op a =>
    obtain ⟨next, joined, size, members⟩ := joinAt_members (s := s) (room a List.mem_cons_self)
    refine ⟨next, ?_, spread.step wf found size fun v row => ?_⟩
    · simp only [there, ok_bind, joined]
    · simp [members, Entry.span, has_iff there]
  | binary op a b =>
    have inside' : b < sets.size := room b (List.mem_cons_of_mem _ List.mem_cons_self)
    obtain ⟨mid, joined, size, members⟩ := joinAt_members (s := s) (room a List.mem_cons_self)
    obtain ⟨next, joined', size', members'⟩ := joinAt_members (s := s) (size ▸ inside')
    refine ⟨next, ?_, spread.step wf found (size'.trans size) fun v row => ?_⟩
    · simp only [there, ok_bind, joined, joined']
    · simp [members', members, Entry.span, has_iff there, or_and_right, or_assoc]
  | call place args n =>
    obtain ⟨r, entered, count⟩ := wf.atomics i place args n found
    have table : fetch tape.atomics place = .ok r := fetch_eq_ok_iff.2 entered
    have results : i + n ≤ sets.size := spread.size ▸ wf.span_le found
    have inside : ∀ v ∈ List.range' i n, ∃ s, fetch sets v = .ok s := fun v member =>
      exists_fetch_set (by
        have := List.mem_range'_1.1 member
        omega)
    obtain ⟨given, read⟩ := exists_mapM inside
    have arity : given.length = n := (length_of_mapM read).trans List.length_range'
    simp only [read, ok_bind]
    split
    · -- nothing is fed by the results
      rename_i empty
      refine ⟨sets, rfl, spread.step wf found rfl fun v row => ?_⟩
      refine (or_iff_left ?_).symm
      rintro ⟨k, below, _, has⟩
      obtain ⟨s, there, member⟩ := (inSet_range' read).2 ⟨below, has⟩
      exact IndexSet.not_mem_of_isEmpty
        (List.all_eq_true.1 empty s (List.mem_of_getElem? there)) row member
    · have fits : ∀ p ∈ args.zip (r.op.reverseSparsity given args.length), p.1 < sets.size :=
        fun p member => room p.1 (List.of_mem_zip member).1
      obtain ⟨next, joined, size, members⟩ := joins_members fits
      refine ⟨next, ?_, spread.step wf found size fun v row => ?_⟩
      · simp only [table, ok_bind]
        exact joined
      · rw [members, unions.passed_back found entered (arity.trans count.symm)]
        simp only [inSet_range' read, and_left_comm, Entry.span]

variable (links) in
private theorem spread_start {outputs : List Nat} (inside : ∀ y ∈ outputs, y < tape.size) :
    ∃ start, outputs.zipIdx.foldlM (fun sets p => joinAt sets p.1 (.singleton p.2))
        (Array.replicate tape.size .empty) = .ok start ∧
      tape.Spread links outputs tape.size start := by
  have entered : ∀ p ∈ outputs.zipIdx.map fun p => (p.1, IndexSet.singleton p.2),
      p.1 < (Array.replicate tape.size IndexSet.empty).size := by
    simp only [List.forall_mem_map, Array.size_replicate]
    exact fun p member => inside p.1 (List.fst_mem_of_mem_zipIdx member)
  obtain ⟨start, joined, size, members⟩ := joins_members entered
  rw [List.foldlM_map] at joined
  refine ⟨start, joined, size.trans (Array.size_replicate ..), fun v row => ?_⟩
  rw [members, or_iff_right (not_has_replicate _ v row)]
  have behind : ¬ ∃ p w, tape.size ≤ p ∧ tape.LinkAt links p w v ∧
      tape.Feeds links outputs w row := by
    rintro ⟨p, w, outside, ⟨e, _, found, _⟩, _⟩
    exact absurd (lt_size_of_entry found) (Nat.not_lt.2 outside)
  rw [or_iff_left behind]
  constructor
  · rintro ⟨s, member, here⟩
    obtain ⟨p, there, same⟩ := List.mem_map.1 member
    obtain ⟨rfl, rfl⟩ := Prod.mk.inj same
    obtain rfl : row = p.2 := List.mem_singleton.1 here
    exact List.mem_zipIdx_iff_getElem?.1 there
  · intro output
    exact ⟨.singleton row, List.mem_map.2 ⟨(v, row), List.mem_zipIdx_iff_getElem?.2 output, rfl⟩,
      List.mem_singleton_self row⟩

end Tape

/-! ### Patterns -/

namespace Evaluator

variable {B F : Type} {e : Evaluator B} {links : Nat → Nat → Nat → Nat → Prop}

/-- A pattern is the relation between outputs and inputs, written down row by row. -/
structure Describes (e : Evaluator B) (links : Nat → Nat → Nat → Nat → Prop) (p : Pattern) :
    Prop where
  numOutputs : p.numOutputs = e.numOutputs
  numInputs : p.numInputs = e.numInputs
  increasing : p.entries.Pairwise (Prod.Lex (· < ·) (· < ·))
  mem_iff : ∀ i j, (i, j) ∈ p.entries ↔
    ∃ y, e.outputs[i]? = some y ∧ e.tape.DependsOn links y j

private theorem Describes.unique {p p' : Pattern} (described : e.Describes links p)
    (described' : e.Describes links p') : p = p' := by
  obtain ⟨m, n, entries⟩ := p
  obtain ⟨m', n', entries'⟩ := p'
  obtain rfl : m = m' := described.numOutputs.trans described'.numOutputs.symm
  obtain rfl : n = n' := described.numInputs.trans described'.numInputs.symm
  obtain rfl : entries = entries' :=
    described.increasing.eq_of_mem_iff described'.increasing fun place =>
      (described.mem_iff place.1 place.2).trans (described'.mem_iff place.1 place.2).symm
  rfl

private theorem increasing_flatMap {α : Type} {rows : List α} (row : α → Nat) (cols : α → List Nat)
    (rows_increasing : rows.Pairwise fun a b => row a < row b)
    (cols_increasing : ∀ a ∈ rows, (cols a).Pairwise (· < ·)) :
    (rows.flatMap fun a => (cols a).map fun col => (row a, col)).Pairwise
      (Prod.Lex (· < ·) (· < ·)) := by
  refine List.pairwise_flatMap.2 ⟨fun a member => ?_, rows_increasing.imp fun {a b} before => ?_⟩
  · exact List.pairwise_map.2 ((cols_increasing a member).imp fun before => .right _ before)
  · intro x inside y inside'
    obtain ⟨_, _, rfl⟩ := List.mem_map.1 inside
    obtain ⟨_, _, rfl⟩ := List.mem_map.1 inside'
    exact .left _ _ before

private theorem pairwise_snd_zipIdx {α : Type} (xs : List α) :
    xs.zipIdx.Pairwise fun a b => a.2 < b.2 := by
  have places : (xs.zipIdx.map Prod.snd).Pairwise (· < ·) := by
    rw [List.zipIdx_map_snd]
    exact List.pairwise_lt_range'
  exact List.pairwise_map.1 places

/-- The walk forward writes down the dependences of the outputs. -/
theorem forwardSparsity_spec (wf : e.WellFormed) (unions : e.tape.UnionsOver links) :
    ∃ p, e.forwardSparsity = .ok p ∧ e.Describes links p := by
  have start : e.tape.Gathered links 0 (Array.replicate e.tape.size .empty) :=
    ⟨Array.size_replicate .., fun v j => iff_of_false (Tape.not_has_replicate _ v j)
      fun both => Tape.not_produced_zero e.tape v both.1⟩
  obtain ⟨sets, walked, gathered⟩ := foldlM_up (f := e.tape.gather) (n := e.tape.size)
    (fun i sets _ below gathered => Tape.gather_spec wf.tape unions (by omega) gathered) start
  rw [Nat.zero_add] at gathered
  have inside : ∀ y ∈ e.outputs, ∃ s, fetch sets y = .ok s := fun y member =>
    Tape.exists_fetch_set (gathered.size ▸ wf.outputs y member)
  obtain ⟨rows, read⟩ := exists_mapM inside
  refine ⟨⟨e.numOutputs, e.numInputs, rows.zipIdx.flatMap fun p =>
    p.1.toList.map fun col => (p.2, col)⟩, ?_, rfl, rfl, ?_, fun i j => ?_⟩
  · unfold forwardSparsity
    rw [List.range_eq_range', Evaluator.size, walked, ok_bind, read, ok_bind]
    rfl
  · exact increasing_flatMap Prod.snd (fun p => p.1.toList) (pairwise_snd_zipIdx rows)
      fun p _ => p.1.increasing
  · have written : (i, j) ∈ (rows.zipIdx.flatMap fun p => p.1.toList.map fun col => (p.2, col)) ↔
        InSet rows i j := by
      simp [InSet, List.mem_flatMap, List.mem_zipIdx_iff_getElem?]
    rw [written, Tape.inSet_mapM_fetch read]
    refine exists_congr fun y => and_congr_right fun output => ?_
    have below := wf.outputs y (List.mem_of_getElem? output)
    rw [gathered.members]
    exact and_iff_right (wf.tape.produced_of_lt le_rfl below)

/-- The walk back writes down the same. -/
theorem reverseSparsity_spec (wf : e.WellFormed) (unions : e.tape.UnionsOver links) :
    ∃ p, e.reverseSparsity = .ok p ∧ e.Describes links p := by
  obtain ⟨start, entered, last⟩ := Tape.spread_start links wf.outputs
  obtain ⟨sets, walked, spread⟩ := foldlM_down (f := e.tape.spread) (a := 0) (n := e.tape.size)
    (P := fun i sets => e.tape.Spread links e.outputs i sets)
    (fun i sets _ below spread => Tape.spread_spec wf.tape unions (by omega) spread)
    (by rwa [Nat.zero_add])
  have inside : ∀ j ∈ List.range e.numInputs, ∃ s, fetch sets j = .ok s := fun j member =>
    Tape.exists_fetch_set (spread.size ▸ (List.mem_range.1 member).trans_le wf.tape.inputs_le)
  obtain ⟨columns, read⟩ := exists_mapM inside
  refine ⟨⟨e.numOutputs, e.numInputs, (IndexSet.unions columns).toList.flatMap fun row =>
    ((columns.zipIdx.filter fun p => p.1.contains row).map Prod.snd).map fun col => (row, col)⟩,
    ?_, rfl, rfl, ?_, fun i j => ?_⟩
  · unfold reverseSparsity
    rw [List.range_eq_range', Evaluator.size, entered, ok_bind, walked, ok_bind, read, ok_bind]
    simp only [List.map_map]
    rfl
  · exact increasing_flatMap id _ (IndexSet.unions columns).increasing fun row _ =>
      List.pairwise_map.2 ((pairwise_snd_zipIdx columns).filter _)
  · have written : (i, j) ∈ (IndexSet.unions columns).toList.flatMap (fun row =>
        ((columns.zipIdx.filter fun p => p.1.contains row).map Prod.snd).map
          fun col => (row, col)) ↔
        InSet columns j i := by
      simp only [List.mem_flatMap, List.mem_map, List.mem_filter, IndexSet.mem_unions,
        IndexSet.contains_iff]
      constructor
      · rintro ⟨row, _, col, ⟨p, ⟨there, member⟩, rfl⟩, same⟩
        obtain ⟨rfl, rfl⟩ := Prod.mk.inj same
        exact ⟨p.1, List.mem_zipIdx_iff_getElem?.1 there, member⟩
      · rintro ⟨s, there, member⟩
        exact ⟨i, ⟨s, List.mem_of_getElem? there, member⟩, j,
          ⟨(s, j), ⟨List.mem_zipIdx_iff_getElem?.2 there, member⟩, rfl⟩, rfl⟩
    rw [written, Tape.inSet_mapM_fetch read]
    constructor
    · rintro ⟨v, there, has⟩
      obtain ⟨below, rfl⟩ := List.getElem?_eq_some_iff.1 there
      rw [List.getElem_range] at has
      obtain ⟨y, output, chain⟩ := (spread.complete wf.tape (Nat.zero_le _)).1 has
      rw [List.length_range] at below
      exact ⟨y, output, below, chain⟩
    · rintro ⟨y, output, input, chain⟩
      exact ⟨j, List.getElem?_range input,
        (spread.complete wf.tape (Nat.zero_le _)).2 ⟨y, output, chain⟩⟩

private theorem Describes.rows_lt {p : Pattern} (described : e.Describes links p) {i : Nat}
    (row : i ∈ p.rows) : i < p.numOutputs := by
  obtain ⟨place, member, rfl⟩ := List.mem_map.1 row
  obtain ⟨y, output, _⟩ := (described.mem_iff place.1 place.2).1 member
  exact described.numOutputs ▸ (List.getElem?_eq_some_iff.1 output).1

private theorem Describes.cols_lt {p : Pattern} (described : e.Describes links p) {j : Nat}
    (col : j ∈ p.cols) : j < p.numInputs := by
  obtain ⟨place, member, rfl⟩ := List.mem_map.1 col
  obtain ⟨y, _, input, _⟩ := (described.mem_iff place.1 place.2).1 member
  exact described.numInputs ▸ input

/-- Where the rules of the atomics are unions, as those of the built-ins are, both walks find the
same pattern.  It has a place for an output and an input where a chain of links leads from the one
back to the other and nowhere else, each once, row by row and by column within a row. -/
theorem sparsity_exact [Scalar F] [Base B F] [LawfulBase B] (recorded : e.Recorded)
    (unions : e.tape.UnionsOver links) :
    (∀ r : Registered B, r.IsBuiltIn → r.op.UnionsOver fun _ _ _ => True) ∧
    ∃ p, e.forwardSparsity = .ok p ∧ e.reverseSparsity = .ok p ∧
      p.numOutputs = e.numOutputs ∧ p.numInputs = e.numInputs ∧
      (∀ i j, (i, j) ∈ p.entries ↔ j < e.numInputs ∧ ∃ y, e.outputs[i]? = some y ∧
        Relation.ReflTransGen (e.tape.Link links) y j) ∧
      p.entries.Pairwise (fun a b => a.1 < b.1 ∨ a.1 = b.1 ∧ a.2 < b.2) ∧
      (∀ i ∈ p.rows, i < p.numOutputs) ∧ (∀ j ∈ p.cols, j < p.numInputs) ∧
      ∀ i j, p.contains i j = true ↔ (i, j) ∈ p.entries := by
  have wf := recorded.wellFormed
  obtain ⟨p, forward, described⟩ := forwardSparsity_spec wf unions
  obtain ⟨p', reverse, described'⟩ := reverseSparsity_spec wf unions
  obtain rfl := described.unique described'
  refine ⟨fun r => Registered.IsBuiltIn.unionsOver, p, forward, reverse, described.numOutputs,
    described.numInputs, fun i j => ?_,
    described.increasing.imp fun before => (Prod.lex_def ..).1 before,
    fun i row => described.rows_lt row, fun j col => described.cols_lt col,
    fun i j => List.contains_iff_mem⟩
  rw [described.mem_iff]
  constructor
  · exact fun ⟨y, output, input, chain⟩ => ⟨input, y, output, chain⟩
  · exact fun ⟨input, y, output, chain⟩ => ⟨y, output, input, chain⟩

end Evaluator

/-- The arguments in the opposite order. -/
def Atomic.turn {B : Type} : Atomic B where
  numResults := id
  extend p q varIn varOut tx ty := do
    let ty ← Block.fill p q ty fun k => do return (← Block.row varIn.size q tx k).reverse
    return some (if p = 0 then varIn.toList.reverse.toArray else varOut, ty)
  pull q tx _ px py := do
    let px ← Block.fill 0 q px fun k => do return (← Block.row (tx.size / (q + 1)) q py k).reverse
    return some px
  forwardSparsity sets _ := sets.reverse
  reverseSparsity sets _ := sets.reverse

private theorem inSet_reverse {sets : List IndexSet} {n k x : Nat} (count : sets.length = n) :
    InSet sets.reverse k x ↔ ∃ a, a + k + 1 = n ∧ InSet sets a x := by
  constructor
  · intro inside
    have below := inside.lt_length
    rw [List.length_reverse] at below
    obtain ⟨s, there, member⟩ := inside
    rw [List.getElem?_reverse below] at there
    exact ⟨sets.length - 1 - k, by omega, s, there, member⟩
  · rintro ⟨a, same, s, there, member⟩
    refine ⟨s, ?_, member⟩
    rw [List.getElem?_reverse (by omega), ← there]
    exact congrArg (sets[·]?) (by omega)

private theorem Atomic.unionsOver_turn {B : Type} :
    (turn : Atomic B).UnionsOver fun n a r => a + r + 1 = n where
  forward _ _ _ _ := inSet_reverse rfl
  reverse sets n a x count below := by
    show InSet sets.reverse a x ↔ _
    rw [inSet_reverse (n := n) count]
    exact exists_congr fun r => and_congr_left' (by rw [Nat.add_comm r a])

/-- A call that turns two inputs, and the product of its first result with the first input. -/
private def Tape.turned : Tape Float where
  id := 7
  nodes := #[⟨.input, 1⟩, ⟨.input, 2⟩, ⟨.call 0 [0, 1] 2, 2⟩, ⟨.result 2, 1⟩,
    ⟨.binary .mul 2 0, 2 * 1⟩]
  numInputs := 2
  atomics := #[⟨0, "turn", .turn⟩]

namespace Evaluator

/-- A product of an input with another one that a call has put in its place. -/
theorem sparsity_exact_turned : ∃ f : Program.Frozen Float,
    Program.freeze ⟨#[⟨0, "turn", .turn⟩]⟩ 7 [1, 2] [.call 0 [0, 1], .binary .mul 2 0] [3, 4, 1] =
      .ok f ∧
    f.evaluator.forwardSparsity = .ok ⟨3, 2, [(0, 0), (1, 0), (1, 1), (2, 1)]⟩ ∧
    f.evaluator.reverseSparsity = .ok ⟨3, 2, [(0, 0), (1, 0), (1, 1), (2, 1)]⟩ := by
  let start : Tape Float := .ofInputs 7 [1, 2]
  let called : Tape Float := {
    id := 7
    nodes := #[⟨.input, 1⟩, ⟨.input, 2⟩, ⟨.call 0 [0, 1] 2, 2⟩, ⟨.result 2, 1⟩]
    numInputs := 2
    atomics := #[⟨0, "turn", .turn⟩] }
  have pushed : start.pushCall ⟨0, "turn", .turn⟩ [0, 1] [2, 1] = (2, called) := by
    simp [start, called, Tape.pushCall, Tape.intern, Tape.ofInputs, Tape.push, Tape.size]
  have first : Step.record (Program.inputs 7 [1, 2]) (.call 0 [0, 1])
        ⟨some start, ⟨#[⟨0, "turn", .turn⟩]⟩⟩ =
      (.ok [⟨2, .onTape 7 2⟩, ⟨1, .onTape 7 3⟩], ⟨some called, ⟨#[⟨0, "turn", .turn⟩]⟩⟩) :=
    congrArg (fun p : Nat × Tape Float =>
      ((.ok [⟨2, .onTape 7 p.1⟩, ⟨1, .onTape 7 (p.1 + 1)⟩] : Except Error (List (Tracked Float))),
        (⟨some p.2, ⟨#[⟨0, "turn", .turn⟩]⟩⟩ : Recorder Float))) pushed
  have recorded : Program.record [.call 0 [0, 1], .binary .mul 2 0] (Program.inputs 7 [1, 2])
        ⟨some start, ⟨#[⟨0, "turn", .turn⟩]⟩⟩ =
      (.ok ([⟨1, .onTape 7 0⟩, ⟨2, .onTape 7 1⟩, ⟨2, .onTape 7 2⟩, ⟨1, .onTape 7 3⟩,
        ⟨2 * 1, .onTape 7 4⟩], [.call 0 [0, 1], .binary .mul 2 0]),
        ⟨some .turned, ⟨#[⟨0, "turn", .turn⟩]⟩⟩) :=
    run_bind_eq_ok.2 ⟨.call 0 [0, 1], _, rfl, run_bind_eq_ok.2 ⟨_, _, first, rfl⟩⟩
  have live : Tape.turned.live [3, 4, 1] = .ok #[true, true, true, true, true] := rfl
  have compact : Tape.turned.compact #[true, true, true, true, true] = .ok .turned := rfl
  have pruned : Tape.turned.prune [3, 4, 1] = .ok ⟨.turned, [3, 4, 1], 0⟩ :=
    bind_eq_ok.2 ⟨_, live, bind_eq_ok.2 ⟨_, compact, rfl⟩⟩
  have frozen : Program.freeze ⟨#[⟨0, "turn", .turn⟩]⟩ 7 [1, 2]
        [.call 0 [0, 1], .binary .mul 2 0] [3, 4, 1] =
      .ok ⟨[1, 2 * 1, 2], [.call 0 [0, 1], .binary .mul 2 0], .ofTape .turned [3, 4, 1]⟩ :=
    Program.freeze_eq_ok.2 ⟨_, .turned, _,
      [⟨1, .onTape 7 3⟩, ⟨2 * 1, .onTape 7 4⟩, ⟨2, .onTape 7 1⟩],
      recorded, rfl, bind_eq_ok.2 ⟨(.turned, [3, 4, 1]), rfl, bind_eq_ok.2 ⟨_, pruned, rfl⟩⟩, rfl⟩
  have forward : (Evaluator.ofTape .turned [3, 4, 1]).forwardSparsity =
      .ok ⟨3, 2, [(0, 0), (1, 0), (1, 1), (2, 1)]⟩ := rfl
  have numbered : Registry.Numbered (⟨#[⟨0, "turn", .turn⟩]⟩ : Registry Float) := by
    intro i e there
    obtain ⟨below, rfl⟩ := Array.getElem?_eq_some_iff.1 there
    obtain rfl : i = 0 := Nat.lt_one_iff.1 below
    rfl
  have unions : (Evaluator.ofTape .turned [3, 4, 1]).tape.UnionsOver
      fun _ n a r => a + r + 1 = n := by
    intro _ place _ _ r _ entered
    obtain ⟨below, rfl⟩ := Array.getElem?_eq_some_iff.1 entered
    obtain rfl : place = 0 := Nat.lt_one_iff.1 below
    exact Atomic.unionsOver_turn
  obtain ⟨_, p, found, reverse, _⟩ := sparsity_exact
    ⟨_, 7, _, _, _, _, numbered, by simp [Step.Foreign], frozen, .refl⟩ unions
  obtain rfl := Except.ok.inj (forward.symm.trans found)
  exact ⟨_, frozen, forward, reverse⟩

end Evaluator

end TaylorTape
