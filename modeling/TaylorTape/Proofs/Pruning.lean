import TaylorTape.Proofs.Growth
import TaylorTape.Tape.Live

/-!
Pruning embeds the live entries into the tape.

The marks of a successful walk are those of the inputs and of everything that the outputs need.  The
marked positions in their order are the entries that stay; renaming the operands of an entry that
stayed back to their old positions gives the old entry.  So a pruned tape is well-formed, and
whatever coefficients hold of the entries of the tape hold, at their old positions, of the entries
that stayed.
-/

set_option autoImplicit false
set_option relaxedAutoImplicit false

namespace TaylorTape

/-- The positions that an entry names. -/
def Entry.names : Entry → List Nat
  | .result owner => [owner]
  | e => e.operands

theorem Entry.mem_names_of_operands {e : Entry} {a : Nat} (reads : a ∈ e.operands) : a ∈ e.names := by
  cases e with
  | input | const | result => cases reads
  | unary | binary | call => exact reads

private theorem Entry.mem_reaches_of_names {e : Entry} {a : Nat} (i : Nat) (named : a ∈ e.names) :
    a ∈ e.reaches i := by
  cases e with
  | input | const => cases named
  | unary | binary | result => exact named
  | call place args n => exact List.mem_append_right _ named

namespace Tape

section Marks

variable {B : Type} {tape : Tape B} {outputs : List Nat} {marks : Array Bool}

theorem mark_spec {live marked : Array Bool} {positions : List Nat}
    (done : mark live positions = .ok marked) :
    marked.size = live.size ∧
      ∀ j : Nat, marked[j]? = some true ↔ live[j]? = some true ∨ j ∈ positions := by
  unfold mark at done
  induction positions generalizing live with
  | nil =>
    obtain rfl := Except.ok.inj done
    simp
  | cons p positions ih =>
    rw [List.foldlM_cons] at done
    obtain ⟨mid, stored, rest⟩ := bind_eq_ok.1 done
    obtain ⟨inside, rfl⟩ := store_eq_ok_iff.1 stored
    obtain ⟨size, marked⟩ := ih rest
    refine ⟨size.trans (Array.size_set inside), fun j => ?_⟩
    rw [marked j, Array.getElem?_set]
    by_cases here : p = j
    · subst here
      simp
    · simp [here, Ne.symm here]

/-- The entries that some outputs need: those that they read, directly or through others, where a
call and its results need each other. -/
inductive Needed (tape : Tape B) (outputs : List Nat) : Nat → Prop where
  | output {y : Nat} (asked : y ∈ outputs) : Needed tape outputs y
  | operand {i a : Nat} {e : Entry} (needed : Needed tape outputs i) (found : tape.entry i = .ok e)
      (reads : a ∈ e.operands) : Needed tape outputs a
  | owner {j i : Nat} (needed : Needed tape outputs j) (found : tape.entry j = .ok (.result i)) :
      Needed tape outputs i
  | result {i j : Nat} (needed : Needed tape outputs i) (found : tape.entry j = .ok (.result i)) :
      Needed tape outputs j

/-- The marks of the inputs and of everything that is reached from the outputs. -/
structure Live (tape : Tape B) (outputs : List Nat) (marks : Array Bool) : Prop where
  size : marks.size = tape.size
  only : ∀ i : Nat, marks[i]? = some true → i < tape.numInputs ∨ tape.Needed outputs i
  inputs : ∀ i < tape.numInputs, marks[i]? = some true
  outputs : ∀ y ∈ outputs, marks[y]? = some true
  closed : ∀ (i : Nat) e, marks[i]? = some true → tape.entry i = .ok e →
    ∀ j ∈ e.reaches i, marks[j]? = some true

private theorem Needed.reaches (wf : tape.WellFormed) {i j : Nat} {e : Entry}
    (needed : tape.Needed outputs i) (found : tape.entry i = .ok e) (reached : j ∈ e.reaches i) :
    tape.Needed outputs j := by
  cases e with
  | input | const => cases reached
  | unary op a => exact needed.operand found reached
  | binary op a b => exact needed.operand found reached
  | call place args n =>
    rcases List.mem_append.1 reached with further | reads
    · obtain ⟨low, high⟩ := List.mem_range'_1.1 further
      exact needed.result ((wf.calls i place args n found).2 j (by omega) (by omega))
    · exact needed.operand found reads
  | result owner =>
    obtain rfl : j = owner := by simpa [Entry.reaches] using reached
    exact needed.owner found

private theorem Live.marked (wf : tape.WellFormed) (live : tape.Live outputs marks) {i : Nat}
    (needed : tape.Needed outputs i) : marks[i]? = some true := by
  induction needed with
  | output asked => exact live.outputs _ asked
  | operand _ found reads ih =>
    exact live.closed _ _ ih found _
      (Entry.mem_reaches_of_names _ (Entry.mem_names_of_operands reads))
  | owner _ found ih =>
    exact live.closed _ _ ih found _ (Entry.mem_reaches_of_names _ List.mem_cons_self)
  | result _ found ih =>
    obtain ⟨place, args, n, call, low, high⟩ := wf.results _ _ found
    refine live.closed _ _ ih call _ (List.mem_append_left _ (List.mem_range'_1.2 ?_))
    omega

private theorem reaches_later (wf : tape.WellFormed) {i j : Nat} {e : Entry}
    (found : tape.entry i = .ok e) (reached : j ∈ e.reaches i) (later : i ≤ j) :
    tape.entry j = .ok (.result i) := by
  have operand : j ∈ e.operands → tape.entry j = .ok (.result i) := fun reads =>
    absurd (wf.operands i e found j reads) (by omega)
  cases e with
  | input | const => cases reached
  | unary op a => exact operand reached
  | binary op a b => exact operand reached
  | call place args n =>
    rcases List.mem_append.1 reached with further | reads
    · obtain ⟨low, high⟩ := List.mem_range'_1.1 further
      exact (wf.calls i place args n found).2 j (by omega) (by omega)
    · exact operand reads
  | result owner =>
    obtain rfl : j = owner := by simpa [Entry.reaches] using reached
    obtain ⟨_, _, _, _, before, _⟩ := wf.results i j found
    omega

/-- Marks on the walk back, down to a position: those of the start are among them, and from the
position on they are closed. -/
structure LiveFrom (tape : Tape B) (outputs : List Nat) (start : Array Bool) (i : Nat)
    (marks : Array Bool) : Prop where
  size : marks.size = tape.size
  kept : ∀ j : Nat, start[j]? = some true → marks[j]? = some true
  only : ∀ j : Nat, marks[j]? = some true → j < tape.numInputs ∨ tape.Needed outputs j
  closed : ∀ (k : Nat) e, i ≤ k → marks[k]? = some true → tape.entry k = .ok e →
    ∀ j ∈ e.reaches k, marks[j]? = some true

private theorem LiveFrom.skip {start : Array Bool} {i : Nat}
    (lived : tape.LiveFrom outputs start (i + 1) marks) (blank : marks[i]? = some false) :
    tape.LiveFrom outputs start i marks where
  size := lived.size
  kept := lived.kept
  only := lived.only
  closed k e low here found j reached := by
    by_cases same : k = i
    · subst same
      rw [blank] at here
      cases here
    · exact lived.closed k e (by omega) here found j reached

private theorem LiveFrom.mark {start next : Array Bool} {i : Nat} {e : Entry} (wf : tape.WellFormed)
    (lived : tape.LiveFrom outputs start (i + 1) marks) (read : marks[i]? = some true)
    (found : tape.entry i = .ok e) (marked : Tape.mark marks (e.reaches i) = .ok next) :
    tape.LiveFrom outputs start i next := by
  obtain ⟨size, grown⟩ := mark_spec marked
  refine ⟨size.trans lived.size, fun j here => (grown j).2 (.inl (lived.kept j here)), ?_, ?_⟩
  · intro j here
    rcases (grown j).1 here with old | reached
    · exact lived.only j old
    · rcases lived.only i read with input | needed
      · obtain rfl := (wf.inputs i e found).2 input
        cases reached
      · exact .inr (needed.reaches wf found reached)
  · intro k e' low here found' j reached
    by_cases same : k = i
    · subst same
      obtain rfl : e = e' := Except.ok.inj (found.symm.trans found')
      exact (grown j).2 (.inr reached)
    · rcases (grown k).1 here with old | new
      · exact (grown j).2 (.inl (lived.closed k e' (by omega) old found' j reached))
      · -- a position behind the call that has just been marked is a result of that call
        have result := reaches_later wf found new (by omega)
        obtain rfl : e' = .result i := Except.ok.inj (found'.symm.trans result)
        obtain rfl : j = i := by simpa [Entry.reaches] using reached
        exact (grown j).2 (.inl read)

/-- The walk marks what is needed, and the inputs. -/
theorem live_spec (wf : tape.WellFormed) (done : tape.live outputs = .ok marks) :
    tape.Live outputs marks := by
  obtain ⟨start, marked, walked⟩ := bind_eq_ok.1 done
  obtain ⟨size, first⟩ := mark_spec marked
  rw [Array.size_replicate] at size
  rw [List.range_eq_range'] at walked
  have before : tape.LiveFrom outputs start (0 + tape.size) start := by
    refine ⟨size, fun _ here => here, fun j here => ?_, fun k e low here => ?_⟩
    · rcases (first j).1 here with blank | member
      · rw [Array.getElem?_replicate] at blank
        split at blank <;> cases blank
      · exact (List.mem_append.1 member).imp List.mem_range.1 .output
    · have := (Array.getElem?_eq_some_iff.1 here).1
      omega
  have lived := foldlM_down_kept (P := tape.LiveFrom outputs start) ?_ before walked
  · exact ⟨lived.size, lived.only,
      fun i inside => lived.kept i ((first i).2 (.inr
        (List.mem_append_left _ (List.mem_range.2 inside)))),
      fun y member => lived.kept y ((first y).2 (.inr (List.mem_append_right _ member))),
      fun i e => lived.closed i e (Nat.zero_le i)⟩
  · intro i s t _ _ lived stepped
    obtain ⟨flag, read, stepped⟩ := bind_eq_ok.1 stepped
    rw [fetch_eq_ok_iff] at read
    cases flag with
    | false =>
      obtain rfl := Except.ok.inj stepped
      exact lived.skip read
    | true =>
      obtain ⟨e, found, marked⟩ := bind_eq_ok.1 stepped
      exact lived.mark wf read found marked

/-- The marked positions below a position, in their order. -/
def kept (marks : Array Bool) (n : Nat) : List Nat :=
  (List.range n).filter fun i => marks[i]? = some true

private theorem mem_kept {n i : Nat} : i ∈ kept marks n ↔ i < n ∧ marks[i]? = some true := by
  simp [kept]

private theorem kept_succ (marks : Array Bool) (n : Nat) :
    kept marks (n + 1) = kept marks n ++ if marks[n]? = some true then [n] else [] := by
  unfold kept
  rw [List.range_succ, List.filter_append]
  by_cases here : marks[n]? = some true <;> simp [here]

private theorem kept_add (marks : Array Bool) (n k : Nat) :
    ∃ rest, kept marks (n + k) = kept marks n ++ rest := by
  unfold kept
  rw [List.range_add, List.filter_append]
  exact ⟨_, rfl⟩

private theorem getElem?_kept {n i : Nat} (inside : i < n) (here : marks[i]? = some true) :
    (kept marks n)[(kept marks i).length]? = some i := by
  obtain ⟨k, rfl⟩ := Nat.exists_eq_add_of_lt inside
  obtain ⟨rest, shape⟩ := kept_add marks (i + 1) k
  rw [Nat.add_right_comm, shape, kept_succ, if_pos here]
  simp

private theorem kept_increasing (marks : Array Bool) (n : Nat) : (kept marks n).Pairwise (· < ·) :=
  List.Pairwise.filter _ List.pairwise_lt_range

theorem ranks_spec (marks : Array Bool) {k : Nat} (inside : k < marks.size) :
    (ranks marks)[k]? = some (kept marks k).length := by
  have walk : ∀ n ≤ marks.size,
      ((marks.toList.take n).foldl (fun (acc : Array Nat × Nat) b =>
        (acc.1.push acc.2, if b then acc.2 + 1 else acc.2)) (#[], 0)).2 = (kept marks n).length ∧
      ((marks.toList.take n).foldl (fun (acc : Array Nat × Nat) b =>
        (acc.1.push acc.2, if b then acc.2 + 1 else acc.2)) (#[], 0)).1.size = n ∧
      ∀ k < n, ((marks.toList.take n).foldl (fun (acc : Array Nat × Nat) b =>
        (acc.1.push acc.2, if b then acc.2 + 1 else acc.2)) (#[], 0)).1[k]? =
          some (kept marks k).length := by
    intro n
    induction n with
    | zero => simp [kept]
    | succ n ih =>
      intro room
      obtain ⟨count, size, ranked⟩ := ih (by omega)
      have there : n < marks.toList.length := by simpa using Nat.lt_of_succ_le room
      rw [List.take_succ_eq_append_getElem there, List.foldl_append, List.foldl_cons, List.foldl_nil]
      refine ⟨?_, by simp [size], fun k below => ?_⟩
      · rw [kept_succ, List.length_append, ← count]
        have read : marks[n]? = some marks.toList[n] := by simp
        rw [read]
        cases marks.toList[n] <;> simp
      · rw [Array.getElem?_push, size]
        by_cases last : k = n
        · rw [if_pos last, count, last]
        · rw [if_neg last]
          exact ranked k (by omega)
  have all := (walk marks.size le_rfl).2.2 k inside
  have whole : marks.toList.take marks.size = marks.toList :=
    List.take_of_length_le (by simp)
  rw [whole] at all
  rw [← all]
  unfold ranks
  rw [Array.foldl_toList]

end Marks

end Tape

/-- An entry with the positions that it names mapped. -/
def Entry.relabel (g : Nat → Nat) : Entry → Entry
  | .input => .input
  | .const => .const
  | .unary op a => .unary op (g a)
  | .binary op a b => .binary op (g a) (g b)
  | .call place args n => .call place (args.map g) n
  | .result owner => .result (g owner)

@[simp] theorem Entry.operands_relabel (g : Nat → Nat) (e : Entry) :
    (e.relabel g).operands = e.operands.map g := by
  cases e <;> rfl

@[simp] theorem Entry.span_relabel (g : Nat → Nat) (e : Entry) : (e.relabel g).span = e.span := by
  cases e <;> rfl

@[simp] theorem Entry.relabel_eq_const {g : Nat → Nat} {e : Entry} :
    e.relabel g = .const ↔ e = .const := by
  cases e <;> simp [relabel]

@[simp] theorem Entry.relabel_eq_input {g : Nat → Nat} {e : Entry} :
    e.relabel g = .input ↔ e = .input := by
  cases e <;> simp [relabel]

theorem Entry.exists_owner {g : Nat → Nat} {e : Entry} {i : Nat} (same : e.relabel g = .result i) :
    ∃ o, e = .result o ∧ g o = i := by
  cases e with
  | result o => exact ⟨o, rfl, Entry.result.inj same⟩
  | input | const | unary | binary | call => cases same

theorem Entry.relabel_eq_self {g : Nat → Nat} {e : Entry} (fixed : ∀ a ∈ e.names, g a = a) :
    e.relabel g = e := by
  cases e with
  | input | const => rfl
  | unary op a => rw [relabel, fixed a List.mem_cons_self]
  | binary op a b =>
    rw [relabel, fixed a List.mem_cons_self, fixed b (List.mem_cons_of_mem _ List.mem_cons_self)]
  | call place args n =>
    have same : args.map g = args := (List.map_congr_left fixed).trans (List.map_id' args)
    rw [relabel, same]
  | result owner => rw [relabel, fixed owner List.mem_cons_self]

private theorem Entry.relabel_rename {f : Nat → Except Error Nat} {g : Nat → Nat}
    {e renamed : Entry}
    (undoes : ∀ a ∈ e.names, ∀ r, f a = .ok r → g r = a) (done : e.rename f = .ok renamed) :
    renamed.relabel g = e ∧ ∀ r ∈ renamed.names, ∃ a ∈ e.names, f a = .ok r := by
  cases e with
  | input | const =>
    obtain rfl := Except.ok.inj done
    exact ⟨rfl, nofun⟩
  | unary op a =>
    obtain ⟨r, first, rfl⟩ := map_eq_ok.1 done
    refine ⟨?_, fun r' member => ⟨a, List.mem_cons_self, ?_⟩⟩
    · rw [relabel, undoes a List.mem_cons_self r first]
    · obtain rfl : r' = r := by simpa [names, operands] using member
      exact first
  | binary op a b =>
    obtain ⟨r, first, done⟩ := bind_eq_ok.1 done
    obtain ⟨s, second, rfl⟩ := map_eq_ok.1 done
    have left : a ∈ (Entry.binary op a b).names := by simp [names, operands]
    have right : b ∈ (Entry.binary op a b).names := by simp [names, operands]
    refine ⟨?_, fun r' member => ?_⟩
    · rw [relabel, undoes a left r first, undoes b right s second]
    · rcases (by simpa [names, operands] using member : r' = r ∨ r' = s) with rfl | rfl
      · exact ⟨a, left, first⟩
      · exact ⟨b, right, second⟩
  | call place args n =>
    obtain ⟨rs, renamed, rfl⟩ := map_eq_ok.1 done
    have all := mapM_eq_ok.1 renamed
    have back : rs.map g = args := by
      rw [← List.forall₂_eq_eq_eq, List.forall₂_map_left_iff]
      have each := (List.forall₂_and_left (p := (· ∈ args)) args rs).2 ⟨fun _ => id, all⟩
      exact each.flip.imp fun r a both => undoes a both.1 r both.2
    exact ⟨by rw [relabel, back], fun r member => exists_of_mem_mapM renamed member⟩
  | result owner =>
    obtain ⟨r, first, rfl⟩ := map_eq_ok.1 done
    refine ⟨?_, fun r' member => ⟨owner, List.mem_cons_self, ?_⟩⟩
    · rw [relabel, undoes owner List.mem_cons_self r first]
    · obtain rfl : r' = r := by simpa [names] using member
      exact first

namespace Tape

section Embedding

variable {B : Type} {tape small : Tape B} {outputs : List Nat} {marks : Array Bool} {g : Nat → Nat}

/-- The entries of a tape are entries of another one, in their order, under a map of positions. -/
structure Embeds (small tape : Tape B) (g : Nat → Nat) : Prop where
  inputs : small.numInputs = tape.numInputs
  atomics : small.atomics = tape.atomics
  inputs_le : small.numInputs ≤ small.size
  fixed : ∀ i < small.numInputs, g i = i
  increasing : ∀ i j, i < j → j < small.size → g i < g j
  node : ∀ (i : Nat) e v, small.nodes[i]? = some ⟨e, v⟩ → tape.nodes[g i]? = some ⟨e.relabel g, v⟩
  names : ∀ i e, small.entry i = .ok e → ∀ a ∈ e.names, a < small.size
  results : ∀ i place args n, small.entry i = .ok (.call place args n) →
    ∀ k < n, i + k < small.size ∧ g (i + k) = g i + k

/-- The old position of an entry that stays. -/
def oldPlace (marks : Array Bool) (n r : Nat) : Nat :=
  ((kept marks n)[r]?).getD 0

private theorem oldPlace_eq {n r k : Nat} (found : (kept marks n)[r]? = some k) :
    oldPlace marks n r = k := by
  rw [oldPlace, found]
  rfl

private theorem fetch_ranks {n k r : Nat} (size : marks.size = n) (here : marks[k]? = some true)
    (found : fetch (ranks marks) k = .ok r) :
    (kept marks n)[r]? = some k ∧ r = (kept marks k).length := by
  have inside := (Array.getElem?_eq_some_iff.1 here).1
  rw [fetch_eq_ok_iff, ranks_spec marks inside] at found
  obtain rfl := Option.some.inj found
  exact ⟨getElem?_kept (size ▸ inside) here, rfl⟩

/-- At a new position stands the renamed entry of an old one. -/
def Moved (tape : Tape B) (places : Array Nat) (nodes : Array (Node B)) (r k : Nat) : Prop :=
  ∃ (e : Entry) (v : B) (renamed : Entry), tape.nodes[k]? = some ⟨e, v⟩ ∧
    e.rename (fetch places) = .ok renamed ∧ nodes[r]? = some ⟨renamed, v⟩

private theorem compact_spec (done : tape.compact marks = .ok small) :
    small.id = tape.id ∧ small.numInputs = tape.numInputs ∧ small.atomics = tape.atomics ∧
      small.size = (kept marks tape.size).length ∧
      ∀ r k : Nat, (kept marks tape.size)[r]? = some k →
        tape.Moved (ranks marks) small.nodes r k := by
  unfold compact at done
  obtain ⟨nodes, walked, last⟩ := bind_eq_ok.1 done
  obtain rfl := Except.ok.inj last
  rw [List.range_eq_range'] at walked
  have all := foldlM_up_kept
    (P := fun i (nodes : Array (Node B)) => nodes.size = (kept marks i).length ∧
      ∀ r k : Nat, (kept marks i)[r]? = some k → tape.Moved (ranks marks) nodes r k)
    ?_ ⟨rfl, by simp [kept]⟩ walked
  · rw [Nat.zero_add] at all
    exact ⟨rfl, rfl, rfl, all.1, all.2⟩
  · rintro i s t _ high ⟨count, each⟩ stepped
    obtain ⟨flag, read, stepped⟩ := bind_eq_ok.1 stepped
    rw [fetch_eq_ok_iff] at read
    cases flag with
    | false =>
      obtain rfl := Except.ok.inj stepped
      rw [kept_succ, read]
      simpa using ⟨count, each⟩
    | true =>
      obtain ⟨⟨e, v⟩, found, stepped⟩ := bind_eq_ok.1 stepped
      obtain ⟨renamed, changed, rfl⟩ := map_eq_ok.1 stepped
      rw [fetch_eq_ok_iff] at found
      rw [kept_succ, if_pos read]
      refine ⟨by simp [count], fun r k there => ?_⟩
      by_cases last : r < (kept marks i).length
      · rw [List.getElem?_append_left last] at there
        obtain ⟨e', v', renamed', rest⟩ := each r k there
        refine ⟨e', v', renamed', rest.1, rest.2.1, ?_⟩
        rw [Array.getElem?_push, if_neg (by omega)]
        exact rest.2.2
      · have position := (List.getElem?_eq_some_iff.1 there).1
        rw [List.length_append, List.length_singleton] at position
        obtain rfl : r = (kept marks i).length := by omega
        obtain rfl : i = k := by simpa using there
        exact ⟨e, v, renamed, found, changed, by rw [← count]; exact Array.getElem?_push_size⟩

private theorem length_kept_add {k n : Nat} (all : ∀ m < n, marks[k + m]? = some true) :
    (kept marks (k + n)).length = (kept marks k).length + n := by
  induction n with
  | zero => rfl
  | succ n ih =>
    rw [← Nat.add_assoc, kept_succ, if_pos (all n (Nat.lt_succ_self n)), List.length_append,
      ih fun m below => all m (by omega)]
    rfl

private theorem place_eq {n i k : Nat} (found : (kept marks n)[i]? = some k) :
    i = (kept marks k).length := by
  obtain ⟨inside, here⟩ := mem_kept.1 (List.mem_of_getElem? found)
  have same := (getElem?_kept inside here).trans found.symm
  have distinct : (kept marks n).Nodup := (kept_increasing marks n).imp fun less => ne_of_lt less
  have bound := (List.getElem?_eq_some_iff.1 (getElem?_kept inside here)).1
  exact ((List.getElem?_inj bound distinct).1 same).symm

/-- The entries that stay after compaction are embedded under their old positions. -/
private theorem embeds_of_compact (wf : tape.WellFormed) (live : tape.Live outputs marks)
    (done : tape.compact marks = .ok small) : small.Embeds tape (oldPlace marks tape.size) := by
  obtain ⟨_, inputs, atomics, size, moved⟩ := compact_spec done
  have place : ∀ i < small.size, ∃ k, (kept marks tape.size)[i]? = some k ∧ k < tape.size ∧
      marks[k]? = some true := by
    intro i inside
    have there := List.getElem?_eq_getElem (size ▸ inside)
    exact ⟨_, there, mem_kept.1 (List.mem_of_getElem? there)⟩
  have start : ∀ i < small.numInputs, (kept marks tape.size)[i]? = some i := by
    intro i inside
    rw [inputs] at inside
    have here := live.inputs i inside
    have whole := getElem?_kept (lt_of_lt_of_le inside wf.inputs_le) here
    have count := length_kept_add (k := 0) (n := i) fun m below => by
      rw [Nat.zero_add]
      exact live.inputs m (by omega)
    rw [Nat.zero_add] at count
    rwa [count, show (kept marks 0).length = 0 from rfl, Nat.zero_add] at whole
  -- every renamed entry is the entry at the old position, and names positions that stay
  have back : ∀ (i : Nat) e v, small.nodes[i]? = some ⟨e, v⟩ →
      tape.nodes[oldPlace marks tape.size i]? = some ⟨e.relabel (oldPlace marks tape.size), v⟩ ∧
        ∀ a ∈ e.names, a < small.size := by
    intro i e v there
    obtain ⟨k, found, inside, here⟩ := place i (Array.getElem?_eq_some_iff.1 there).1
    obtain ⟨e', v', renamed, node, changed, there'⟩ := moved i k found
    obtain ⟨rfl, rfl⟩ := Node.mk.inj (Option.some.inj (there.symm.trans there'))
    have reached : ∀ a ∈ e'.names, marks[a]? = some true := fun a named =>
      live.closed k e' here (entry_of_node node) a (Entry.mem_reaches_of_names k named)
    obtain ⟨undone, from_⟩ := Entry.relabel_rename
      (fun a named r renamed => oldPlace_eq (fetch_ranks live.size (reached a named) renamed).1)
      changed
    refine ⟨by rw [oldPlace_eq found, undone]; exact node, fun r named => ?_⟩
    obtain ⟨a, named', renamed'⟩ := from_ r named
    have there := (fetch_ranks live.size (reached a named') renamed').1
    rw [size]
    exact (List.getElem?_eq_some_iff.1 there).1
  refine ⟨inputs, atomics, ?_, fun i inside => oldPlace_eq (start i inside), ?_,
    fun i e v there => (back i e v there).1, ?_, ?_⟩
  · by_contra more
    have there := start small.size (by omega)
    rw [List.getElem?_eq_none (le_of_eq size.symm)] at there
    cases there
  · intro i j before inside
    obtain ⟨k, found, _⟩ := place i (by omega)
    obtain ⟨l, found', _⟩ := place j inside
    rw [oldPlace_eq found, oldPlace_eq found']
    obtain ⟨low, rfl⟩ := List.getElem?_eq_some_iff.1 found
    obtain ⟨high, rfl⟩ := List.getElem?_eq_some_iff.1 found'
    exact List.pairwise_iff_getElem.1 (kept_increasing marks tape.size) i j low high before
  · intro i e found
    obtain ⟨v, there⟩ := entry_eq_ok.1 found
    exact (back i e v there).2
  · intro i p args n found m below
    obtain ⟨v, there⟩ := entry_eq_ok.1 found
    obtain ⟨k, found', inside, here⟩ := place i (lt_size_of_entry found)
    have old := entry_of_node (back i _ v there).1
    rw [oldPlace_eq found'] at old
    -- the further results of a call that stays are marked, and follow it
    have marked : ∀ m < n, marks[k + m]? = some true := by
      intro m below
      cases m with
      | zero => exact here
      | succ m =>
        refine live.closed k _ here old _ (List.mem_append_left _ (List.mem_range'_1.2 ?_))
        omega
    have room : k + m < tape.size :=
      Nat.lt_of_lt_of_le (Nat.add_lt_add_left below k) (wf.span_le old)
    have there' := getElem?_kept room (marked m below)
    rw [length_kept_add fun m' lower => marked m' (by omega), ← place_eq found'] at there'
    refine ⟨?_, by rw [oldPlace_eq found', oldPlace_eq there']⟩
    rw [size]
    exact (List.getElem?_eq_some_iff.1 there').1

namespace Embeds

theorem inside (embeds : small.Embeds tape g) {i : Nat} (below : i < small.size) :
    g i < tape.size := by
  obtain ⟨⟨e, v⟩, found⟩ := exists_node below
  exact lt_size_of_entry (entry_of_node (embeds.node i e v found))

theorem entry (embeds : small.Embeds tape g) {i : Nat} {e : Entry} (found : small.entry i = .ok e) :
    tape.entry (g i) = .ok (e.relabel g) := by
  obtain ⟨v, there⟩ := entry_eq_ok.1 found
  exact entry_of_node (embeds.node i e v there)

private theorem lt_of_lt (embeds : small.Embeds tape g) {i j : Nat} (inside : i < small.size)
    (before : g i < g j) : i < j := by
  by_contra later
  rcases Nat.lt_or_eq_of_le (Nat.le_of_not_lt later) with less | same
  · have := embeds.increasing j i less inside
    omega
  · subst same
    omega

theorem injective (embeds : small.Embeds tape g) {i j : Nat} (inside : i < small.size)
    (inside' : j < small.size) (same : g i = g j) : i = j := by
  rcases Nat.lt_trichotomy i j with less | rfl | more
  · have := embeds.increasing i j less inside'
    omega
  · rfl
  · have := embeds.increasing j i more inside
    omega

/-- What is embedded into a well-formed tape is well-formed. -/
theorem wellFormed (embeds : small.Embeds tape g) (wf : tape.WellFormed) : small.WellFormed where
  inputs_le := embeds.inputs_le
  inputs i e found := by
    have old := embeds.entry found
    rw [← Entry.relabel_eq_input (g := g), wf.inputs _ _ old, ← embeds.inputs]
    have inside := lt_size_of_entry found
    constructor
    · intro before
      have low := lt_of_lt_of_le before embeds.inputs_le
      have here : g i = i := embeds.injective low inside (embeds.fixed _ before)
      rwa [here] at before
    · intro before
      rw [embeds.fixed i before]
      exact before
  operands i e found a reads := by
    have named := Entry.mem_names_of_operands reads
    have inside := embeds.names i e found a named
    refine embeds.lt_of_lt inside (wf.operands _ _ (embeds.entry found) _ ?_)
    rw [Entry.operands_relabel]
    exact List.mem_map_of_mem reads
  atomics i place args n found := by
    obtain ⟨r, there, count⟩ := wf.atomics _ _ _ _ (embeds.entry found)
    rw [List.length_map] at count
    exact ⟨r, embeds.atomics ▸ there, count⟩
  calls i place args n found := by
    obtain ⟨positive, further⟩ := wf.calls _ _ _ _ (embeds.entry found)
    refine ⟨positive, fun j after before => ?_⟩
    obtain ⟨k, rfl⟩ := Nat.exists_eq_add_of_le (le_of_lt after)
    obtain ⟨inside, follows⟩ := embeds.results i place args n found k (by omega)
    obtain ⟨e, there⟩ := exists_entry inside
    have old := embeds.entry there
    rw [follows, further _ (by omega) (by omega)] at old
    obtain ⟨owner, rfl, same⟩ := Entry.exists_owner (Except.ok.inj old).symm
    have inside' := embeds.names _ _ there owner List.mem_cons_self
    rw [there, embeds.injective inside' (lt_size_of_entry found) same]
  results j owner found := by
    obtain ⟨place, args, n, call, low, high⟩ := wf.results _ _ (embeds.entry found)
    have inside := embeds.names _ _ found owner List.mem_cons_self
    obtain ⟨e, there⟩ := exists_entry inside
    have old := embeds.entry there
    rw [call] at old
    cases e with
    | call place' args' n' =>
      have same : n = n' := by
        have := Except.ok.inj old
        simp [Entry.relabel] at this
        exact this.2.2
      subst same
      obtain ⟨inside', follows⟩ := embeds.results owner _ _ _ there (g j - g owner) (by omega)
      have here : owner + (g j - g owner) = j :=
        embeds.injective inside' (lt_size_of_entry found) (by omega)
      exact ⟨place', args', n, there, embeds.lt_of_lt inside low, by omega⟩
    | input | const | unary | binary | result => cases old

private theorem yields {F : Type} [Scalar F] [Base B F] (embeds : small.Embeds tape g)
    (wf : tape.WellFormed) {q i : Nat} {seed xs : List B} {c : Nat → Nat → B}
    (inside : i < small.size) (yields : tape.Yields q seed c (g i) xs) :
    small.Yields q seed (fun v => c (g v)) i xs := by
  obtain ⟨⟨e, v⟩, there⟩ := exists_node inside
  have found := entry_of_node there
  obtain ⟨node, old, yields⟩ := yields
  obtain rfl := Option.some.inj ((embeds.node i e v there).symm.trans old)
  refine ⟨⟨e, v⟩, there, ?_⟩
  cases e with
  | input =>
    have low := ((embeds.wellFormed wf).inputs i .input found).1 rfl
    obtain ⟨x, read, same⟩ := yields
    rw [embeds.fixed i low] at read
    exact ⟨x, read, same⟩
  | const | unary | binary | result => exact yields
  | call place args n =>
    intro r atomic builtIn
    obtain ⟨b, same, stepped⟩ := yields r (embeds.atomics ▸ atomic) builtIn
    refine ⟨b, same, ?_⟩
    rw [List.map_map, List.map_map] at stepped
    exact stepped

/-- Coefficients that hold of an entry of the tape hold, at the old positions, of the embedded
entry. -/
theorem holds {F : Type} [Scalar F] [Base B F] (embeds : small.Embeds tape g)
    (wf : tape.WellFormed) {q i : Nat} {seed : List B} {c : Nat → Nat → B}
    (inside : i < small.size) (holds : tape.Holds q seed c (g i)) :
    small.Holds q seed (fun v => c (g v)) i := by
  obtain ⟨e, found⟩ := exists_entry inside
  obtain ⟨e', old, yields⟩ := holds
  obtain rfl := Except.ok.inj (old.symm.trans (embeds.entry found))
  have results : (List.range' (g i) e.span).map (c · q) =
      (List.range' i e.span).map fun v => c (g v) q := by
    refine List.ext_getElem (by simp) fun k low _ => ?_
    rw [List.length_map, List.length_range'] at low
    simp only [List.getElem_map, List.getElem_range', Nat.one_mul]
    cases e with
    | call place args n => rw [(embeds.results i place args n found k low).2]
    | result => exact absurd low (Nat.not_lt_zero k)
    | input | const | unary | binary =>
      obtain rfl : k = 0 := Nat.lt_one_iff.1 low
      rfl
  refine ⟨e, found, ?_⟩
  rw [Entry.span_relabel, results] at yields
  exact embeds.yields wf inside yields

theorem solves {F : Type} [Scalar F] [Base B F] (embeds : small.Embeds tape g)
    (wf : tape.WellFormed) {x : List B} {c : Nat → B} (solves : tape.Solves x c) :
    small.Solves x (c ∘ g) :=
  fun _ inside => embeds.holds wf inside (solves _ (embeds.inside inside))

theorem onlyBuiltIns {F : Type} [Scalar F] [Base B F] (embeds : small.Embeds tape g)
    (builtIns : tape.OnlyBuiltIns) : small.OnlyBuiltIns := by
  intro i place args n found
  obtain ⟨r, there, builtIn⟩ := builtIns _ _ _ _ (embeds.entry found)
  exact ⟨r, embeds.atomics ▸ there, builtIn⟩

end Embeds

/-- What pruning leaves of a tape, given the old positions of the entries that stay. -/
structure Prunes (tape : Tape B) (outputs : List Nat) (pruned : Pruned B) (places : List Nat) :
    Prop where
  /-- They are in their old order. -/
  increasing : places.Pairwise (· < ·)
  /-- They are the inputs and what the outputs need. -/
  mem : ∀ i, i ∈ places ↔ i < tape.numInputs ∨ tape.Needed outputs i
  id : pruned.tape.id = tape.id
  size : pruned.tape.size = places.length
  embeds : pruned.tape.Embeds tape (places.getD · 0)
  removed : pruned.removed + places.length = tape.size
  inside : ∀ r ∈ pruned.outputs, r < pruned.tape.size
  /-- The outputs keep their entries. -/
  outputs : pruned.outputs.map (places.getD · 0) = outputs

theorem prune_spec {pruned : Pruned B} (wf : tape.WellFormed)
    (done : tape.prune outputs = .ok pruned) : ∃ places, tape.Prunes outputs pruned places := by
  obtain ⟨marks, lived, done⟩ := bind_eq_ok.1 done
  obtain ⟨small, compacted, done⟩ := bind_eq_ok.1 done
  obtain ⟨moved, renamed, last⟩ := bind_eq_ok.1 done
  have live := live_spec wf lived
  obtain ⟨sameId, _, _, size, _⟩ := compact_spec compacted
  have places : List.Forall₂ (fun y r => oldPlace marks tape.size r = y ∧ r < small.size) outputs
      moved := by
    have each := (List.forall₂_and_left (p := (· ∈ outputs)) outputs moved).2
      ⟨fun _ member => member, mapM_eq_ok.1 renamed⟩
    refine each.imp fun y r both => ?_
    have there := (fetch_ranks live.size (live.outputs y both.1) both.2).1
    exact ⟨oldPlace_eq there, size ▸ (List.getElem?_eq_some_iff.1 there).1⟩
  obtain rfl := pure_eq_ok.1 last
  refine ⟨kept marks tape.size, kept_increasing marks _, fun i => ?_, sameId, size,
    embeds_of_compact wf live compacted, ?_, fun r member => ?_, ?_⟩
  · rw [mem_kept]
    constructor
    · exact fun both => live.only i both.2
    · intro stays
      have here : marks[i]? = some true := stays.elim (live.inputs i) (live.marked wf)
      exact ⟨live.size ▸ (Array.getElem?_eq_some_iff.1 here).1, here⟩
  · have bound : (kept marks tape.size).length ≤ tape.size :=
      (List.length_filter_le _ _).trans_eq List.length_range
    show tape.size - small.size + _ = _
    omega
  · obtain ⟨_, _, both⟩ := exists_of_mem_forall₂ places member
    exact both.2
  · rw [← List.forall₂_eq_eq_eq, List.forall₂_map_left_iff]
    exact places.flip.imp fun r y both => both.1

-- nothing asks for the negation, so the sum moves into its place
example : ((⟨1, #[⟨.input, ()⟩, ⟨.input, ()⟩, ⟨.unary .neg 0, ()⟩, ⟨.binary .add 0 1, ()⟩], 2, #[]⟩ :
    Tape Unit).prune [3]).map (fun p => (p.tape.nodes.toList.map Node.entry, p.outputs, p.removed)) =
      .ok ([.input, .input, .binary .add 0 1], [2], 1) := by
  rfl

end Embedding

end Tape

end TaylorTape
