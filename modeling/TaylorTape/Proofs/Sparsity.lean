import TaylorTape.Proofs.Mirror
import TaylorTape.Evaluator.Sparsity

/-!
Sparsity patterns of a tape and of what is embedded into it.

The walk forward gives every variable the same set of inputs under both of its numbers, whatever sets
it gives to entries that are left out.  The walk backward takes no output to an entry that is left
out, so such an entry has nothing to pass on.  Neither walk fails, and the patterns are the same.
-/

set_option autoImplicit false
set_option relaxedAutoImplicit false

namespace TaylorTape

namespace Tape

variable {B : Type} {tape small : Tape B} {g : Nat → Nat} {rest : IndexSet → Prop}
  {sets sets' : Array IndexSet}

namespace Selects

variable (selects : Selects tape small g rest sets sets')
include selects

private theorem mapM_fetch_concur {vs : List Nat} (below : ∀ v ∈ vs, v < small.size) :
    Concur True (· = ·) ((vs.map g).mapM (fetch sets)) (vs.mapM (fetch sets')) := by
  obtain ⟨found, read⟩ := exists_mapM fun v member =>
    (selects.exists_fetch (below v member)).imp fun _ => And.right
  have same : (vs.map g).mapM (fetch sets) = .ok found := by
    rw [List.mapM_map, ← read]
    refine mapM_congr fun v member => ?_
    obtain ⟨x, there, there'⟩ := selects.exists_fetch (below v member)
    rw [Function.comp_apply, there, there']
  rw [same, read]
  exact .ok rfl

private theorem storeFrom_leftOut {i : Nat} (new : List IndexSet)
    (room : ∀ r < new.length, i + r < tape.size ∧ small.LeftOut g (i + r)) (kept : ∀ s, rest s) :
    ∃ next, storeFrom sets i new = .ok next ∧ Selects tape small g rest next sets' := by
  refine foldlM_total ?_ selects
  rintro ⟨s, r⟩ member sets selects
  have low := List.snd_lt_add_of_mem_zipIdx member
  obtain ⟨inside, left⟩ := room r (by omega)
  exact selects.store_leftOut inside left (kept s)

variable (embeds : small.Embeds tape g)
include embeds

private theorem storeFrom_concur {i : Nat} (new : List IndexSet)
    (room : ∀ r < new.length, i + r < small.size ∧ g (i + r) = g i + r) :
    Concur True (Selects tape small g rest) (storeFrom sets (g i) new) (storeFrom sets' i new) := by
  unfold storeFrom
  refine Concur.foldlM (R := fun a a' => a = a' ∧ a.2 < new.length)
    (List.forall₂_same.2 fun a member => ⟨rfl, ?_⟩) ?_ selects
  · have := List.snd_lt_add_of_mem_zipIdx member
    omega
  · rintro ⟨s, r⟩ _ ⟨rfl, low⟩ sets sets' selects
    obtain ⟨inside, follows⟩ := room r low
    show Concur True _ (store sets (g i + r) s) (store sets' (i + r) s)
    rw [← follows]
    exact selects.store_concur embeds inside s

private theorem joinAt_concur {v : Nat} (below : v < small.size) (s : IndexSet) :
    Concur True (Selects tape small g rest) (joinAt sets (g v) s) (joinAt sets' v s) :=
  (selects.fetch_concur below).eq_bind fun t => selects.store_concur embeds below (t.union s)

end Selects

theorem joinAt_empty {v : Nat} (inside : v < sets.size) : joinAt sets v .empty = .ok sets := by
  have there : fetch sets v = .ok sets[v] := fetch_eq_ok_iff.2 (Array.getElem?_eq_getElem inside)
  rw [joinAt, there, ok_bind]
  exact store_eq_ok_iff.2 ⟨inside, Array.set_getElem_self inside⟩

namespace Embeds

variable (embeds : small.Embeds tape g) (wf : tape.WellFormed)
include embeds wf

private theorem gather_concur (selects : Selects tape small g rest sets sets') {i : Nat}
    (inside : i < small.size) :
    Concur True (Selects tape small g rest) (tape.gather sets (g i)) (small.gather sets' i) := by
  have wf' := embeds.wellFormed wf
  obtain ⟨e, found⟩ := exists_entry inside
  have below : ∀ a ∈ e.operands, a < small.size := fun a reads => wf'.operand_lt found reads
  unfold gather
  rw [found, embeds.entry found, ok_bind, ok_bind]
  cases e with
  | input =>
    have low := (wf'.inputs i .input found).1 rfl
    have stored : Concur True (Selects tape small g rest) (store sets (g i) (.singleton i)) _ :=
      selects.store_concur embeds inside (.singleton i)
    rwa [embeds.fixed i low] at stored ⊢
  | const | result => exact .ok selects
  | unary op a =>
    exact (selects.fetch_concur (below a List.mem_cons_self)).eq_bind
      fun s => selects.store_concur embeds inside s
  | binary op a b =>
    exact (selects.fetch_concur (below a List.mem_cons_self)).eq_bind fun s =>
      (selects.fetch_concur (below b (List.mem_cons_of_mem _ List.mem_cons_self))).eq_bind
        fun t => selects.store_concur embeds inside (s.union t)
  | call place args n =>
    obtain ⟨r, there, _⟩ := wf'.atomics i place args n found
    have table : fetch small.atomics place = .ok r := fetch_eq_ok_iff.2 there
    simp only [Entry.relabel, ← embeds.atomics, table, ok_bind]
    refine (selects.mapM_fetch_concur below).eq_bind fun given =>
      selects.storeFrom_concur embeds _ fun k low => embeds.follows found ?_
    exact low.trans_le (List.length_take_le _ _)

private theorem gather_leftOut (selects : Selects tape small g (fun _ => True) sets sets') {i : Nat}
    (inside : i < tape.size) (left : small.LeftOut g i) :
    ∃ next, tape.gather sets i = .ok next ∧ Selects tape small g (fun _ => True) next sets' := by
  obtain ⟨e, found⟩ := exists_entry inside
  have read : ∀ a ∈ e.operands, ∃ s, fetch sets a = .ok s := fun a reads =>
    selects.exists_fetch_old (wf.operand_lt found reads)
  unfold gather
  rw [found, ok_bind]
  cases e with
  | input => exact selects.store_leftOut inside left trivial
  | const | result => exact ⟨sets, rfl, selects⟩
  | unary op a =>
    obtain ⟨s, there⟩ := read a List.mem_cons_self
    simp only [there, ok_bind]
    exact selects.store_leftOut inside left trivial
  | binary op a b =>
    obtain ⟨s, there⟩ := read a List.mem_cons_self
    obtain ⟨t, there'⟩ := read b (List.mem_cons_of_mem _ List.mem_cons_self)
    simp only [there, there', ok_bind]
    exact selects.store_leftOut inside left trivial
  | call place args n =>
    obtain ⟨r, there, _⟩ := wf.atomics i place args n found
    have table : fetch tape.atomics place = .ok r := fetch_eq_ok_iff.2 there
    obtain ⟨given, gathered⟩ := exists_mapM read
    have gathered : args.mapM (fetch sets) = .ok given := gathered
    simp only [table, gathered, ok_bind]
    refine selects.storeFrom_leftOut _ (fun k low => ?_) fun _ => trivial
    have short : k < n := low.trans_le (List.length_take_le _ _)
    have room : i + n ≤ tape.size := wf.span_le found
    exact ⟨by omega, embeds.leftOut_of_produced wf left found (Nat.le_add_right i k)
      (Nat.add_lt_add_left short i)⟩

/-- A step back does the same at an entry and at the embedded one. -/
theorem spread_concur (selects : Selects tape small g rest sets sets') {i : Nat}
    (inside : i < small.size) :
    Concur True (Selects tape small g rest) (tape.spread sets (g i)) (small.spread sets' i) := by
  have wf' := embeds.wellFormed wf
  obtain ⟨e, found⟩ := exists_entry inside
  have below : ∀ a ∈ e.operands, a < small.size := fun a reads => wf'.operand_lt found reads
  unfold spread
  rw [found, embeds.entry found, ok_bind, ok_bind]
  cases e with
  | input | const | result => exact .ok selects
  | unary op a =>
    exact (selects.fetch_concur inside).eq_bind fun s =>
      selects.joinAt_concur embeds (below a List.mem_cons_self) s
  | binary op a b =>
    exact (selects.fetch_concur inside).eq_bind fun s =>
      (selects.joinAt_concur embeds (below a List.mem_cons_self) s).bind fun _ _ selects =>
        selects.joinAt_concur embeds (below b (List.mem_cons_of_mem _ List.mem_cons_self)) s
  | call place args n =>
    obtain ⟨r, there, _⟩ := wf'.atomics i place args n found
    have table : fetch small.atomics place = .ok r := fetch_eq_ok_iff.2 there
    obtain ⟨given, read, read'⟩ := selects.exists_own embeds found
    have read : (List.range' (g i) n).mapM (fetch sets) = .ok given := read
    have read' : (List.range' i n).mapM (fetch sets') = .ok given := read'
    simp only [Entry.relabel, ← embeds.atomics, table, read, read', ok_bind, List.length_map]
    split
    · exact .ok selects
    · rw [List.zip_map_left, List.foldlM_map]
      refine Concur.foldlM (R := fun a a' => a = a' ∧ a.1 < small.size)
        (List.forall₂_same.2 fun a member => ⟨rfl, below a.1 (List.of_mem_zip member).1⟩) ?_ selects
      rintro ⟨v, s⟩ _ ⟨rfl, low⟩ sets sets' selects
      exact selects.joinAt_concur embeds low s

private theorem spread_leftOut (selects : Selects tape small g (· = .empty) sets sets') {i : Nat}
    (inside : i < tape.size) (left : small.LeftOut g i) : tape.spread sets i = .ok sets := by
  obtain ⟨e, found⟩ := exists_entry inside
  have here : fetch sets i = .ok .empty := by
    obtain ⟨s, there, rfl⟩ := selects.fetch_leftOut inside left
    exact there
  have join : ∀ a ∈ e.operands, joinAt sets a .empty = .ok sets := fun a reads =>
    joinAt_empty (selects.size.symm ▸ wf.operand_lt found reads)
  unfold spread
  rw [found, ok_bind]
  cases e with
  | input | const | result => rfl
  | unary op a => simp only [here, ok_bind, join a List.mem_cons_self]
  | binary op a b =>
    simp only [here, ok_bind, join a List.mem_cons_self,
      join b (List.mem_cons_of_mem _ List.mem_cons_self)]
  | call place args n =>
    have read : (List.range' i n).mapM (fetch sets) = .ok (List.replicate n .empty) :=
      selects.own_leftOut embeds wf found left
    simp only [read, ok_bind]
    rw [if_pos (List.all_eq_true.2 fun s member => ?_)]
    · rfl
    · rw [List.eq_of_mem_replicate member]
      rfl

end Embeds

end Tape

namespace Evaluator

variable {B F : Type} [Scalar F] [Base B F] {e e' : Evaluator B} {g : Nat → Nat}

theorem Embeds.forwardSparsity_concur (embeds : e'.Embeds e g) :
    Concur True (· = ·) e.forwardSparsity e'.forwardSparsity := by
  have wf := embeds.wellFormed.tape
  unfold forwardSparsity
  rw [embeds.numInputs_eq, embeds.numOutputs_eq]
  refine (embeds.tape.picks.up (R := Tape.Selects e.tape e'.tape g fun _ => True)
    (fun i inside sets sets' selects => embeds.tape.gather_concur wf selects inside)
    (fun i inside left sets sets' selects => embeds.tape.gather_leftOut wf selects inside left)
    (.replicate embeds.tape trivial)).bind fun sets sets' selects => ?_
  rw [← embeds.outputs]
  exact (selects.mapM_fetch_concur embeds.wellFormed'.outputs).eq_bind fun rows => .ok rfl

theorem Embeds.reverseSparsity_concur (embeds : e'.Embeds e g) :
    Concur True (· = ·) e.reverseSparsity e'.reverseSparsity := by
  have wf := embeds.wellFormed.tape
  have start : Tape.Selects e.tape e'.tape g (· = IndexSet.empty) _ _ := .replicate embeds.tape rfl
  unfold reverseSparsity
  rw [embeds.numInputs_eq, embeds.numOutputs_eq, ← embeds.outputs, List.zipIdx_map, List.foldlM_map]
  refine (Concur.foldlM (R := fun a a' => a = a' ∧ a.1 < e'.tape.size)
    (List.forall₂_same.2 fun a member => ⟨rfl, embeds.wellFormed'.outputs a.1
      (List.fst_mem_of_mem_zipIdx member)⟩) ?_ start).bind fun sets sets' selects => ?_
  · rintro ⟨y, row⟩ _ ⟨rfl, low⟩ sets sets' selects
    exact selects.joinAt_concur embeds.tape low (.singleton row)
  refine (embeds.tape.picks.down (R := Tape.Selects e.tape e'.tape g (· = IndexSet.empty))
    (fun i inside sets sets' selects => embeds.tape.spread_concur wf selects inside)
    (fun i inside left sets sets' selects =>
      ⟨sets, embeds.tape.spread_leftOut wf selects inside left, selects⟩) selects).bind
    fun sets sets' selects => ?_
  have count : e'.tape.numInputs = e.numInputs := embeds.tape.inputs
  have inputs : (List.range e.numInputs).map g = List.range e.numInputs :=
    (List.map_congr_left fun j member =>
      embeds.tape.fixed j (count ▸ List.mem_range.1 member)).trans (List.map_id' _)
  have below : ∀ j ∈ List.range e.numInputs, j < e'.tape.size := fun j member =>
    (count ▸ List.mem_range.1 member : j < e'.tape.numInputs).trans_le embeds.tape.inputs_le
  have columns := selects.mapM_fetch_concur below
  rw [inputs] at columns
  exact columns.eq_bind fun columns => .ok rfl

end Evaluator

end TaylorTape
