import TaylorTape.Proofs.Growth
import TaylorTape.Proofs.Registry

/-!
What recording does to a tape.

While a tape is recorded it stays well-formed, its table holds atomics of the registry under their
ids, and a tracked value that is a variable of it has its value there.  In a solution of the tape at
another point a tracked value means the value of its variable, and a value from outside means
itself; every operation that is recorded gives results that mean what the operation gives on the
meanings of its operands.
-/

set_option autoImplicit false
set_option relaxedAutoImplicit false

namespace TaylorTape

variable {B F : Type} [Scalar F] [Base B F]

namespace Tape

variable {tape next : Tape B} {t : Tracked B} {x : List B} {c c' : Nat → B} {v : B}

/-- A tracked value that is a variable of the tape has its value there. -/
def Knows (tape : Tape B) (t : Tracked B) : Prop :=
  ∀ j, t.indexOn tape.id = some j → ∃ e, tape.nodes[j]? = some ⟨e, t.value⟩

/-- What a tracked value stands for in a solution of the tape. -/
def Means (tape : Tape B) (c : Nat → B) (t : Tracked B) (v : B) : Prop :=
  match t.indexOn tape.id with
  | some j => c j = v
  | none => t.value = v

omit [Scalar F] [Base B F] in
private theorem knows_parameter (tape : Tape B) (v : B) : tape.Knows (.parameter v) := nofun

omit [Scalar F] [Base B F] in
theorem Knows.extends (knows : tape.Knows t) (extends_ : tape.Extends next) : next.Knows t := by
  intro j here
  rw [extends_.id] at here
  obtain ⟨e, found⟩ := knows j here
  exact ⟨e, extends_.nodes j _ found⟩

omit [Scalar F] [Base B F] in
theorem Knows.lt (knows : tape.Knows t) {j : Nat} (here : t.indexOn tape.id = some j) :
    j < tape.size := by
  obtain ⟨e, found⟩ := knows j here
  exact lt_size_of_entry (entry_of_node found)

omit [Scalar F] [Base B F] in
theorem means_of_some {j : Nat} (here : t.indexOn tape.id = some j) :
    tape.Means c t v ↔ c j = v := by
  unfold Means
  rw [here]

omit [Scalar F] [Base B F] in
theorem means_of_none (away : t.indexOn tape.id = none) : tape.Means c t v ↔ t.value = v := by
  unfold Means
  rw [away]

omit [Scalar F] [Base B F] in
private theorem Means.extends (knows : tape.Knows t) (extends_ : tape.Extends next)
    (agrees : ∀ i < tape.size, c' i = c i) (means : tape.Means c t v) : next.Means c' t v := by
  cases here : t.indexOn tape.id with
  | none => exact (means_of_none (extends_.id ▸ here)).2 ((means_of_none here).1 means)
  | some j =>
    rw [means_of_some (extends_.id ▸ here), agrees j (knows.lt here)]
    exact (means_of_some here).1 means

omit [Scalar F] [Base B F] in
theorem forall₂_means_extends {ts : List (Tracked B)} {vs : List B}
    (knows : ∀ t ∈ ts, tape.Knows t) (extends_ : tape.Extends next)
    (agrees : ∀ i < tape.size, c' i = c i) (means : List.Forall₂ (tape.Means c) ts vs) :
    List.Forall₂ (next.Means c') ts vs := by
  induction means with
  | nil => exact .nil
  | cons first _ ih =>
    exact .cons (first.extends (knows _ List.mem_cons_self) extends_ agrees)
      (ih fun t member => knows t (List.mem_cons_of_mem _ member))

/-- A tape that has grown from another one, and how its solutions extend those of the other. -/
structure Grown (tape next : Tape B) : Prop where
  extends_ : tape.Extends next
  wellFormed : next.WellFormed
  atomics : next.atomics = tape.atomics

private theorem grown_const (wf : tape.WellFormed) (v : B) :
    tape.Grown (tape.push .const v).2 ∧ ∀ x c, tape.Solves x c →
      (tape.push .const v).2.Solves x (extendBy tape.size c [v]) := by
  rw [push_eq]
  refine ⟨⟨extends_append _ _, wf.append (.const v), rfl⟩, fun x c solves => ?_⟩
  refine solves.append wf (.const v) rfl ⟨⟨.const, v⟩, ?_, rfl⟩
  rw [node_append, if_neg (lt_irrefl _), Nat.sub_self]
  rfl

/-- A value put on the tape has its meaning there. -/
theorem embed_grown (wf : tape.WellFormed) (knows : tape.Knows t) :
    ∃ j next, tape.embed t = (j, next) ∧ tape.Grown next ∧
      (∃ e, next.nodes[j]? = some ⟨e, t.value⟩) ∧
      ∀ x c v, tape.Solves x c → tape.Means c t v →
        ∃ c', next.Solves x c' ∧ (∀ i < tape.size, c' i = c i) ∧ c' j = v := by
  unfold embed
  cases here : t.indexOn tape.id with
  | some j =>
    refine ⟨j, tape, rfl, ⟨.refl tape, wf, rfl⟩, knows j here, fun x c v solves means => ?_⟩
    exact ⟨c, solves, fun _ _ => rfl, (means_of_some here).1 means⟩
  | none =>
    obtain ⟨grown, solved⟩ := grown_const wf t.value
    refine ⟨tape.size, _, rfl, grown, ⟨.const, ?_⟩, fun x c v solves means => ?_⟩
    · exact Array.getElem?_push_size
    · refine ⟨_, solved x c solves, fun i before => extendBy_of_lt before _, ?_⟩
      rw [← (means_of_none here).1 means]
      exact extendBy_add (n := tape.size) (k := 0) rfl

omit [Scalar F] [Base B F] in
theorem Grown.trans {last : Tape B} (first : tape.Grown next) (second : next.Grown last) :
    tape.Grown last :=
  ⟨first.extends_.trans second.extends_, second.wellFormed,
    second.atomics.trans first.atomics⟩

/-- One more value put on the tape, its index behind those of the values before it. -/
def embedNext (entered : List Nat × Tape B) (x : Tracked B) : List Nat × Tape B :=
  (entered.1 ++ [(entered.2.embed x).1], (entered.2.embed x).2)

omit [Scalar F] [Base B F] in
private theorem embedAll_eq_foldl (tape : Tape B) (ts : List (Tracked B)) :
    tape.embedAll ts = ts.foldl embedNext ([], tape) :=
  rfl

omit [Scalar F] [Base B F] in
theorem embedAll_cons (tape : Tape B) (t : Tracked B) (ts : List (Tracked B)) :
    tape.embedAll (t :: ts) =
      ((tape.embed t).1 :: ((tape.embed t).2.embedAll ts).1, ((tape.embed t).2.embedAll ts).2) := by
  have shift : ∀ (ts : List (Tracked B)) (tape : Tape B) (js : List Nat),
      ts.foldl embedNext (js, tape) = (js ++ (tape.embedAll ts).1, (tape.embedAll ts).2) := by
    intro ts
    induction ts with
    | nil => simp [embedAll_eq_foldl]
    | cons t ts ih =>
      intro tape js
      rw [embedAll_eq_foldl, List.foldl_cons, List.foldl_cons, embedNext, embedNext, ih, ih]
      simp only [List.nil_append, List.append_assoc]
  exact shift ts (tape.embed t).2 ([] ++ [(tape.embed t).1])

/-- Some values put on the tape have their meanings there. -/
theorem embedAll_grown (wf : tape.WellFormed) {ts : List (Tracked B)}
    (knows : ∀ t ∈ ts, tape.Knows t) :
    ∃ js next, tape.embedAll ts = (js, next) ∧ tape.Grown next ∧
      List.Forall₂ (fun j t => ∃ e, next.nodes[j]? = some ⟨e, t.value⟩) js ts ∧
      ∀ x c vs, tape.Solves x c → List.Forall₂ (tape.Means c) ts vs →
        ∃ c', next.Solves x c' ∧ (∀ i < tape.size, c' i = c i) ∧ js.map c' = vs := by
  induction ts generalizing tape with
  | nil =>
    refine ⟨[], tape, rfl, ⟨.refl tape, wf, rfl⟩, .nil, fun x c vs solves means => ?_⟩
    cases means
    exact ⟨c, solves, fun _ _ => rfl, rfl⟩
  | cons t ts ih =>
    have later := fun t member => knows t (List.mem_cons_of_mem _ member)
    obtain ⟨j, mid, first, grown, ⟨e, found⟩, solved⟩ := embed_grown wf (knows t List.mem_cons_self)
    obtain ⟨js, next, rest, grown', kept, solved'⟩ :=
      ih grown.wellFormed fun t member => (later t member).extends grown.extends_
    refine ⟨j :: js, next, ?_, grown.trans grown', ?_, ?_⟩
    · rw [embedAll_cons, first, rest]
    · exact .cons ⟨e, grown'.extends_.nodes j _ found⟩ kept
    · intro x c vs solves means
      cases means with
      | cons head tail =>
        obtain ⟨c₁, solves₁, agrees₁, value₁⟩ := solved x c _ solves head
        obtain ⟨c₂, solves₂, agrees₂, value₂⟩ :=
          solved' x c₁ _ solves₁ (forall₂_means_extends later grown.extends_ agrees₁ tail)
        have bound := grown.extends_.size_le
        have inside' := lt_size_of_entry (entry_of_node found)
        refine ⟨c₂, solves₂, fun i before => ?_, ?_⟩
        · rw [agrees₂ i (by omega), agrees₁ i before]
        · rw [List.map_cons, agrees₂ j inside', value₁, value₂]

omit [Scalar F] [Base B F] in
theorem lt_size_of_standing {js : List Nat} {ts : List (Tracked B)}
    (standing : List.Forall₂ (fun j t => ∃ e, tape.nodes[j]? = some ⟨e, t.value⟩) js ts) :
    ∀ j ∈ js, j < tape.size := by
  induction standing with
  | nil => simp
  | cons first _ ih =>
    obtain ⟨e, found⟩ := first
    intro j member
    rcases List.mem_cons.1 member with rfl | later
    · exact lt_size_of_entry (entry_of_node found)
    · exact ih j later

/-- One output put among the positions of those before it. -/
def placed : Tape B × List Nat → Tracked B × Nat → Except Error (Tape B × List Nat) :=
  fun (tape, indices) (y, i) =>
    match y.place with
    | .inline =>
      let (index, tape) := tape.push .const y.value
      .ok (tape, indices ++ [index])
    | .onTape t index =>
      if t = tape.id then .ok (tape, indices ++ [index])
      else .error (.state (.foreignOutput i t tape.id))

omit [Scalar F] [Base B F] in
/-- The outputs of a recording stand where their values are put on the tape. -/
theorem embedAll_of_outputs {ys : List (Tracked B)} {js : List Nat}
    (done : tape.outputs ys = .ok (next, js)) : tape.embedAll ys = (js, next) := by
  have walk : ∀ (ys : List (Tracked B)) (start : Nat) (before : List Nat) (tape : Tape B),
      (ys.zipIdx start).foldlM placed (tape, before) = .ok (next, js) →
      ys.foldl embedNext (before, tape) = (js, next) := by
    intro ys
    induction ys with
    | nil =>
      intro start before tape done
      obtain ⟨rfl, rfl⟩ := Prod.mk.inj (Except.ok.inj done)
      rfl
    | cons y ys ih =>
      intro start before tape done
      rw [List.zipIdx_cons, List.foldlM_cons] at done
      obtain ⟨⟨mid, indices⟩, first, rest⟩ := bind_eq_ok.1 done
      have step : (mid, indices) = ((tape.embed y).2, before ++ [(tape.embed y).1]) := by
        unfold embed Tracked.indexOn
        cases place : y.place with
        | inline =>
          simp only [placed, place] at first
          exact (Except.ok.inj first).symm
        | onTape t index =>
          simp only [placed, place] at first
          split at first
          · rename_i own
            simp only [if_pos own]
            exact (Except.ok.inj first).symm
          · cases first
      obtain ⟨rfl, rfl⟩ := Prod.mk.inj step
      exact ih _ _ _ rest
  exact walk ys 0 [] tape done

private theorem unary_grown (wf : tape.WellFormed) (op : UnaryOp) {a : Nat} (arg : a < tape.size)
    (v : B) :
    tape.Grown (tape.push (.unary op a) v).2 ∧ ∀ x c, tape.Solves x c →
      (tape.push (.unary op a) v).2.Solves x (extendBy tape.size c [op.eval (c a)]) := by
  rw [push_eq]
  have group := Group.unary op a v arg
  refine ⟨⟨extends_append _ _, wf.append group, rfl⟩, fun x c solves => ?_⟩
  refine solves.append wf group rfl ⟨⟨.unary op a, v⟩, ?_, _, next_zero_unary op _ _, ?_⟩
  · rw [node_append, if_neg (lt_irrefl _), Nat.sub_self]
    rfl
  · exact congrArg (fun y => [op.eval y]) (extendBy_of_lt arg _).symm

private theorem binary_grown (wf : tape.WellFormed) (op : BinaryOp) {a b : Nat}
    (lhs : a < tape.size) (rhs : b < tape.size) (v : B) :
    tape.Grown (tape.push (.binary op a b) v).2 ∧ ∀ x c w, tape.Solves x c →
      op.eval (c a) (c b) = .ok w →
      (tape.push (.binary op a b) v).2.Solves x (extendBy tape.size c [w]) := by
  rw [push_eq]
  have group := Group.binary op a b v lhs rhs
  refine ⟨⟨extends_append _ _, wf.append group, rfl⟩, fun x c w solves computed => ?_⟩
  refine solves.append wf group rfl ⟨⟨.binary op a b, v⟩, ?_, w, ?_, rfl⟩
  · rw [node_append, if_neg (lt_irrefl _), Nat.sub_self]
    rfl
  · rw [next_zero_binary]
    show op.eval (extendBy tape.size c [w] a) (extendBy tape.size c [w] b) = .ok w
    rw [extendBy_of_lt lhs, extendBy_of_lt rhs]
    exact computed

omit [Scalar F] [Base B F] in
private theorem append_append (tape : Tape B) (nodes more : List (Node B)) :
    (tape.append nodes).append more = tape.append (nodes ++ more) := by
  simp [append, Array.append_assoc]

omit [Scalar F] [Base B F] in
/-- A call pushed behind its atomic is one group of entries. -/
theorem pushCall_cons (tape : Tape B) (e : Registered B) (args : List Nat) (first : B)
    (rest : List B) :
    tape.pushCall e args (first :: rest) = (tape.size, (tape.intern e).2.append
      (⟨.call (tape.intern e).1 args (rest.length + 1), first⟩ ::
        rest.map fun v => ⟨.result tape.size, v⟩)) := by
  have size : (tape.intern e).2.size = tape.size := by
    unfold intern
    split <;> rfl
  have further : ∀ (rest : List B) (tape : Tape B) (index : Nat),
      rest.foldl (fun tape v => (tape.push (.result index) v).2) tape =
        tape.append (rest.map fun v => ⟨.result index, v⟩) := by
    intro rest
    induction rest with
    | nil => simp [append]
    | cons v rest ih =>
      intro tape index
      rw [List.foldl_cons, ih, push_eq, append_append]
      rfl
  unfold pushCall
  simp only [further]
  simp only [push_eq, append_append, size]
  rfl

omit [Scalar F] [Base B F] in
/-- The place of an atomic in the table of a tape holds that atomic, if ids tell atomics apart. -/
theorem intern_found {e : Registered B}
    (unique : ∀ (place : Nat) r, tape.atomics[place]? = some r → r.id = e.id → r = e) :
    (tape.intern e).2.atomics[(tape.intern e).1]? = some e ∧ tape.Extends (tape.intern e).2 ∧
      (tape.intern e).2.nodes = tape.nodes ∧
      ∀ (place : Nat) r, (tape.intern e).2.atomics[place]? = some r →
        r = e ∨ tape.atomics[place]? = some r := by
  unfold intern
  split
  · rename_i place search
    obtain ⟨inside, same, _⟩ := Array.findIdx?_eq_some_iff_getElem.1 search
    have there := Array.getElem?_eq_getElem inside
    refine ⟨?_, .refl tape, rfl, fun _ _ found => .inr found⟩
    rw [there, unique place _ there (by simpa using same)]
  · refine ⟨Array.getElem?_push_size, ⟨rfl, rfl, fun _ _ found => found, ?_⟩, rfl, ?_⟩
    · intro i r found
      have inside := (Array.getElem?_eq_some_iff.1 found).1
      rw [Array.getElem?_push, if_neg (by omega), found]
    · intro place r found
      rw [Array.getElem?_push] at found
      split at found
      · exact .inl (Option.some.inj found).symm
      · exact .inr found

omit [Scalar F] [Base B F] in
private theorem WellFormed.retable (wf : tape.WellFormed) (extends_ : tape.Extends next)
    (nodes : next.nodes = tape.nodes) : next.WellFormed := by
  have entries : ∀ i, next.entry i = tape.entry i := fun i => by rw [entry, entry, nodes]
  have size : next.size = tape.size := by rw [Tape.size, Tape.size, nodes]
  constructor
  · rw [extends_.inputs, size]
    exact wf.inputs_le
  · simpa only [entries, extends_.inputs] using wf.inputs
  · simpa only [entries] using wf.operands
  · intro i place args n found
    obtain ⟨r, there, count⟩ := wf.atomics i place args n (entries i ▸ found)
    exact ⟨r, extends_.atomics place r there, count⟩
  · simpa only [entries] using wf.calls
  · simpa only [entries] using wf.results

/-- Every atomic in the table of the tape is a built-in. -/
def TableOfBuiltIns (tape : Tape B) : Prop :=
  ∀ (place : Nat) r, tape.atomics[place]? = some r → r.IsBuiltIn

theorem TableOfBuiltIns.onlyBuiltIns (builtIns : tape.TableOfBuiltIns) (wf : tape.WellFormed) :
    tape.OnlyBuiltIns := by
  intro i place args n found
  obtain ⟨r, there, _⟩ := wf.atomics i place args n found
  exact ⟨r, there, builtIns place r there⟩

/-- A call and its results added at the end, and what its results are in a solution. -/
private theorem call_grown {e : Registered B} (wf : tape.WellFormed)
    (unique : ∀ (place : Nat) r, tape.atomics[place]? = some r → r.id = e.id → r = e)
    {args : List Nat} (inside : ∀ a ∈ args, a < tape.size) {values : List B}
    (positive : values ≠ []) (count : e.op.numResults args.length = values.length) :
    ∃ next, tape.pushCall e args values = (tape.size, next) ∧ tape.Extends next ∧
      next.WellFormed ∧
      (∀ (place : Nat) r, next.atomics[place]? = some r → r = e ∨ tape.atomics[place]? = some r) ∧
      (∀ (i : Nat) v, values[i]? = some v → ∃ entry, next.nodes[tape.size + i]? = some ⟨entry, v⟩) ∧
      ∀ b : BuiltIn, e.op = b.atomic → ∀ x c us, tape.Solves x c →
        b.step (args.map c) (args.map c) = .ok us →
        next.Solves x (extendBy tape.size c us) := by
  obtain ⟨found, extends_, nodes, only⟩ := intern_found unique
  have size : (tape.intern e).2.size = tape.size := by rw [Tape.size, Tape.size, nodes]
  have wf' := wf.retable extends_ nodes
  obtain ⟨first, rest, rfl⟩ := List.exists_cons_of_ne_nil positive
  have group := Group.call (tape.intern e).1 args e first rest
    (by rwa [size]) found count
  rw [size] at group
  refine ⟨_, pushCall_cons tape e args first rest,
    extends_.trans (extends_append _ _), wf'.append group, only, ?_, ?_⟩
  · intro i v there
    rw [node_append, size, if_neg (by omega), Nat.add_sub_cancel_left]
    cases i with
    | zero =>
      obtain rfl : first = v := by simpa using there
      exact ⟨_, rfl⟩
    | succ i =>
      rw [List.getElem?_cons_succ, List.getElem?_map]
      rw [List.getElem?_cons_succ] at there
      rw [there]
      exact ⟨_, rfl⟩
  · intro b same x c us solves computed
    have lengths := BuiltIn.length_step computed
    have count' : us.length = rest.length + 1 := by
      rw [lengths, ← BuiltIn.numResults_atomic (B := B) b args.length, ← same]
      exact count
    have solves' := solves.extends wf extends_ size
    have grown := solves'.append wf' group (show us.length = _ by simp [count'])
    rw [size] at grown
    refine grown ⟨⟨.call (tape.intern e).1 args (rest.length + 1), first⟩, ?_, ?_⟩
    · rw [node_append, size, if_neg (lt_irrefl _), Nat.sub_self]
      rfl
    · intro r there _
      obtain rfl : e = r := Option.some.inj (found.symm.trans there)
      have args' : args.map (extendBy tape.size c us) = args.map c :=
        List.map_congr_left fun a member => extendBy_of_lt (inside a member) us
      refine ⟨b, same, ?_⟩
      show b.step (args.map (extendBy tape.size c us)) (args.map (extendBy tape.size c us)) = _
      rw [args', computed]

end Tape

/-- What a registry and the tape that is being recorded keep. -/
structure Consistent (registry : Registry B) (tape : Tape B) : Prop where
  numbered : registry.Numbered
  wellFormed : tape.WellFormed
  table : ∀ (place : Nat) e, tape.atomics[place]? = some e → registry.entries[e.id]? = some e

/-- What an operation does to them, where its results are tracked values. -/
structure Advances (registry : Registry B) (tape : Tape B) (r : Recorder B) (next : Tape B)
    (ys : List (Tracked B)) : Prop where
  recording : r.tape = some next
  consistent : Consistent r.registry next
  extends_ : tape.Extends next
  registers : registry.Extends r.registry
  knows : ∀ y ∈ ys, next.Knows y

omit [Scalar F] [Base B F] in
private theorem Consistent.grown {registry : Registry B} {tape next : Tape B}
    (consistent : Consistent registry tape) (grown : tape.Grown next) :
    Consistent registry next :=
  ⟨consistent.numbered, grown.wellFormed, grown.atomics ▸ consistent.table⟩

namespace Tracked

variable {registry : Registry B} {tape : Tape B} {r : Recorder B} {t t' y : Tracked B}

omit [Scalar F] [Base B F] in
theorem indexOn_variable (v : B) (tape index : Nat) :
    (⟨v, .onTape tape index⟩ : Tracked B).indexOn tape = some index :=
  if_pos rfl

omit [Scalar F] [Base B F] in
private theorem knows_pushed (tape : Tape B) (e : Entry) (v : B) :
    (tape.push e v).2.Knows ⟨v, .onTape tape.id tape.size⟩ := by
  intro j here
  obtain rfl : tape.size = j := Option.some.inj ((indexOn_variable v _ _).symm.trans here)
  exact ⟨e, Array.getElem?_push_size⟩

private theorem means_pushed (tape : Tape B) (e : Entry) (v w : B) (c : Nat → B) :
    (tape.push e v).2.Means (Tape.extendBy tape.size c [w]) ⟨v, .onTape tape.id tape.size⟩ w := by
  refine (Tape.means_of_some (indexOn_variable v tape.id tape.size)).2 ?_
  exact Tape.extendBy_add (n := tape.size) (k := 0) rfl

/-- What recording an operation of one argument does. -/
theorem unary_advances (consistent : Consistent registry tape) (knows : tape.Knows t)
    {op : UnaryOp} (done : t.unary op ⟨some tape, registry⟩ = (.ok y, r)) :
    ∃ next, Advances registry tape r next [y] ∧ r.registry = registry ∧
      next.atomics = tape.atomics ∧ y.value = op.eval t.value ∧
      ∀ x c v, tape.Solves x c → tape.Means c t v →
        ∃ c', next.Solves x c' ∧ (∀ i < tape.size, c' i = c i) ∧ next.Means c' y (op.eval v) := by
  unfold Tracked.unary at done
  rw [run_bind_ok (run_get _)] at done
  cases here : t.indexOn tape.id with
  | none =>
    simp only [Recorder.indexOf?, Option.bind_some, here] at done
    cases done
    refine ⟨tape, ⟨rfl, consistent, .refl tape, .refl registry, ?_⟩, rfl, rfl, rfl, ?_⟩
    · exact List.forall_mem_singleton.2 (Tape.knows_parameter tape _)
    · intro x c v solves means
      refine ⟨c, solves, fun _ _ => rfl, (Tape.means_of_none rfl).2 ?_⟩
      rw [← (Tape.means_of_none here).1 means]
      rfl
  | some a =>
    simp only [Recorder.indexOf?, Option.bind_some, here] at done
    cases done
    have arg := knows.lt here
    obtain ⟨grown, solved⟩ := Tape.unary_grown consistent.wellFormed op arg (op.eval t.value)
    refine ⟨_, ⟨rfl, consistent.grown grown, grown.extends_, .refl registry, ?_⟩, rfl,
      grown.atomics, rfl, ?_⟩
    · exact List.forall_mem_singleton.2 (knows_pushed tape _ _)
    · intro x c v solves means
      refine ⟨_, solved x c solves, fun i before => Tape.extendBy_of_lt before _, ?_⟩
      rw [(Tape.means_of_some here).1 means]
      exact means_pushed tape _ _ _ c

/-- What recording an operation of two arguments does. -/
theorem binary_advances (consistent : Consistent registry tape) (knows : tape.Knows t)
    (knows' : tape.Knows t') {op : BinaryOp}
    (done : t.binary op t' ⟨some tape, registry⟩ = (.ok y, r)) :
    ∃ next, Advances registry tape r next [y] ∧ r.registry = registry ∧
      next.atomics = tape.atomics ∧ op.eval t.value t'.value = .ok y.value ∧
      ∀ x c v v' w, tape.Solves x c → tape.Means c t v → tape.Means c t' v' →
        op.eval v v' = .ok w →
        ∃ c', next.Solves x c' ∧ (∀ i < tape.size, c' i = c i) ∧ next.Means c' y w := by
  unfold Tracked.binary at done
  rw [run_bind_ok (run_get _), run_lift_bind_eq_ok] at done
  obtain ⟨value, computed, done⟩ := done
  by_cases away : (t.indexOn tape.id).isNone && (t'.indexOn tape.id).isNone
  · simp only [away, if_true] at done
    cases done
    rw [Bool.and_eq_true, Option.isNone_iff_eq_none, Option.isNone_iff_eq_none] at away
    refine ⟨tape, ⟨rfl, consistent, .refl tape, .refl registry, ?_⟩, rfl, rfl, computed, ?_⟩
    · exact List.forall_mem_singleton.2 (Tape.knows_parameter tape _)
    · intro x c v v' w solves means means' result
      refine ⟨c, solves, fun _ _ => rfl, (Tape.means_of_none rfl).2 ?_⟩
      rw [← (Tape.means_of_none away.1).1 means, ← (Tape.means_of_none away.2).1 means',
        computed] at result
      exact Except.ok.inj result
  · simp only [away] at done
    obtain ⟨a, mid, first, grown₁, ⟨e₁, found₁⟩, solved₁⟩ :=
      Tape.embed_grown consistent.wellFormed knows
    obtain ⟨b, mid', second, grown₂, ⟨e₂, found₂⟩, solved₂⟩ :=
      Tape.embed_grown grown₁.wellFormed (knows'.extends grown₁.extends_)
    have lhs : a < mid'.size := lt_of_lt_of_le (Tape.lt_size_of_entry (Tape.entry_of_node found₁))
      grown₂.extends_.size_le
    have rhs : b < mid'.size := Tape.lt_size_of_entry (Tape.entry_of_node found₂)
    obtain ⟨grown₃, solved₃⟩ := Tape.binary_grown grown₂.wellFormed op lhs rhs value
    have grown := (grown₁.trans grown₂).trans grown₃
    have same : mid'.id = tape.id := (grown₁.trans grown₂).extends_.id
    rw [first] at done
    simp only [second] at done
    cases done
    refine ⟨_, ⟨rfl, consistent.grown grown, grown.extends_, .refl registry, ?_⟩, rfl,
      grown.atomics, computed, ?_⟩
    · refine List.forall_mem_singleton.2 ?_
      rw [← same]
      exact knows_pushed mid' _ _
    · intro x c v v' w solves means means' result
      obtain ⟨c₁, solves₁, agrees₁, value₁⟩ := solved₁ x c v solves means
      obtain ⟨c₂, solves₂, agrees₂, value₂⟩ :=
        solved₂ x c₁ v' solves₁ (means'.extends knows' grown₁.extends_ agrees₁)
      have inner := Tape.lt_size_of_entry (Tape.entry_of_node found₁)
      rw [← value₁, ← agrees₂ a inner, ← value₂] at result
      have bound₁ := grown₁.extends_.size_le
      have bound₂ := grown₂.extends_.size_le
      refine ⟨_, solved₃ x c₂ w solves₂ result, fun i before => ?_, ?_⟩
      · rw [Tape.extendBy_of_lt (by omega), agrees₂ i (by omega), agrees₁ i before]
      · rw [← same]
        exact means_pushed mid' _ _ w c₂

/-- The wires of the arguments of a call that is being recorded. -/
def argumentWires (tape : Tape B) (args : List (Tracked B)) : List (Wire B) :=
  args.map fun x => ⟨#[x.value], (x.indexOn tape.id).isSome⟩

omit [Scalar F] [Base B F] in
theorem coeffs_values (args : List (Tracked B)) (flag : Tracked B → Bool) :
    Wire.coeffs (args.map fun x => ⟨#[x.value], flag x⟩) 0 = .ok (args.map value) := by
  rw [Wire.coeffs, List.mapM_map]
  exact mapM_eq_map fun x _ => rfl

omit [Scalar F] [Base B F] in
theorem size_values {args : List (Tracked B)} {flag : Tracked B → Bool} :
    ∀ w ∈ args.map (fun x => (⟨#[x.value], flag x⟩ : Wire B)), w.series.size = 0 + 1 :=
  List.forall_mem_map.2 fun _ _ => rfl

theorem forward_recorded {b : BuiltIn} {wires : List (Wire B)} {xs : List B} (flag : Bool)
    (single : ∀ w ∈ wires, w.series.size = 0 + 1) (read : Wire.coeffs wires 0 = .ok xs) :
    b.atomic.forward 0 0 wires (List.replicate b.count ⟨#[Base.zero], flag⟩) =
      BuiltIn.extendAll 0 wires (List.replicate b.count ⟨#[Base.zero], flag⟩) <$> b.step xs xs :=
  b.forward_eq read read single List.length_replicate fun y member => by
    rw [List.eq_of_mem_replicate member]
    rfl

omit [Scalar F] [Base B F] in
theorem constantTerms_extend {flag flag' : Bool} {z : B} {values : List B} {count : Nat}
    (counted : values.length = count) : constantTerms (List.zipWith
      (fun (y : Wire B) v => y.extend 0 flag v) (List.replicate count ⟨#[z], flag'⟩) values) =
      .ok values := by
  refine mapM_eq_ok.2 (List.forall₂_iff_get.2 ⟨by simp [counted], fun i inside inside' => ?_⟩)
  rw [List.get_eq_getElem, List.getElem_zipWith, List.getElem_replicate]
  rfl

/-- What a built-in computes while it is recorded. -/
theorem builtIn_recorded {b : BuiltIn} {wires results : List (Wire B)} {xs values : List B}
    {count : Nat} (counted : count = b.count) (single : ∀ w ∈ wires, w.series.size = 0 + 1)
    (read : Wire.coeffs wires 0 = .ok xs)
    (forward : b.atomic.forward 0 0 wires
      (List.replicate count ⟨#[Base.zero], wires.any Wire.isVariable⟩) = .ok (some results))
    (constants : constantTerms results = .ok values) :
    b.step xs xs = .ok values ∧ ∀ y ∈ results, y.isVariable = wires.any Wire.isVariable := by
  rw [counted, forward_recorded _ single read, map_eq_ok] at forward
  obtain ⟨us, stepped, extended⟩ := forward
  obtain rfl := Option.some.inj extended
  refine ⟨?_, fun y member => ?_⟩
  · rw [stepped, ← constants, constantTerms_extend (BuiltIn.length_step stepped)]
  · obtain ⟨i, inside, rfl⟩ := List.getElem_of_mem member
    rw [List.getElem_zipWith, List.getElem_replicate]
    rfl

/-- The results of a call that has been written to the tape with the given number, from a position
on: those that are not flagged stay parameters. -/
def recordedResults (id first : Nat) (results : List (Wire B)) (values : List B) :
    List (Tracked B) :=
  (results.zip values).zipIdx.map fun ((y, v), i) =>
    if y.isVariable then ⟨v, .onTape id (first + i)⟩ else parameter v

/-- The ways in which a call that succeeds can go: its results are parameters, or it is written to
the tape. -/
theorem call_cases {id : Nat} {args ys : List (Tracked B)}
    (done : call id args ⟨some tape, registry⟩ = (.ok ys, r)) :
    ∃ e results values, registry.entries[id]? = some e ∧
      e.op.numResults args.length ≠ 0 ∧
      e.op.forward 0 0 (argumentWires tape args) (List.replicate (e.op.numResults args.length)
        ⟨#[Base.zero], (argumentWires tape args).any Wire.isVariable⟩) = .ok (some results) ∧
      constantTerms results = .ok values ∧
      (((argumentWires tape args).any Wire.isVariable = true ∧
        r = ⟨some ((tape.embedAll args).2.pushCall e (tape.embedAll args).1 values).2, registry⟩ ∧
        ys = recordedResults tape.id
          ((tape.embedAll args).2.pushCall e (tape.embedAll args).1 values).1 results values) ∨
      (((argumentWires tape args).any Wire.isVariable && results.any Wire.isVariable) = false ∧
        r = ⟨some tape, registry⟩ ∧ ys = values.map parameter)) := by
  have wires : args.map (fun x => Wire.mk #[x.value]
      ((⟨some tape, registry⟩ : Recorder B).indexOf? x).isSome) = argumentWires tape args := rfl
  unfold call at done
  rw [run_bind_ok (run_get _), run_lift_bind_eq_ok] at done
  obtain ⟨e, entry, done⟩ := done
  by_cases none : e.op.numResults args.length = 0
  · simp only [if_pos none] at done
    cases done
  simp only [if_neg none, wires] at done
  rw [run_lift_bind_eq_ok] at done
  obtain ⟨answer, forward, done⟩ := done
  cases answer with
  | none => cases done
  | some results =>
    simp only at done
    obtain ⟨values, constants, done⟩ := run_lift_bind_eq_ok.1 done
    refine ⟨e, results, values, Registry.entry_eq_ok.1 entry, none, forward, constants, ?_⟩
    by_cases recorded : ((argumentWires tape args).any Wire.isVariable &&
        results.any Wire.isVariable) = true
    · rw [if_pos recorded] at done
      obtain ⟨answer, state⟩ := Prod.mk.inj done
      exact .inl ⟨(Bool.and_eq_true _ _ ▸ recorded).1, state.symm, (Except.ok.inj answer).symm⟩
    · rw [if_neg recorded] at done
      obtain ⟨answer, state⟩ := Prod.mk.inj done
      exact .inr ⟨by simpa using recorded, state.symm, (Except.ok.inj answer).symm⟩

section Results

variable {results : List (Wire B)} {values : List B} {id first i : Nat}

omit [Scalar F] [Base B F] in
theorem length_recordedResults (count : values.length = results.length) :
    (recordedResults id first results values).length = values.length := by
  simp [recordedResults, count]

omit [Scalar F] [Base B F] in
theorem getElem?_recordedResults (inside : i < values.length)
    (inside' : i < results.length) : (recordedResults id first results values)[i]? =
      some (if results[i].isVariable then ⟨values[i], .onTape id (first + i)⟩
        else parameter values[i]) := by
  have zipped : (results.zip values)[i]? = some (results[i], values[i]) := by
    rw [List.getElem?_eq_getElem (by simp [inside, inside']), List.getElem_zip]
  rw [recordedResults, List.getElem?_map, List.getElem?_zipIdx, zipped]
  simp

omit [Scalar F] [Base B F] in
theorem recordedResults_of_flags (count : values.length = results.length)
    (flags : ∀ y ∈ results, y.isVariable = true) (inside : i < values.length) :
    (recordedResults id first results values)[i]? =
      some ⟨values[i], .onTape id (first + i)⟩ := by
  rw [getElem?_recordedResults inside (count ▸ inside), if_pos (flags _ (List.getElem_mem _))]

omit [Scalar F] [Base B F] in
theorem map_value_recordedResults (count : values.length = results.length) :
    (recordedResults id first results values).map value = values := by
  refine List.ext_getElem? fun i => ?_
  by_cases bound : i < values.length
  · rw [List.getElem?_map, getElem?_recordedResults bound (count ▸ bound),
      List.getElem?_eq_getElem bound]
    split <;> rfl
  · have outside := Nat.le_of_not_lt bound
    rw [List.getElem?_eq_none outside, List.getElem?_eq_none]
    rwa [List.length_map, length_recordedResults count]

private theorem recordedResults_means {next : Tape B} {c : Nat → B} {us : List B}
    (count : values.length = results.length) (flags : ∀ y ∈ results, y.isVariable = true)
    (lengths : us.length = values.length) :
    List.Forall₂ (next.Means (Tape.extendBy first c us))
      (recordedResults next.id first results values) us := by
  rw [List.forall₂_iff_get]
  refine ⟨(length_recordedResults count).trans lengths.symm, fun i inside' inside => ?_⟩
  have there : (recordedResults next.id first results values)[i]? = _ :=
    recordedResults_of_flags count flags (lengths ▸ inside)
  rw [List.getElem?_eq_getElem inside'] at there
  rw [List.get_eq_getElem, Option.some.inj there]
  exact (Tape.means_of_some (indexOn_variable _ next.id (first + i))).2
    (Tape.extendBy_add (List.getElem?_eq_getElem inside))

end Results

/-- What writing a call to the tape does. -/
private theorem recorded_advances {id : Nat} {e : Registered B} {args : List (Tracked B)}
    {results : List (Wire B)} {values : List B} (consistent : Consistent registry tape)
    (knows : ∀ x ∈ args, tape.Knows x) (found : registry.entries[id]? = some e)
    (count : values.length = results.length) (nonempty : values ≠ [])
    (fits : e.op.numResults args.length = values.length) :
    ∃ first next, (tape.embedAll args).2.pushCall e (tape.embedAll args).1 values = (first, next) ∧
      Advances registry tape ⟨some next, registry⟩ next
        (recordedResults tape.id first results values) ∧
      (∀ (place : Nat) a, next.atomics[place]? = some a → a = e ∨ tape.atomics[place]? = some a) ∧
      ∀ b : BuiltIn, e.op = b.atomic → (∀ y ∈ results, y.isVariable = true) →
        ∀ x c vs us, tape.Solves x c → List.Forall₂ (tape.Means c) args vs →
          b.step vs vs = .ok us → us.length = values.length →
          ∃ c', next.Solves x c' ∧ (∀ i < tape.size, c' i = c i) ∧
            List.Forall₂ (next.Means c') (recordedResults tape.id first results values) us := by
  obtain ⟨js, mid, embedded, grown, standing, solved⟩ :=
    Tape.embedAll_grown consistent.wellFormed knows
  have unique : ∀ (place : Nat) a, mid.atomics[place]? = some a → a.id = e.id → a = e := by
    intro place a there same
    have known := consistent.table place a (grown.atomics ▸ there)
    rw [same, consistent.numbered id e found] at known
    exact Option.some.inj (known.symm.trans found)
  obtain ⟨next, pushed, extends_, wf, only, kept, solved'⟩ := Tape.call_grown grown.wellFormed
    unique (Tape.lt_size_of_standing standing) nonempty (by rw [standing.length_eq, fits])
  have same : next.id = tape.id := (grown.extends_.trans extends_).id
  have table : ∀ (place : Nat) a, next.atomics[place]? = some a →
      a = e ∨ tape.atomics[place]? = some a := fun place a there =>
    (only place a there).imp_right (grown.atomics ▸ ·)
  refine ⟨mid.size, next, by rw [embedded, pushed], ⟨rfl, ⟨consistent.numbered, wf, ?_⟩,
    grown.extends_.trans extends_, .refl registry, ?_⟩, table, ?_⟩
  · intro place a there
    rcases table place a there with rfl | old
    · rw [consistent.numbered id a found]
      exact found
    · exact consistent.table place a old
  · intro y member
    obtain ⟨i, there⟩ := List.getElem?_of_mem member
    have bound : i < values.length :=
      (length_recordedResults count) ▸ (List.getElem?_eq_some_iff.1 there).1
    rw [getElem?_recordedResults bound (count ▸ bound)] at there
    obtain rfl := Option.some.inj there
    split
    · intro j here
      rw [same, indexOn_variable] at here
      obtain rfl := Option.some.inj here
      exact kept i _ (List.getElem?_eq_getElem bound)
    · exact Tape.knows_parameter next _
  · intro b isBuiltIn flags x c vs us solves means result lengths
    obtain ⟨c₁, solves₁, agrees₁, values₁⟩ := solved x c vs solves means
    have bound := grown.extends_.size_le
    rw [← values₁] at result
    refine ⟨_, solved' b isBuiltIn x c₁ us solves₁ result, fun i before => ?_, ?_⟩
    · rw [Tape.extendBy_of_lt (by omega), agrees₁ i before]
    · rw [← same]
      exact recordedResults_means count flags lengths

omit [Scalar F] in
private theorem parameters_mean {b : BuiltIn} {args : List (Tracked B)} {values vs us : List B}
    {c : Nat → B} (stepped : b.step (args.map value) (args.map value) = .ok values)
    (none : (argumentWires tape args).any Wire.isVariable = false)
    (means : List.Forall₂ (tape.Means c) args vs) (result : b.step vs vs = .ok us) :
    List.Forall₂ (tape.Means c) (values.map parameter) us := by
  have away : ∀ x ∈ args, x.indexOn tape.id = Option.none := by
    intro x member
    unfold argumentWires at none
    rw [List.any_map, List.any_eq_false] at none
    simpa using none x member
  have meant : args.map value = vs := by
    rw [← List.forall₂_eq_eq_eq, List.forall₂_map_left_iff]
    refine ((List.forall₂_and_left _ _).2 ⟨away, means⟩).imp fun x v both => ?_
    exact (Tape.means_of_none both.1).1 both.2
  rw [← meant, stepped] at result
  obtain rfl := Except.ok.inj result
  rw [List.forall₂_map_left_iff, List.forall₂_same]
  exact fun v _ => (Tape.means_of_none rfl).2 rfl

/-- What a call does.  Where the atomic is a built-in, its results mean what the built-in gives on
the meanings of its arguments. -/
theorem call_advances {id : Nat} {args ys : List (Tracked B)}
    (consistent : Consistent registry tape) (knows : ∀ x ∈ args, tape.Knows x)
    (done : call id args ⟨some tape, registry⟩ = (.ok ys, r)) :
    ∃ e next, registry.entries[id]? = some e ∧ Advances registry tape r next ys ∧
      r.registry = registry ∧
      (∀ (place : Nat) a, next.atomics[place]? = some a → a = e ∨ tape.atomics[place]? = some a) ∧
      ∀ b : BuiltIn, e.op = b.atomic →
        b.step (args.map value) (args.map value) = .ok (ys.map value) ∧
        ∀ x c vs us, tape.Solves x c → List.Forall₂ (tape.Means c) args vs →
          b.step vs vs = .ok us →
          ∃ c', next.Solves x c' ∧ (∀ i < tape.size, c' i = c i) ∧
            List.Forall₂ (next.Means c') ys us := by
  obtain ⟨e, results, values, found, positive, forward, constants, outcome⟩ := call_cases done
  have count : values.length = results.length := length_of_mapM constants
  have count' : results.length = e.op.numResults args.length := by
    simpa using Atomic.length_forward forward
  have builtIn : ∀ b : BuiltIn, e.op = b.atomic →
      b.step (args.map value) (args.map value) = .ok values ∧
        ∀ y ∈ results, y.isVariable = (argumentWires tape args).any Wire.isVariable := by
    intro b same
    have counted : e.op.numResults args.length = b.count := by rw [same, BuiltIn.numResults_atomic]
    exact builtIn_recorded counted size_values (coeffs_values args _) (same ▸ forward) constants
  have nonempty : results ≠ [] := by
    rintro rfl
    exact positive count'.symm
  rcases outcome with ⟨variable_, rfl, rfl⟩ | ⟨constant, rfl, rfl⟩
  · have nonempty' : values ≠ [] := by
      rw [← List.length_pos_iff, count]
      exact List.length_pos_iff.2 nonempty
    obtain ⟨start, next, pushed, advances, table, means⟩ := recorded_advances consistent knows found
      count nonempty' (count'.symm.trans count.symm)
    rw [pushed]
    refine ⟨e, next, found, advances, rfl, table, fun b isBuiltIn => ?_⟩
    obtain ⟨stepped, flags⟩ := builtIn b isBuiltIn
    have flags : ∀ y ∈ results, y.isVariable = true := fun y member =>
      (flags y member).trans variable_
    refine ⟨stepped.trans (congrArg Except.ok (map_value_recordedResults count).symm), ?_⟩
    intro x c vs us solves meant result
    refine means b isBuiltIn flags x c vs us solves meant result ?_
    rw [BuiltIn.length_step result, BuiltIn.length_step stepped]
  · refine ⟨e, tape, found, ⟨rfl, consistent, .refl tape, .refl registry, ?_⟩, rfl,
      fun _ _ there => .inr there, fun b isBuiltIn => ?_⟩
    · intro y member
      obtain ⟨v, _, rfl⟩ := List.mem_map.1 member
      exact Tape.knows_parameter tape v
    · obtain ⟨stepped, flags⟩ := builtIn b isBuiltIn
      have plain : (values.map parameter).map value = values := by
        rw [List.map_map]
        exact List.map_id values
      -- the results are parameters only because no argument is a variable
      have none : (argumentWires tape args).any Wire.isVariable = false := by
        obtain ⟨y, ys, shape⟩ := List.exists_cons_of_ne_nil nonempty
        have flag := flags y (by simp [shape])
        by_contra some
        rw [Bool.not_eq_false] at some
        rw [some, shape, List.any_cons, flag, some] at constant
        cases constant
      exact ⟨by rw [plain, stepped], fun x c vs us solves means result =>
        ⟨c, solves, fun _ _ => rfl, parameters_mean stepped none means result⟩⟩

end Tracked

end TaylorTape
