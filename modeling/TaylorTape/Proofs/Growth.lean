import TaylorTape.Proofs.Sweep

/-!
How a tape grows while it is recorded.

A recording only ever adds entries at the end: a parameter, an elementary operation on what is
there already, or a call with the entries of its further results.  Each of these keeps the
invariant of tapes.  A tape is solved at a point by the values of its variables there, and a
solution of a tape extends to what is added by the values that the new entries yield.
-/

set_option autoImplicit false
set_option relaxedAutoImplicit false

namespace TaylorTape

namespace Tape

section Structure

variable {B : Type} {tape next : Tape B}

/-- The tape begins with the entries and atomics of another one. -/
structure Extends (tape next : Tape B) : Prop where
  id : next.id = tape.id
  inputs : next.numInputs = tape.numInputs
  nodes : ∀ (i : Nat) node, tape.nodes[i]? = some node → next.nodes[i]? = some node
  atomics : ∀ (i : Nat) r, tape.atomics[i]? = some r → next.atomics[i]? = some r

namespace Extends

theorem refl (tape : Tape B) : tape.Extends tape :=
  ⟨rfl, rfl, fun _ _ found => found, fun _ _ found => found⟩

theorem trans {last : Tape B} (first : tape.Extends next) (second : next.Extends last) :
    tape.Extends last where
  id := second.id.trans first.id
  inputs := second.inputs.trans first.inputs
  nodes i node found := second.nodes i node (first.nodes i node found)
  atomics i r found := second.atomics i r (first.atomics i r found)

theorem entry (extends_ : tape.Extends next) {i : Nat} {e : Entry} (found : tape.entry i = .ok e) :
    next.entry i = .ok e := by
  obtain ⟨v, at_i⟩ := entry_eq_ok.1 found
  exact entry_of_node (extends_.nodes i _ at_i)

theorem size_le (extends_ : tape.Extends next) : tape.size ≤ next.size := by
  by_contra shorter
  obtain ⟨node, found⟩ := exists_node (show next.size < tape.size by omega)
  exact absurd (lt_size_of_entry (entry_of_node (extends_.nodes _ node found))) (lt_irrefl _)

end Extends

/-- Some entries added at the end. -/
def append (tape : Tape B) (nodes : List (Node B)) : Tape B :=
  { tape with nodes := tape.nodes ++ nodes.toArray }

theorem push_eq (tape : Tape B) (e : Entry) (v : B) :
    tape.push e v = (tape.size, tape.append [⟨e, v⟩]) := rfl

@[simp] theorem size_append (tape : Tape B) (nodes : List (Node B)) :
    (tape.append nodes).size = tape.size + nodes.length := by
  simp [append, size]

theorem node_append (tape : Tape B) (nodes : List (Node B)) (i : Nat) :
    (tape.append nodes).nodes[i]? =
      if i < tape.size then tape.nodes[i]? else nodes[i - tape.size]? := by
  simp only [append, size, Array.getElem?_append, List.getElem?_toArray]
  rfl

theorem extends_append (tape : Tape B) (nodes : List (Node B)) :
    tape.Extends (tape.append nodes) where
  id := rfl
  inputs := rfl
  nodes i node found := by
    rw [node_append, if_pos (lt_size_of_entry (entry_of_node found)), found]
  atomics _ _ found := found

theorem entry_append {nodes : List (Node B)} {i : Nat} {e : Entry} :
    (tape.append nodes).entry i = .ok e ↔
      tape.entry i = .ok e ∨ ∃ k v, i = tape.size + k ∧ nodes[k]? = some ⟨e, v⟩ := by
  constructor
  · intro found
    obtain ⟨v, at_i⟩ := entry_eq_ok.1 found
    rw [node_append] at at_i
    split at at_i
    · exact .inl (entry_of_node at_i)
    · exact .inr ⟨i - tape.size, v, by omega, at_i⟩
  · rintro (found | ⟨k, v, rfl, found⟩)
    · exact (extends_append tape nodes).entry found
    · refine entry_eq_ok.2 ⟨v, ?_⟩
      rw [node_append, if_neg (by omega), Nat.add_sub_cancel_left]
      exact found

/-- The entries that a recording adds at once. -/
inductive Group (tape : Tape B) : List (Node B) → Prop where
  | const (v : B) : Group tape [⟨.const, v⟩]
  | unary (op : UnaryOp) (a : Nat) (v : B) (arg : a < tape.size) : Group tape [⟨.unary op a, v⟩]
  | binary (op : BinaryOp) (a b : Nat) (v : B) (lhs : a < tape.size) (rhs : b < tape.size) :
    Group tape [⟨.binary op a b, v⟩]
  | call (place : Nat) (args : List Nat) (r : Registered B) (first : B) (rest : List B)
    (operands : ∀ a ∈ args, a < tape.size) (found : tape.atomics[place]? = some r)
    (count : r.op.numResults args.length = rest.length + 1) :
    Group tape (⟨.call place args (rest.length + 1), first⟩ ::
      rest.map fun v => ⟨.result tape.size, v⟩)

namespace Group

variable {nodes : List (Node B)}

private theorem head (group : tape.Group nodes) :
    ∃ e v rest, nodes = ⟨e, v⟩ :: rest ∧ e.span = nodes.length ∧ e ≠ .input ∧
      (∀ a ∈ e.operands, a < tape.size) := by
  cases group with
  | const v => exact ⟨_, _, _, rfl, rfl, by simp, by simp [Entry.operands]⟩
  | unary op a v arg => exact ⟨_, _, _, rfl, rfl, by simp, by simpa [Entry.operands]⟩
  | binary op a b v lhs rhs =>
    exact ⟨_, _, _, rfl, rfl, by simp, by simpa [Entry.operands] using ⟨lhs, rhs⟩⟩
  | call place args r first rest operands found count =>
    exact ⟨_, _, _, rfl, by simp [Entry.span], by simp, operands⟩

private theorem later (group : tape.Group nodes) {k : Nat} {e : Entry} {v : B}
    (found : nodes[k + 1]? = some ⟨e, v⟩) :
    e = .result tape.size ∧ ∃ place args, nodes[0]?.map Node.entry =
      some (.call place args nodes.length) := by
  cases group with
  | const | unary | binary => simp at found
  | call place args r first rest operands there count =>
    rw [List.getElem?_cons_succ, List.getElem?_map, Option.map_eq_some_iff] at found
    obtain ⟨w, _, same⟩ := found
    cases same
    exact ⟨rfl, place, args, by simp⟩

end Group

/-- A tape that grows by a group keeps its invariant. -/
theorem WellFormed.append {nodes : List (Node B)} (wf : tape.WellFormed)
    (group : tape.Group nodes) : (tape.append nodes).WellFormed := by
  obtain ⟨head, value, rest, shape, whole, notInput, below⟩ := group.head
  have extends_ := extends_append tape nodes
  have first : nodes[0]? = some ⟨head, value⟩ := by rw [shape]; rfl
  -- a new entry is the head of the group or a further result of it
  have cases_new : ∀ k e v, nodes[k]? = some ⟨e, v⟩ →
      (k = 0 ∧ e = head) ∨ (0 < k ∧ e = .result tape.size) := by
    intro k e v found
    cases k with
    | zero =>
      obtain rfl : head = e := by simpa [first] using congrArg (Option.map Node.entry) found
      exact .inl ⟨rfl, rfl⟩
    | succ k => exact .inr ⟨Nat.succ_pos k, (group.later found).1⟩
  constructor
  case inputs_le =>
    exact le_trans wf.inputs_le extends_.size_le
  case inputs =>
    intro i e found
    rcases entry_append.1 found with old | ⟨k, v, rfl, new⟩
    · exact wf.inputs i e old
    · have late : ¬ tape.size + k < tape.numInputs := by
        have := wf.inputs_le
        omega
      refine iff_of_false ?_ late
      rcases cases_new k e v new with ⟨_, rfl⟩ | ⟨_, rfl⟩
      · exact notInput
      · exact nofun
  case operands =>
    intro i e found a reads
    rcases entry_append.1 found with old | ⟨k, v, rfl, new⟩
    · exact wf.operands i e old a reads
    · rcases cases_new k e v new with ⟨_, rfl⟩ | ⟨_, rfl⟩
      · exact lt_of_lt_of_le (below a reads) (Nat.le_add_right _ _)
      · cases reads
  case atomics =>
    intro i place args n found
    rcases entry_append.1 found with old | ⟨k, v, rfl, new⟩
    · exact wf.atomics i place args n old
    · rcases cases_new k _ v new with ⟨_, rfl⟩ | ⟨_, result⟩
      · cases group with
        | const | unary | binary => cases shape
        | call place' args' r first' rest' operands there count =>
          cases shape
          exact ⟨r, there, count⟩
      · cases result
  case calls =>
    intro i place args n found
    rcases entry_append.1 found with old | ⟨k, v, rfl, new⟩
    · obtain ⟨positive, further⟩ := wf.calls i place args n old
      exact ⟨positive, fun j after before => extends_.entry (further j after before)⟩
    · rcases cases_new k _ v new with ⟨rfl, rfl⟩ | ⟨_, result⟩
      · have whole' : n = nodes.length := whole
        refine ⟨by rw [whole', shape]; simp, fun j after before => ?_⟩
        have inside : j - tape.size < nodes.length := by omega
        have there := List.getElem?_eq_getElem inside
        refine entry_append.2 (.inr ⟨j - tape.size, nodes[j - tape.size].value, by omega, ?_⟩)
        rcases cases_new _ _ _ there with ⟨zero, _⟩ | ⟨_, result⟩
        · omega
        · rw [there, Nat.add_zero, ← result]
          rfl
      · cases result
  case results =>
    intro j owner found
    rcases entry_append.1 found with old | ⟨k, v, rfl, new⟩
    · obtain ⟨place, args, n, call, low, high⟩ := wf.results j owner old
      exact ⟨place, args, n, extends_.entry call, low, high⟩
    · have inside : k < nodes.length := (List.getElem?_eq_some_iff.1 new).1
      cases k with
      | zero =>
        cases group with
        | const | unary | binary | call => cases new
      | succ k =>
        obtain ⟨same, place, args, call⟩ := group.later new
        cases same
        refine ⟨place, args, nodes.length, ?_, by omega, by omega⟩
        rw [first] at call
        obtain rfl : head = .call place args nodes.length := by simpa using call
        exact entry_append.2 (.inr ⟨0, value, rfl, first⟩)

end Structure

section Solutions

variable {B F : Type} [Scalar F] [Base B F] {tape next : Tape B} {x : List B} {c : Nat → B}

/-- The values of the variables at a point: every entry holds of them at order zero. -/
def Solves (tape : Tape B) (x : List B) (c : Nat → B) : Prop :=
  ∀ i < tape.size, tape.Holds 0 x (fun v _ => c v) i

private theorem Yields.extends {q : Nat} {seed xs : List B} {c : Nat → Nat → B} {i : Nat}
    (wf : tape.WellFormed) (extends_ : tape.Extends next)
    (yields : tape.Yields q seed c i xs) : next.Yields q seed c i xs := by
  obtain ⟨⟨e, value⟩, at_i, yields⟩ := yields
  refine ⟨⟨e, value⟩, extends_.nodes i _ at_i, ?_⟩
  cases e with
  | input | const | unary | binary | result => exact yields
  | call place args n =>
    intro r there builtIn
    obtain ⟨r', there', _⟩ := wf.atomics i place args n (entry_of_node at_i)
    obtain rfl : r' = r := Option.some.inj ((extends_.atomics place r' there').symm.trans there)
    exact yields r' there' builtIn

private theorem Holds.extends {q : Nat} {seed : List B} {c : Nat → Nat → B} {i : Nat}
    (wf : tape.WellFormed) (extends_ : tape.Extends next) (holds : tape.Holds q seed c i) :
    next.Holds q seed c i := by
  obtain ⟨e, found, yields⟩ := holds
  exact ⟨e, extends_.entry found, yields.extends wf extends_⟩

/-- Some values, and behind them some more. -/
def extendBy (n : Nat) (c : Nat → B) (vs : List B) (v : Nat) : B :=
  if v < n then c v else (vs[v - n]?).getD Base.zero

theorem extendBy_of_lt {n v : Nat} (before : v < n) (vs : List B) : extendBy n c vs v = c v :=
  if_pos before

theorem extendBy_add {n k : Nat} {vs : List B} {y : B} (found : vs[k]? = some y) :
    extendBy n c vs (n + k) = y := by
  rw [extendBy, if_neg (by omega), Nat.add_sub_cancel_left, found]
  rfl

private theorem map_extendBy (n : Nat) (c : Nat → B) (vs : List B) :
    (List.range' n vs.length).map (extendBy n c vs) = vs := by
  refine List.ext_getElem (by simp) fun k _ inside => ?_
  rw [List.getElem_map, List.getElem_range', Nat.one_mul]
  exact extendBy_add (List.getElem?_eq_getElem inside)

theorem Solves.extends (wf : tape.WellFormed) (extends_ : tape.Extends next)
    (size : next.size = tape.size) (solves : tape.Solves x c) : next.Solves x c :=
  fun i inside => (solves i (size ▸ inside)).extends wf extends_

/-- A solution extends to a group of new entries by the values that its first entry yields. -/
theorem Solves.append {nodes : List (Node B)} (wf : tape.WellFormed) (group : tape.Group nodes)
    (solves : tape.Solves x c) {vs : List B} (count : vs.length = nodes.length)
    (yields : (tape.append nodes).Yields 0 x (fun v _ => extendBy tape.size c vs v) tape.size vs) :
    (tape.append nodes).Solves x (extendBy tape.size c vs) := by
  have extends_ := extends_append tape nodes
  intro i inside
  by_cases old : i < tape.size
  · have holds : tape.Holds 0 x (fun v _ => extendBy tape.size c vs v) i :=
      (solves i old).congr wf fun v made k _ => (extendBy_of_lt (wf.lt_of_produced made) vs).symm
    exact holds.extends wf extends_
  · obtain ⟨k, rfl⟩ := Nat.exists_eq_add_of_le (Nat.le_of_not_lt old)
    rw [size_append] at inside
    have there := List.getElem?_eq_getElem (l := nodes) (i := k) (by omega)
    cases k with
    | zero =>
      obtain ⟨head, value, rest, shape, whole, _⟩ := group.head
      refine ⟨head, entry_append.2 (.inr ⟨0, value, rfl, by rw [shape]; rfl⟩), ?_⟩
      rw [whole, ← count, Nat.add_zero, map_extendBy]
      exact yields
    | succ k =>
      obtain ⟨result, _⟩ := group.later there
      have there' : nodes[k + 1]? = some ⟨.result tape.size, nodes[k + 1].value⟩ := by
        rw [there, ← result]
        rfl
      refine ⟨.result tape.size, entry_append.2 (.inr ⟨k + 1, _, rfl, there'⟩), ?_⟩
      refine ⟨⟨.result tape.size, nodes[k + 1].value⟩, ?_, rfl⟩
      rw [node_append, if_neg (by omega), Nat.add_sub_cancel_left, there']

@[simp] theorem next_zero_unary (op : UnaryOp) (f g : Nat → B) :
    op.next (.of f 1) (.of g 0) = .ok (op.eval (f 0)) := by
  unfold UnaryOp.next
  rw [if_pos (Series.size_of g 0), Series.coeff_of (Nat.zero_lt_one)]
  rfl

@[simp] theorem next_zero_binary (op : BinaryOp) (f f' g : Nat → B) :
    op.next (.of f 1) (.of f' 1) (.of g 0) = op.eval (f 0) (f' 0) := by
  unfold BinaryOp.next
  rw [if_pos (Series.size_of g 0), Series.coeff_of (Nat.zero_lt_one),
    Series.coeff_of (Nat.zero_lt_one)]
  rfl

section Entries

variable {i : Nat}

namespace Solves

theorem unary {op : UnaryOp} {a : Nat} (solves : tape.Solves x c)
    (found : tape.entry i = .ok (.unary op a)) : c i = op.eval (c a) := by
  have next := (solves i (lt_size_of_entry found)).next_unary found
  rw [next_zero_unary] at next
  exact (Except.ok.inj next).symm

theorem binary {op : BinaryOp} {a b : Nat} (solves : tape.Solves x c)
    (found : tape.entry i = .ok (.binary op a b)) : op.eval (c a) (c b) = .ok (c i) := by
  have next := (solves i (lt_size_of_entry found)).next_binary found
  rwa [next_zero_binary] at next

theorem call {place n : Nat} {args : List Nat} {r : Registered B} (solves : tape.Solves x c)
    (found : tape.entry i = .ok (.call place args n)) (there : tape.atomics[place]? = some r)
    (builtIn : r.IsBuiltIn) :
    ∃ b : BuiltIn, r.op = b.atomic ∧ b.step (args.map c) (args.map c) =
      .ok ((List.range' i n).map c) :=
  (solves i (lt_size_of_entry found)).step found there builtIn

end Solves

/-- Coefficients that hold of every entry solve the tape at order zero. -/
theorem solves_of_holds {q : Nat} (seed : Nat → List B) {c : Nat → Nat → B} (wf : tape.WellFormed)
    (positive : 0 < q) (holds : ∀ k < q, ∀ i < tape.size, tape.Holds k (seed k) c i) :
    tape.Solves (seed 0) (c · 0) := by
  intro i inside
  refine (holds 0 positive i inside).congr wf fun v _ k low => ?_
  rw [Nat.le_zero.1 low]

end Entries

end Solutions

end Tape

end TaylorTape
