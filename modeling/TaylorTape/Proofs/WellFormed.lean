import TaylorTape.Proofs.Calls
import TaylorTape.Tape.Basic

/-!
The invariant of tapes.

Inputs come first, an entry reads smaller positions only, and a call is followed by the entries of
its further results.  So each variable is produced by exactly one entry, which is its own or the
call that it is a result of, and by the time an entry is reached all that it reads has been
produced.
-/

set_option autoImplicit false
set_option relaxedAutoImplicit false

namespace TaylorTape

variable {B : Type}

/-- The number of variables that an entry produces, its own first. -/
def Entry.span : Entry → Nat
  | .call _ _ numResults => numResults
  | .result _ => 0
  | .input | .const | .unary _ _ | .binary _ _ _ => 1

namespace Tape

theorem entry_eq_ok {tape : Tape B} {i : Nat} {e : Entry} :
    tape.entry i = .ok e ↔ ∃ v, tape.nodes[i]? = some ⟨e, v⟩ := by
  simp only [entry, bind_eq_ok, pure_eq_ok, fetch_eq_ok_iff]
  constructor
  · rintro ⟨⟨_, v⟩, found, rfl⟩
    exact ⟨v, found⟩
  · rintro ⟨v, found⟩
    exact ⟨_, found, rfl⟩

theorem entry_of_node {tape : Tape B} {i : Nat} {node : Node B} (found : tape.nodes[i]? = some node) :
    tape.entry i = .ok node.entry :=
  entry_eq_ok.2 ⟨node.value, found⟩

theorem lt_size_of_entry {tape : Tape B} {i : Nat} {e : Entry} (found : tape.entry i = .ok e) :
    i < tape.size := by
  obtain ⟨v, found⟩ := entry_eq_ok.1 found
  exact (Array.getElem?_eq_some_iff.1 found).1

theorem exists_node {tape : Tape B} {i : Nat} (inside : i < tape.size) :
    ∃ node, tape.nodes[i]? = some node :=
  ⟨_, Array.getElem?_eq_getElem inside⟩

theorem exists_entry {tape : Tape B} {i : Nat} (inside : i < tape.size) :
    ∃ e, tape.entry i = .ok e := by
  obtain ⟨node, found⟩ := exists_node inside
  exact ⟨_, entry_of_node found⟩

/-- What every recorded tape keeps. -/
structure WellFormed (tape : Tape B) : Prop where
  /-- There are as many entries as inputs at least. -/
  inputs_le : tape.numInputs ≤ tape.size
  /-- The inputs are exactly the first entries. -/
  inputs : ∀ i e, tape.entry i = .ok e → (e = .input ↔ i < tape.numInputs)
  /-- An entry reads smaller positions. -/
  operands : ∀ i e, tape.entry i = .ok e → ∀ a ∈ e.operands, a < i
  /-- A call names an atomic of the table, which has that many results. -/
  atomics : ∀ i place args n, tape.entry i = .ok (.call place args n) →
    ∃ r, tape.atomics[place]? = some r ∧ r.op.numResults args.length = n
  /-- A call has a result, and its further results follow it. -/
  calls : ∀ i place args n, tape.entry i = .ok (.call place args n) →
    0 < n ∧ ∀ j, i < j → j < i + n → tape.entry j = .ok (.result i)
  /-- A further result stands behind its call, within the number of its results. -/
  results : ∀ j owner, tape.entry j = .ok (.result owner) →
    ∃ place args n, tape.entry owner = .ok (.call place args n) ∧ owner < j ∧ j < owner + n

/-- Every call on the tape is of a built-in. -/
def OnlyBuiltIns {F : Type} [Scalar F] [Base B F] (tape : Tape B) : Prop :=
  ∀ i place args n, tape.entry i = .ok (.call place args n) →
    ∃ r, tape.atomics[place]? = some r ∧ r.IsBuiltIn

/-- A variable is produced by an entry in front of a position. -/
def Produced (tape : Tape B) (i v : Nat) : Prop :=
  ∃ j e, j < i ∧ tape.entry j = .ok e ∧ j ≤ v ∧ v < j + e.span

namespace WellFormed

variable {tape : Tape B} {i v : Nat} {e : Entry}

theorem span_le (wf : tape.WellFormed) (found : tape.entry i = .ok e) : i + e.span ≤ tape.size := by
  have inside := lt_size_of_entry found
  cases e with
  | call place args n =>
    obtain ⟨positive, further⟩ := wf.calls i place args n found
    show i + n ≤ tape.size
    by_cases one : n = 1
    · omega
    · have := lt_size_of_entry (further (i + n - 1) (by omega) (by omega))
      omega
  | result owner =>
    show i + 0 ≤ tape.size
    omega
  | input | const | unary op a | binary op a b =>
    show i + 1 ≤ tape.size
    omega

theorem produced_of_lt (wf : tape.WellFormed) (inside : i ≤ tape.size) (before : v < i) :
    tape.Produced i v := by
  obtain ⟨e, found⟩ := exists_entry (show v < tape.size by omega)
  cases e with
  | call place args n =>
    have positive := (wf.calls v place args n found).1
    refine ⟨v, _, before, found, le_rfl, ?_⟩
    show v < v + n
    omega
  | result owner =>
    obtain ⟨place, args, n, call, low, high⟩ := wf.results v owner found
    exact ⟨owner, _, by omega, call, by omega, high⟩
  | input | const | unary op a | binary op a b =>
    exact ⟨v, _, before, found, le_rfl, Nat.lt_succ_self v⟩

/-- Induction along a tape: if what holds of the operands of an entry holds of all that the entry
produces, it holds of every variable. -/
theorem induction (wf : tape.WellFormed) {P : Nat → Prop}
    (step : ∀ i e, tape.entry i = .ok e → (∀ a ∈ e.operands, P a) →
      ∀ v, i ≤ v → v < i + e.span → P v) :
    ∀ v < tape.size, P v := by
  intro v
  induction v using Nat.strongRecOn with
  | ind v smaller =>
    intro inside
    obtain ⟨i, e, _, found, low, high⟩ := wf.produced_of_lt inside (Nat.lt_succ_self v)
    refine step i e found (fun a reads => ?_) v low high
    -- the entry itself may stand in front of `v`, its operands do in any case
    have before := wf.operands i e found a reads
    exact smaller a (by omega) (by omega)

theorem lt_of_produced (wf : tape.WellFormed) (made : tape.Produced i v) : v < tape.size := by
  obtain ⟨j, e, _, found, _, high⟩ := made
  have := wf.span_le found
  omega

theorem produced_operand (wf : tape.WellFormed) (found : tape.entry i = .ok e) {a : Nat}
    (reads : a ∈ e.operands) : tape.Produced i a :=
  wf.produced_of_lt (le_of_lt (lt_size_of_entry found)) (wf.operands i e found a reads)

theorem operand_lt (wf : tape.WellFormed) (found : tape.entry i = .ok e) {a : Nat}
    (reads : a ∈ e.operands) : a < tape.size :=
  lt_trans (wf.operands i e found a reads) (lt_size_of_entry found)

/-- No variable is produced twice. -/
theorem not_produced (wf : tape.WellFormed) (found : tape.entry i = .ok e) (low : i ≤ v)
    (high : v < i + e.span) : ¬ tape.Produced i v := by
  rintro ⟨j, e', before, found', low', high'⟩
  cases e' with
  | call place args n =>
    have further := (wf.calls j place args n found').2 i before (by
      have : v < j + n := high'
      omega)
    obtain rfl : e = .result j := Except.ok.inj (found.symm.trans further)
    have : v < i + 0 := high
    omega
  | result owner =>
    have : v < j + 0 := high'
    omega
  | input | const | unary op a | binary op a b =>
    have : v < j + 1 := high'
    omega

end WellFormed

theorem produced_succ {tape : Tape B} {i v : Nat} {e : Entry} (found : tape.entry i = .ok e) :
    tape.Produced (i + 1) v ↔ tape.Produced i v ∨ (i ≤ v ∧ v < i + e.span) := by
  constructor
  · rintro ⟨j, e', before, found', low, high⟩
    by_cases same : j = i
    · subst same
      obtain rfl : e = e' := Except.ok.inj (found.symm.trans found')
      exact .inr ⟨low, high⟩
    · exact .inl ⟨j, e', by omega, found', low, high⟩
  · rintro (⟨j, e', before, found', low, high⟩ | ⟨low, high⟩)
    · exact ⟨j, e', by omega, found', low, high⟩
    · exact ⟨i, e, Nat.lt_succ_self i, found, low, high⟩

theorem not_produced_zero (tape : Tape B) (v : Nat) : ¬ tape.Produced 0 v := by
  rintro ⟨j, _, before, _⟩
  omega

end Tape

end TaylorTape
