import Mathlib.Logic.Relation
import TaylorTape.Proofs.WellFormed
import TaylorTape.IndexSet

/-!
What a variable depends on, read off the tape.

An entry links each of its results to operands: a unary and a binary operation to all of them, and a
call as a relation between its arguments and its results says.  A variable depends on an input if a
chain of links leads from it to the input.  The rules by which an atomic passes sets on are unions
over such a relation; those of the built-ins are unions over the relation that always holds.
-/

set_option autoImplicit false
set_option relaxedAutoImplicit false

namespace TaylorTape

namespace IndexSet

private theorem mem_foldl_union {sets : List IndexSet} {start : IndexSet} {x : Nat} :
    x ∈ (sets.foldl union start).toList ↔ x ∈ start.toList ∨ ∃ s ∈ sets, x ∈ s.toList := by
  induction sets generalizing start with
  | nil => simp
  | cons s sets ih => simp [ih, mem_union, or_assoc]

theorem mem_unions {sets : List IndexSet} {x : Nat} :
    x ∈ (unions sets).toList ↔ ∃ s ∈ sets, x ∈ s.toList := by
  simp [unions, mem_foldl_union, empty]

theorem contains_iff {s : IndexSet} {x : Nat} : s.contains x = true ↔ x ∈ s.toList :=
  List.contains_iff_mem

theorem not_mem_empty (x : Nat) : x ∉ empty.toList :=
  List.not_mem_nil

theorem not_mem_of_isEmpty {s : IndexSet} (none : s.isEmpty = true) (x : Nat) : x ∉ s.toList := by
  rw [List.isEmpty_iff.1 none]
  exact List.not_mem_nil

end IndexSet

/-! ### Rules of atomics that are unions -/

section Rules

variable {B F : Type} {op : Atomic B}

/-- A number belongs to the set at a place of a list; where there is no set none does. -/
def InSet (sets : List IndexSet) (k x : Nat) : Prop :=
  ∃ s, sets[k]? = some s ∧ x ∈ s.toList

/-- The places of a list are its first and those of the rest. -/
theorem exists_inSet_cons {s : IndexSet} {sets : List IndexSet} {v a x : Nat} :
    (∃ r, v = a + r ∧ InSet (s :: sets) r x) ↔
      (v = a ∧ x ∈ s.toList) ∨ ∃ r, v = a + 1 + r ∧ InSet sets r x := by
  constructor
  · rintro ⟨r, rfl, t, found, member⟩
    cases r with
    | zero =>
      obtain rfl : s = t := by simpa using found
      exact .inl ⟨rfl, member⟩
    | succ r => exact .inr ⟨r, by omega, t, by simpa using found, member⟩
  · rintro (⟨rfl, member⟩ | ⟨r, rfl, t, found, member⟩)
    · exact ⟨0, rfl, s, rfl, member⟩
    · exact ⟨r + 1, by omega, t, by simpa using found, member⟩

theorem InSet.lt_length {sets : List IndexSet} {k x : Nat} (inside : InSet sets k x) :
    k < sets.length := by
  obtain ⟨s, found, _⟩ := inside
  exact (List.getElem?_eq_some_iff.1 found).1

theorem inSet_take {sets : List IndexSet} {n k x : Nat} (below : k < n) :
    InSet (sets.take n) k x ↔ InSet sets k x := by
  simp [InSet, below]

/-- Both rules of an atomic are unions over one relation between its arguments and its results,
given for each number of arguments. -/
structure Atomic.UnionsOver (op : Atomic B) (links : Nat → Nat → Nat → Prop) : Prop where
  /-- A result has the sets of the arguments that it is linked to. -/
  forward : ∀ (sets : List IndexSet) (r x : Nat), r < op.numResults sets.length →
    (InSet (op.forwardSparsity sets (op.numResults sets.length)) r x ↔
      ∃ a, links sets.length a r ∧ InSet sets a x)
  /-- An argument has the sets of the results that are linked to it. -/
  reverse : ∀ (sets : List IndexSet) (n a x : Nat), sets.length = op.numResults n → a < n →
    (InSet (op.reverseSparsity sets n) a x ↔ ∃ r, links n a r ∧ InSet sets r x)

private theorem inSet_denseSparsity {sets : List IndexSet} {count k x : Nat} (below : k < count) :
    InSet (denseSparsity sets count) k x ↔ ∃ a, InSet sets a x := by
  simp only [InSet, denseSparsity, List.getElem?_replicate, if_pos below, Option.some.injEq,
    exists_eq_left', IndexSet.mem_unions]
  simp only [List.mem_iff_getElem? (l := sets)]
  constructor
  · rintro ⟨s, ⟨a, found⟩, member⟩
    exact ⟨a, s, found, member⟩
  · rintro ⟨a, s, found, member⟩
    exact ⟨s, ⟨a, found⟩, member⟩

private theorem Atomic.unionsOver_of_dense (forward : op.forwardSparsity = denseSparsity)
    (reverse : op.reverseSparsity = denseSparsity) : op.UnionsOver fun _ _ _ => True where
  forward sets r x below := by simp [forward, inSet_denseSparsity below]
  reverse sets n a x _ below := by simp [reverse, inSet_denseSparsity below]

theorem Registered.IsBuiltIn.unionsOver [Scalar F] [Base B F] {r : Registered B}
    (builtIn : r.IsBuiltIn) : r.op.UnionsOver fun _ _ _ => True := by
  obtain ⟨b, same⟩ := builtIn
  rw [same]
  cases b <;> exact Atomic.unionsOver_of_dense rfl rfl

end Rules

/-! ### Links -/

/-- How the results of an entry are linked to its operands, given for each atomic of the tape by its
place and the number of arguments. -/
inductive Entry.Linked (links : Nat → Nat → Nat → Nat → Prop) : Entry → Nat → Nat → Prop where
  | unary (op : UnaryOp) (a : Nat) : Entry.Linked links (.unary op a) 0 a
  | lhs (op : BinaryOp) (a b : Nat) : Entry.Linked links (.binary op a b) 0 a
  | rhs (op : BinaryOp) (a b : Nat) : Entry.Linked links (.binary op a b) 0 b
  | call {place n k r a : Nat} {args : List Nat} (argument : args[k]? = some a)
    (linked : links place args.length k r) : Entry.Linked links (.call place args n) r a

namespace Tape

variable {B F : Type} {tape : Tape B} {links : Nat → Nat → Nat → Nat → Prop} {i v w j : Nat}
  {e : Entry} {sets : Array IndexSet}

/-- The rules of every atomic that is called are unions over the links of its place. -/
def UnionsOver (tape : Tape B) (links : Nat → Nat → Nat → Nat → Prop) : Prop :=
  ∀ i place args n (r : Registered B), tape.entry i = .ok (.call place args n) →
    tape.atomics[place]? = some r → r.op.UnionsOver (links place)

/-- A variable is linked to another one by the entry at a position, which produces it. -/
def LinkAt (tape : Tape B) (links : Nat → Nat → Nat → Nat → Prop) (i v w : Nat) : Prop :=
  ∃ e r, tape.entry i = .ok e ∧ r < e.span ∧ v = i + r ∧ e.Linked links r w

/-- A variable is linked to an operand of the entry that produces it. -/
def Link (tape : Tape B) (links : Nat → Nat → Nat → Nat → Prop) (v w : Nat) : Prop :=
  ∃ i, tape.LinkAt links i v w

/-- A chain of links leads from a variable to an input. -/
def DependsOn (tape : Tape B) (links : Nat → Nat → Nat → Nat → Prop) (v j : Nat) : Prop :=
  j < tape.numInputs ∧ Relation.ReflTransGen (tape.Link links) v j

end Tape

namespace Entry

variable {links : Nat → Nat → Nat → Nat → Prop} {r w : Nat}

@[simp] theorem not_linked_input : ¬ Entry.input.Linked links r w := by
  intro linked
  cases linked

@[simp] theorem not_linked_const : ¬ Entry.const.Linked links r w := by
  intro linked
  cases linked

@[simp] theorem not_linked_result {owner : Nat} : ¬ (Entry.result owner).Linked links r w := by
  intro linked
  cases linked

@[simp] theorem linked_unary_iff {op : UnaryOp} {a : Nat} :
    (Entry.unary op a).Linked links r w ↔ r = 0 ∧ w = a := by
  constructor
  · intro linked
    cases linked
    exact ⟨rfl, rfl⟩
  · rintro ⟨rfl, rfl⟩
    exact .unary op w

@[simp] theorem linked_binary_iff {op : BinaryOp} {a b : Nat} :
    (Entry.binary op a b).Linked links r w ↔ r = 0 ∧ (w = a ∨ w = b) := by
  constructor
  · intro linked
    cases linked with
    | lhs => exact ⟨rfl, .inl rfl⟩
    | rhs => exact ⟨rfl, .inr rfl⟩
  · rintro ⟨rfl, rfl | rfl⟩
    · exact .lhs op w b
    · exact .rhs op a w

@[simp] theorem linked_call_iff {place n : Nat} {args : List Nat} :
    (Entry.call place args n).Linked links r w ↔
      ∃ k, args[k]? = some w ∧ links place args.length k r := by
  constructor
  · intro linked
    cases linked with
    | call argument linked => exact ⟨_, argument, linked⟩
  · rintro ⟨k, argument, linked⟩
    exact .call argument linked

end Entry

theorem Entry.Linked.mem_operands {links : Nat → Nat → Nat → Nat → Prop} {e : Entry} {r a : Nat}
    (linked : e.Linked links r a) : a ∈ e.operands := by
  cases linked with
  | unary | lhs => exact List.mem_cons_self
  | rhs => exact List.mem_cons_of_mem _ List.mem_cons_self
  | call argument => exact List.mem_of_getElem? argument

namespace Tape

variable {B F : Type} {tape : Tape B} {links : Nat → Nat → Nat → Nat → Prop} {i p v w j : Nat}
  {e : Entry} {sets : Array IndexSet}

theorem LinkAt.lt (linked : tape.LinkAt links i v w) (wf : tape.WellFormed) : w < i := by
  obtain ⟨e, r, found, _, _, linked⟩ := linked
  exact wf.operands i e found w linked.mem_operands

private theorem LinkAt.of_span (wf : tape.WellFormed) (found : tape.entry i = .ok e) (low : i ≤ v)
    (high : v < i + e.span) (linked : tape.LinkAt links p v w) : p = i := by
  obtain ⟨e', r, found', below, rfl, _⟩ := linked
  rcases Nat.lt_trichotomy p i with before | same | after
  · exact absurd ⟨p, e', before, found', Nat.le_add_right p r, Nat.add_lt_add_left below p⟩
      (wf.not_produced found low high)
  · exact same
  · exact absurd ⟨i, e, after, found, low, high⟩
      (wf.not_produced found' (Nat.le_add_right p r) (Nat.add_lt_add_left below p))

private theorem link_iff (wf : tape.WellFormed) (found : tape.entry i = .ok e) {r : Nat}
    (below : r < e.span) : tape.Link links (i + r) w ↔ e.Linked links r w := by
  constructor
  · rintro ⟨p, here⟩
    obtain rfl := here.of_span wf found (Nat.le_add_right i r) (Nat.add_lt_add_left below i)
    obtain ⟨e', r', found', _, same, linked⟩ := here
    obtain rfl : e = e' := Except.ok.inj (found.symm.trans found')
    obtain rfl : r = r' := Nat.add_left_cancel same
    exact linked
  · exact fun linked => ⟨i, e, r, found, below, rfl, linked⟩

/-- A result of an entry depends on an input if it is that input, or through a link. -/
theorem dependsOn_iff (wf : tape.WellFormed) (found : tape.entry i = .ok e) {r : Nat}
    (below : r < e.span) :
    tape.DependsOn links (i + r) j ↔
      (e = .input ∧ j = i) ∨ ∃ w, e.Linked links r w ∧ tape.DependsOn links w j := by
  unfold DependsOn
  rw [Relation.ReflTransGen.cases_head_iff]
  constructor
  · rintro ⟨input, rfl | ⟨w, linked, rest⟩⟩
    · -- an input is produced by its own entry
      obtain ⟨e', found'⟩ := exists_entry (input.trans_le wf.inputs_le)
      obtain rfl := (wf.inputs _ e' found').2 input
      have own : i + r < i + r + Entry.input.span := Nat.lt_succ_self _
      rcases Nat.eq_zero_or_pos r with rfl | later
      · exact .inl ⟨Except.ok.inj (found.symm.trans found'), rfl⟩
      · exact absurd ⟨i, e, by omega, found, Nat.le_add_right i r, Nat.add_lt_add_left below i⟩
          (wf.not_produced found' le_rfl own)
    · exact .inr ⟨w, (link_iff wf found below).1 linked, input, rest⟩
  · rintro (⟨rfl, rfl⟩ | ⟨w, linked, input, rest⟩)
    · obtain rfl : r = 0 := Nat.lt_one_iff.1 below
      exact ⟨(wf.inputs j .input found).1 rfl, .inl rfl⟩
    · exact ⟨input, .inr ⟨w, (link_iff wf found below).2 linked, rest⟩⟩

end Tape

end TaylorTape
