import TaylorTape.Proofs.Growth
import TaylorTape.Proofs.Parallel

/-!
Two runs over one tape, order by order.

What an entry yields above order zero comes from the coefficients of what it reads.  So if every
operation and every call keeps some relation between the coefficients of two runs, and the seeds of
the runs are related, then so are the coefficients of all variables, at every order that holds in
both.
-/

set_option autoImplicit false
set_option relaxedAutoImplicit false

namespace TaylorTape

open Series

variable {B F : Type} [Scalar F] [Base B F]

namespace Tape

variable {tape : Tape B} {s s' : Nat → B} {C : Nat → Prop → B → B → Prop} {i k q : Nat}

/-- An entry yields one thing only. -/
theorem Yields.unique (builtIns : tape.OnlyBuiltIns) {seed xs ys : List B} {c : Nat → Nat → B}
    (yields : tape.Yields k seed c i xs) (yields' : tape.Yields k seed c i ys) : xs = ys := by
  obtain ⟨⟨entry, value⟩, node, yielded⟩ := yields
  obtain ⟨_, node', yielded'⟩ := yields'
  obtain rfl := Option.some.inj (node.symm.trans node')
  cases entry with
  | input =>
    obtain ⟨x, there, rfl⟩ := yielded
    obtain ⟨y, there', rfl⟩ := yielded'
    rw [Option.some.inj (there.symm.trans there')]
  | const => exact yielded.trans yielded'.symm
  | unary op a | binary op a b =>
    obtain ⟨x, next, rfl⟩ := yielded
    obtain ⟨y, next', rfl⟩ := yielded'
    rw [Except.ok.inj (next.symm.trans next')]
  | call place args n =>
    obtain ⟨r, there, builtIn⟩ := builtIns i place args n (entry_of_node node)
    obtain ⟨b, op, stepped⟩ := yielded r there builtIn
    obtain ⟨b', op', stepped'⟩ := yielded' r there builtIn
    have along := BuiltIn.step_of_atomic_eq (op'.symm.trans op) (by simp) stepped'
    exact Except.ok.inj (stepped.symm.trans along)
  | result owner => exact yielded.trans yielded'.symm

/-- Relations between the coefficients of two runs, one for each variable, that every operation and
every call keeps above order zero, where the runs have the given values at order zero. -/
structure Keeps (tape : Tape B) (s s' : Nat → B) (C : Nat → Prop → B → B → Prop) : Prop where
  respected : ∀ i < tape.size, Respected (C i)
  /-- What the operation at a position reads is related as what it yields is to be. -/
  operand : ∀ i e, tape.entry i = .ok e → (∀ place args n, e ≠ .call place args n) →
    ∀ a ∈ e.operands, ∀ u u', C a False u u' → C i False u u'
  call : ∀ i place args n r, tape.entry i = .ok (.call place args n) →
    tape.atomics[place]? = some r → r.IsBuiltIn → ∀ xs xs', AllThree (C · False) args xs xs' →
    ∃ b : BuiltIn, r.op = b.atomic ∧ Both (AllThree (C · False) (List.range' i n))
      (b.step (args.map s) xs) (b.step (args.map s') xs')

namespace Keeps

variable {c c' : Nat → Nat → B}

/-- From related coefficients of what it reads an entry yields related ones in both runs. -/
theorem yields (keeps : tape.Keeps s s' C) (builtIns : tape.OnlyBuiltIns) {e : Entry}
    (found : tape.entry i = .ok e) (positive : k ≠ 0) {seed seed' : List B}
    (zeroth : ∀ a ∈ e.operands, c a 0 = s a ∧ c' a 0 = s' a)
    (operands : ∀ a ∈ e.operands, ∀ j ≤ k, C a False (c a j) (c' a j))
    (own : ∀ j < k, C i False (c i j) (c' i j))
    (input : e = .input → ∃ u u', seed[i]? = some u ∧ seed'[i]? = some u' ∧ C i False u u') :
    ∃ xs xs', tape.Yields k seed c i xs ∧ tape.Yields k seed' c' i xs' ∧
      AllThree (C · False) (List.range' i e.span) xs xs' := by
  have respected := keeps.respected i (lt_size_of_entry found)
  obtain ⟨v, node⟩ := entry_eq_ok.1 found
  have read : (∀ place args n, e ≠ .call place args n) → ∀ a ∈ e.operands,
      Related (k + 1) (C i) (fun _ => False) (.of (c a) (k + 1)) (.of (c' a) (k + 1)) :=
    fun plain a reads => related_of fun j low =>
      keeps.operand i e found plain a reads _ _ (operands a reads j (by omega))
  have known : Related k (C i) (fun _ => False) (.of (c i) k) (.of (c' i) k) := related_of own
  cases e with
  | input =>
    obtain ⟨u, u', there, there', related⟩ := input rfl
    exact ⟨[u], [u'], ⟨_, node, u, there, rfl⟩, ⟨_, node, u', there', rfl⟩, .single related⟩
  | const =>
    refine ⟨[Base.zero], [Base.zero], ⟨_, node, ?_⟩, ⟨_, node, ?_⟩, .single respected.zero⟩
    · exact congrArg List.singleton (if_neg positive).symm
    · exact congrArg List.singleton (if_neg positive).symm
  | unary op a =>
    obtain ⟨x, x', next, next', related⟩ :=
      op.next_both respected (read (by simp) a (by simp [Entry.operands])) known
    exact ⟨[x], [x'], ⟨_, node, x, next, rfl⟩, ⟨_, node, x', next', rfl⟩, .single related⟩
  | binary op a b =>
    obtain ⟨x, x', next, next', related⟩ :=
      op.next_both respected (read (by simp) a (by simp [Entry.operands]))
        (read (by simp) b (by simp [Entry.operands])) known
    exact ⟨[x], [x'], ⟨_, node, x, next, rfl⟩, ⟨_, node, x', next', rfl⟩, .single related⟩
  | call place args n =>
    have first : args.map (c · 0) = args.map s :=
      List.map_congr_left fun a reads => (zeroth a reads).1
    have first' : args.map (c' · 0) = args.map s' :=
      List.map_congr_left fun a reads => (zeroth a reads).2
    have last : AllThree (C · False) args (args.map (c · k)) (args.map (c' · k)) := by
      have all := allThree_map (R := (C · False)) (f := fun a => a) (g := (c · k))
        (h := (c' · k)) fun a (reads : a ∈ args) => operands a reads k le_rfl
      rwa [List.map_id'] at all
    obtain ⟨r, there, builtIn⟩ := builtIns i place args n found
    obtain ⟨b, op, xs, xs', stepped, stepped', all⟩ :=
      keeps.call i place args n r found there builtIn _ _ last
    have only : ∀ r', tape.atomics[place]? = some r' → r'.op = b.atomic := fun r' there' =>
      Option.some.inj (there.symm.trans there') ▸ op
    exact ⟨xs, xs', ⟨_, node, fun r' there' _ => ⟨b, only r' there', first ▸ stepped⟩⟩,
      ⟨_, node, fun r' there' _ => ⟨b, only r' there', first' ▸ stepped'⟩⟩, all⟩
  | result owner => exact ⟨[], [], ⟨_, node, rfl⟩, ⟨_, node, rfl⟩, .nil⟩

/-- The coefficients of two runs are related at every order that holds in both, if those of the
inputs are. -/
theorem related_of_holds (keeps : tape.Keeps s s' C) (wf : tape.WellFormed)
    (builtIns : tape.OnlyBuiltIns) {seed seed' : Nat → List B}
    (zeroth : ∀ v < tape.size, c v 0 = s v ∧ c' v 0 = s' v ∧ C v False (s v) (s' v))
    (holds : ∀ k < q, ∀ i < tape.size, tape.Holds k (seed k) c i)
    (holds' : ∀ k < q, ∀ i < tape.size, tape.Holds k (seed' k) c' i)
    (inputs : ∀ j < tape.numInputs, ∀ k < q, C j False (c j k) (c' j k)) :
    ∀ k < q, ∀ v < tape.size, C v False (c v k) (c' v k) := by
  intro k
  induction k using Nat.strongRecOn with
  | ind k lower =>
  intro below
  have low : ∀ v < tape.size, ∀ j < k, C v False (c v j) (c' v j) := fun v var j less =>
    lower j less (less.trans below) v var
  refine wf.induction fun i e found operand v first last => ?_
  by_cases zero : k = 0
  · subst zero
    have var : v < tape.size := last.trans_le (wf.span_le found)
    obtain ⟨value, value', related⟩ := zeroth v var
    rwa [value, value']
  have inside := lt_size_of_entry found
  obtain ⟨e₁, found₁, yields⟩ := holds k below i inside
  obtain ⟨e₂, found₂, yields'⟩ := holds' k below i inside
  obtain rfl := Except.ok.inj (found.symm.trans found₁)
  obtain rfl := Except.ok.inj (found.symm.trans found₂)
  have earlier : ∀ a ∈ e.operands, a < tape.size := fun a reads => wf.operand_lt found reads
  obtain ⟨xs, xs', next, next', all⟩ := keeps.yields builtIns found zero
    (fun a reads => ⟨(zeroth a (earlier a reads)).1, (zeroth a (earlier a reads)).2.1⟩)
    (fun a reads j le => (Nat.lt_or_eq_of_le le).elim (low a (earlier a reads) j)
      fun same => same ▸ operand a reads)
    (low i inside)
    fun plain => ⟨_, _, (holds k below i inside).input (plain ▸ found),
      (holds' k below i inside).input (plain ▸ found),
      inputs i ((wf.inputs i e found).1 plain) k below⟩
  rw [next.unique builtIns yields, next'.unique builtIns yields'] at all
  exact all.of_mem (List.mem_range'_1.2 ⟨first, last⟩)

end Keeps

end Tape

end TaylorTape
