import TaylorTape.Proofs.Exact
import TaylorTape.Proofs.Frozen

/-!
Tapes of elements, read in other values.

Where the elementary operations also act on other values, among which the elements have their
constants, an entry of a tape is an equation between such values, and a program gives such values for
given ones without any tape.  A recording keeps the two in step: a reading of the tape so far goes on
to the entries that a step adds, and there the tracked values are read as what the program gives.
Since what depends on no variable is computed at once and not written down, the operations have to
take constants to constants.  Built-ins take one element to itself, so that a call is read as its
argument.
-/

set_option autoImplicit false
set_option relaxedAutoImplicit false

namespace TaylorTape

/-- Values that elements can be read as, and the operations on them. -/
structure Reading (F A : Type) [Scalar F] where
  const : F → A
  unary : UnaryOp → A → A
  binary : BinaryOp → A → A → A
  unary_const : ∀ op x, unary op (const x) = const (op.eval x)
  binary_const : ∀ op x y z, op.eval x y = .ok z → binary op (const x) (const y) = const z

variable {F A : Type} [Scalar F] (I : Reading F A)

/-- What an entry says of the value of its variable. -/
def Entry.Tells (c : Nat → A) (kept : F) (a : A) : Entry → Prop
  | .input | .result _ => True
  | .const => a = I.const kept
  | .unary op x => a = I.unary op (c x)
  | .binary op x y => a = I.binary op (c x) (c y)
  | .call _ args _ => ∀ x ∈ args, a = c x

theorem Entry.Tells.congr {I : Reading F A} {c c' : Nat → A} {kept : F} {a : A} {e : Entry}
    (same : ∀ x ∈ e.operands, c' x = c x) (told : e.Tells I c kept a) : e.Tells I c' kept a := by
  cases e with
  | input | const | result => exact told
  | unary op x => rwa [Tells, same x (by simp [operands])]
  | binary op x y => rwa [Tells, same x (by simp [operands]), same y (by simp [operands])]
  | call place args n => exact fun x reads => (told x reads).trans (same x reads).symm

private theorem Entry.tells_relabel {I : Reading F A} {c : Nat → A} {kept : F} {a : A}
    {g : Nat → Nat} {e : Entry} : (e.relabel g).Tells I c kept a ↔ e.Tells I (c ∘ g) kept a := by
  cases e with
  | input | const | unary | binary | result => rfl
  | call place args n => exact List.forall_mem_map

/-- A tracked value read on a tape: a variable as what stands there, every other value as a
constant. -/
def Tracked.mean (id : Nat) (c : Nat → A) (t : Tracked F) : A :=
  (t.indexOn id).elim (I.const t.value) c

namespace Tape

variable {tape next : Tape F} {c c' : Nat → A} {t : Tracked F}

/-- The values of the variables of a tape, as its entries say. -/
def Reads (tape : Tape F) (c : Nat → A) : Prop :=
  ∀ (i : Nat) e v, tape.nodes[i]? = some ⟨e, v⟩ → e.Tells I c v (c i)

/-- A reading of a tape that has grown, which keeps what was read before. -/
structure ReadsOn (tape next : Tape F) (c c' : Nat → A) : Prop where
  reads : next.Reads I c'
  kept : ∀ i < tape.size, c' i = c i

variable {I}

private theorem Reads.on (reads : tape.Reads I c) : tape.ReadsOn I tape c c :=
  ⟨reads, fun _ _ => rfl⟩

theorem ReadsOn.trans {last : Tape F} {c'' : Nat → A} (first : tape.ReadsOn I next c c')
    (grown : tape.size ≤ next.size) (second : next.ReadsOn I last c' c'') :
    tape.ReadsOn I last c c'' :=
  ⟨second.reads, fun i before =>
    (second.kept i (before.trans_le grown)).trans (first.kept i before)⟩

private theorem ReadsOn.mean (on : tape.ReadsOn I next c c') (knows : tape.Knows t) :
    t.mean I tape.id c' = t.mean I tape.id c := by
  unfold Tracked.mean
  cases here : t.indexOn tape.id with
  | none => rfl
  | some j => exact on.kept j (knows.lt here)

private theorem ReadsOn.map_mean (on : tape.ReadsOn I next c c') {ts : List (Tracked F)}
    (knows : ∀ t ∈ ts, tape.Knows t) :
    ts.map (Tracked.mean I tape.id c') = ts.map (Tracked.mean I tape.id c) :=
  List.map_congr_left fun t member => on.mean (knows t member)

private theorem Reads.push (wf : tape.WellFormed) (reads : tape.Reads I c) {e : Entry} {v : F}
    {a : A} (nodes : next.nodes = tape.nodes.push ⟨e, v⟩) (below : ∀ x ∈ e.operands, x < tape.size)
    (told : e.Tells I c v a) :
    tape.ReadsOn I next c (Function.update c tape.size a) := by
  have old : ∀ x < tape.size, Function.update c tape.size a x = c x := fun x before =>
    Function.update_of_ne (Nat.ne_of_lt before) _ _
  refine ⟨fun i e' v' there => ?_, old⟩
  rw [nodes, Array.getElem?_push] at there
  split at there
  · rename_i last
    obtain ⟨rfl, rfl⟩ := Node.mk.inj (Option.some.inj there)
    obtain rfl : i = tape.size := last
    rw [Function.update_self]
    exact told.congr fun x among => old x (below x among)
  · have found := entry_of_node there
    rw [old i (lt_size_of_entry found)]
    exact (reads i e' v' there).congr fun x among => old x (wf.operand_lt found among)

private theorem embed_reads (wf : tape.WellFormed) (reads : tape.Reads I c) (t : Tracked F) :
    ∃ c', tape.ReadsOn I (tape.embed t).2 c c' ∧ c' (tape.embed t).1 = t.mean I tape.id c := by
  unfold embed Tracked.mean
  cases t.indexOn tape.id with
  | some j => exact ⟨c, reads.on, rfl⟩
  | none => exact ⟨_, reads.push (v := t.value) wf rfl nofun rfl, Function.update_self ..⟩

private theorem embedAll_reads (wf : tape.WellFormed) (reads : tape.Reads I c)
    {ts : List (Tracked F)} (knows : ∀ t ∈ ts, tape.Knows t) :
    ∃ c', tape.ReadsOn I (tape.embedAll ts).2 c c' ∧
      (tape.embedAll ts).1.map c' = ts.map (Tracked.mean I tape.id c) := by
  induction ts generalizing tape c with
  | nil => exact ⟨c, reads.on, rfl⟩
  | cons t ts ih =>
    obtain ⟨j, mid, first, grown, ⟨e, there⟩, _⟩ := embed_grown wf (knows t List.mem_cons_self)
    obtain ⟨c₁, on₁, value₁⟩ := embed_reads wf reads t
    rw [first] at on₁ value₁
    have later : ∀ t ∈ ts, tape.Knows t := fun t member => knows t (List.mem_cons_of_mem _ member)
    obtain ⟨c₂, on₂, values₂⟩ := ih grown.wellFormed on₁.reads fun t member =>
      (later t member).extends grown.extends_
    refine ⟨c₂, ?_, ?_⟩
    · rw [embedAll_cons, first]
      exact on₁.trans grown.extends_.size_le on₂
    · rw [embedAll_cons, first, List.map_cons, List.map_cons, values₂,
        on₂.kept j (lt_size_of_entry (entry_of_node there)), value₁, grown.extends_.id,
        on₁.map_mean later]

theorem reads_ofInputs (id : Nat) (x : List F) (c : Nat → A) : (ofInputs id x).Reads I c := by
  intro i e v there
  obtain ⟨rfl, _⟩ := Program.entry_ofInputs id x (entry_of_node there)
  trivial

private theorem Embeds.reads {small : Tape F} {g : Nat → Nat} (embeds : small.Embeds tape g)
    (reads : tape.Reads I c) : small.Reads I (c ∘ g) := fun i e v there =>
  Entry.tells_relabel.1 (reads (g i) _ v (embeds.node i e v there))

/-- A frozen tape is read as the recorded one, with the same inputs, and its outputs as what is
frozen. -/
theorem freeze_reads {ys : List (Tracked F)} {e : Evaluator F} (wf : tape.WellFormed)
    (knows : ∀ y ∈ ys, tape.Knows y) (done : tape.freeze ys = .ok e) (reads : tape.Reads I c) :
    ∃ c', e.tape.Reads I c' ∧ (∀ j < e.numInputs, c' j = c j) ∧
      e.outputs.map c' = ys.map (Tracked.mean I tape.id c) := by
  obtain ⟨⟨next, js⟩, placed, done⟩ := bind_eq_ok.1 done
  obtain ⟨⟨small, outputs, removed⟩, pruned, last⟩ := bind_eq_ok.1 done
  obtain ⟨_, _, embedded, grown, _, _⟩ := embedAll_grown wf knows
  obtain ⟨c₁, on, values⟩ := embedAll_reads wf reads knows
  rw [embedAll_of_outputs placed] at embedded on values
  obtain ⟨rfl, rfl⟩ := Prod.mk.inj embedded
  obtain ⟨places, kept⟩ := prune_spec grown.wellFormed pruned
  obtain rfl := Except.ok.inj last
  refine ⟨c₁ ∘ (places.getD · 0), kept.embeds.reads on.reads, fun j input => ?_, ?_⟩
  · have early : j < tape.size := by
      have same : small.numInputs = tape.numInputs := kept.embeds.inputs.trans grown.extends_.inputs
      exact (show j < small.numInputs from input).trans_le (same.trans_le wf.inputs_le)
    rw [Function.comp_apply, kept.embeds.fixed j input, on.kept j early]
  · rw [← values, ← kept.outputs, List.map_map]
    rfl

end Tape

namespace Tracked

variable {I} {registry : Registry F} {tape : Tape F} {r : Recorder F} {t t' y : Tracked F}
  {c : Nat → A}

private theorem mean_parameter (id : Nat) (c : Nat → A) (v : F) :
    (parameter v).mean I id c = I.const v := rfl

theorem mean_variable (id : Nat) (c : Nat → A) (v : F) (i : Nat) :
    (⟨v, .onTape id i⟩ : Tracked F).mean I id c = c i := by
  rw [mean, indexOn_variable]
  rfl

private theorem mean_pushed (c : Nat → A) (e : Entry) (v w : F) (a : A) (id : Nat) :
    (⟨v, .onTape id (tape.push e w).1⟩ : Tracked F).mean I id (Function.update c tape.size a) = a :=
  (mean_variable id _ v tape.size).trans (Function.update_self _ _ _)

private theorem mean_of_none {id : Nat} (away : t.indexOn id = none) :
    t.mean I id c = I.const t.value := by
  rw [mean, away]
  rfl

private theorem unary_reads (wf : tape.WellFormed) (knows : tape.Knows t) (reads : tape.Reads I c)
    {op : UnaryOp} (done : t.unary op ⟨some tape, registry⟩ = (.ok y, r)) :
    ∃ next c', r.tape = some next ∧ tape.ReadsOn I next c c' ∧
      y.mean I tape.id c' = I.unary op (t.mean I tape.id c) := by
  unfold Tracked.unary at done
  rw [run_bind_ok (run_get _)] at done
  cases here : t.indexOn tape.id with
  | none =>
    simp only [Recorder.indexOf?, Option.bind_some, here] at done
    cases done
    refine ⟨tape, c, rfl, reads.on, ?_⟩
    rw [mean_parameter, mean_of_none here, I.unary_const]
  | some a =>
    simp only [Recorder.indexOf?, Option.bind_some, here] at done
    cases done
    refine ⟨_, _, rfl, reads.push (a := I.unary op (c a)) wf rfl ?_ rfl, ?_⟩
    · exact List.forall_mem_singleton.2 (knows.lt here)
    · rw [mean_pushed, mean, here]
      rfl

private theorem binary_reads (wf : tape.WellFormed) (knows : tape.Knows t) (knows' : tape.Knows t')
    (reads : tape.Reads I c) {op : BinaryOp}
    (done : t.binary op t' ⟨some tape, registry⟩ = (.ok y, r)) :
    ∃ next c', r.tape = some next ∧ tape.ReadsOn I next c c' ∧
      y.mean I tape.id c' = I.binary op (t.mean I tape.id c) (t'.mean I tape.id c) := by
  unfold Tracked.binary at done
  rw [run_bind_ok (run_get _), run_lift_bind_eq_ok] at done
  obtain ⟨value, computed, done⟩ := done
  by_cases away : (t.indexOn tape.id).isNone && (t'.indexOn tape.id).isNone
  · simp only [away, if_true] at done
    cases done
    rw [Bool.and_eq_true, Option.isNone_iff_eq_none, Option.isNone_iff_eq_none] at away
    refine ⟨tape, c, rfl, reads.on, ?_⟩
    rw [mean_parameter, mean_of_none away.1, mean_of_none away.2, I.binary_const op _ _ _ computed]
  · simp only [away] at done
    obtain ⟨a, mid, first, grown₁, ⟨e₁, there₁⟩, _⟩ := Tape.embed_grown wf knows
    obtain ⟨b, mid', second, grown₂, ⟨e₂, there₂⟩, _⟩ :=
      Tape.embed_grown grown₁.wellFormed (knows'.extends grown₁.extends_)
    obtain ⟨c₁, on₁, value₁⟩ := Tape.embed_reads wf reads t
    obtain ⟨c₂, on₂, value₂⟩ := Tape.embed_reads grown₁.wellFormed (first ▸ on₁).reads t'
    rw [first] at done on₁ value₁
    rw [second] at on₂ value₂
    simp only [second] at done
    cases done
    have lhs : a < mid.size := Tape.lt_size_of_entry (Tape.entry_of_node there₁)
    have rhs : b < mid'.size := Tape.lt_size_of_entry (Tape.entry_of_node there₂)
    have bound₁ := grown₁.extends_.size_le
    have bound₂ := grown₂.extends_.size_le
    have same : mid'.id = tape.id := (grown₁.trans grown₂).extends_.id
    have on := on₁.trans bound₁ on₂
    have on₃ : mid'.ReadsOn I (mid'.push (.binary op a b) value).2 c₂ _ :=
      on₂.reads.push (a := I.binary op (c₂ a) (c₂ b)) grown₂.wellFormed rfl
        (by simp [Entry.operands]; omega) rfl
    refine ⟨_, _, rfl, on.trans (bound₁.trans bound₂) on₃, ?_⟩
    rw [grown₁.extends_.id, on₁.mean knows'] at value₂
    rw [← value₁, ← value₂, ← on₂.kept a lhs, ← same]
    exact mean_pushed c₂ _ _ _ _ _

private theorem call_reads {b : BuiltIn} {id : Nat} {e : Registered F} {args ys : List (Tracked F)}
    (wf : tape.WellFormed) (knows : ∀ t ∈ args, tape.Knows t) (reads : tape.Reads I c)
    (found : registry.entries[id]? = some e) (same : e.op = b.atomic)
    (done : call id args ⟨some tape, registry⟩ = (.ok ys, r)) :
    ∃ next c', r.tape = some next ∧ tape.ReadsOn I next c c' ∧
      ys.map (mean I tape.id c') = args.map (mean I tape.id c) := by
  obtain ⟨e', results, values, there, _, forward, constants, outcome⟩ := call_cases done
  obtain rfl : e = e' := Option.some.inj (found.symm.trans there)
  have counted : e.op.numResults args.length = b.count := by rw [same, BuiltIn.numResults_atomic]
  obtain ⟨stepped, flags⟩ : b.step (args.map value) (args.map value) = .ok values ∧
      ∀ y ∈ results, y.isVariable = (argumentWires tape args).any Wire.isVariable :=
    builtIn_recorded counted size_values (coeffs_values args _) (same ▸ forward) constants
  obtain ⟨_, v, single, rfl⟩ := BuiltIn.step_scalar stepped
  obtain ⟨t, rfl, rfl⟩ : ∃ t, args = [t] ∧ t.value = v := by simpa using single
  obtain ⟨w, rfl⟩ : ∃ w, results = [w] :=
    List.length_eq_one_iff.1 (length_of_mapM constants).symm
  have flag := flags w List.mem_cons_self
  rcases outcome with ⟨variable_, rfl, rfl⟩ | ⟨constant, rfl, rfl⟩
  · obtain ⟨js, mid, embedded, grown, standing, _⟩ := Tape.embedAll_grown wf knows
    obtain ⟨c₁, on₁, values₁⟩ := Tape.embedAll_reads wf reads knows
    rw [embedded] at on₁ values₁
    obtain ⟨j, rfl⟩ : ∃ j, js = [j] := List.length_eq_one_iff.1 standing.length_eq
    have inside : j < mid.size := Tape.lt_size_of_standing standing j List.mem_cons_self
    have nodes : (mid.intern e).2.nodes = mid.nodes := by
      unfold Tape.intern
      split <;> rfl
    have on₂ : mid.ReadsOn I (mid.pushCall e [j] [t.value]).2 c₁ _ := on₁.reads.push
      (e := .call (mid.intern e).1 [j] 1) (v := t.value) (a := c₁ j) grown.wellFormed
      (by rw [Tape.pushCall_cons]; simp [Tape.append, nodes])
      (List.forall_mem_singleton.2 inside) (List.forall_mem_singleton.2 rfl)
    rw [embedded]
    refine ⟨_, _, rfl, on₁.trans grown.extends_.size_le on₂, ?_⟩
    rw [← values₁, Tape.pushCall_cons]
    simp [recordedResults, flag, variable_, mean_variable]
  · have away : t.indexOn tape.id = none := by
      simpa [flag, argumentWires] using constant
    refine ⟨tape, c, rfl, reads.on, ?_⟩
    rw [List.map_singleton, List.map_singleton, List.map_singleton, mean_parameter,
      mean_of_none away]

end Tracked

namespace Step

/-- The results of a step on values that elements are read as; what is chosen by comparing elements
and what no built-in computes is not read. -/
def read (env : List A) : Step F → Except Error (List A)
  | .bring x => return [I.const x.value]
  | .copy a => do return [← pick env a]
  | .unary op a => do return [I.unary op (← pick env a)]
  | .binary op a b => do return [I.binary op (← pick env a) (← pick env b)]
  | .compare _ _ _ => return []
  | .builtIn _ args => gather env args
  | .max _ _ | .min _ _ | .clip _ _ _ => .error (.unsupportedOrder "choice" 0)
  | .call id _ => .error (.state (.unknownAtomic id))

omit [Scalar F] in
theorem Straight.callsBuiltIns {s : Step F} (straight : s.Straight) : s.CallsBuiltIns := by
  cases s with
  | bring | copy | unary | binary | compare | builtIn | max | min | clip => trivial
  | call => cases straight

variable {I} {registry : Registry F} {tape : Tape F} {r : Recorder F} {env ys : List (Tracked F)}
  {c : Nat → A}

/-- The results of a step that is recorded are read as what the step gives on what its operands are
read as. -/
private theorem record_reads {s : Step F} (straight : s.Straight) (foreign : s.Foreign tape.id)
    (consistent : Consistent registry tape) (faithful : registry.Faithful)
    (knows : ∀ t ∈ env, tape.Knows t) (reads : tape.Reads I c)
    (done : s.record env ⟨some tape, registry⟩ = (.ok ys, r)) :
    ∃ next c', r.tape = some next ∧ tape.ReadsOn I next c c' ∧
      s.read I (env.map (Tracked.mean I tape.id c)) = .ok (ys.map (Tracked.mean I tape.id c')) := by
  have wf := consistent.wellFormed
  cases s with
  | bring x =>
    obtain ⟨answer, rfl⟩ := Prod.mk.inj done
    obtain rfl := Except.ok.inj answer
    refine ⟨tape, c, rfl, reads.on, ?_⟩
    rw [List.map_singleton, Tracked.mean_of_none foreign]
    rfl
  | copy a =>
    obtain ⟨t, found, done⟩ := run_lift_bind_eq_ok.1 done
    obtain ⟨answer, rfl⟩ := Prod.mk.inj done
    obtain rfl := Except.ok.inj answer
    exact ⟨tape, c, rfl, reads.on, bind_eq_ok.2 ⟨_, pick_map found, rfl⟩⟩
  | unary op a =>
    obtain ⟨t, found, done⟩ := run_lift_bind_eq_ok.1 done
    obtain ⟨y, r', recorded, done⟩ := run_bind_eq_ok.1 done
    obtain ⟨answer, rfl⟩ := Prod.mk.inj done
    obtain rfl := Except.ok.inj answer
    obtain ⟨next, c', recording, on, same⟩ :=
      Tracked.unary_reads wf (knows t (mem_of_pick found)) reads recorded
    refine ⟨next, c', recording, on, bind_eq_ok.2 ⟨_, pick_map found, ?_⟩⟩
    rw [← same]
    rfl
  | binary op a b =>
    obtain ⟨t, found, done⟩ := run_lift_bind_eq_ok.1 done
    obtain ⟨t', found', done⟩ := run_lift_bind_eq_ok.1 done
    obtain ⟨y, r', recorded, done⟩ := run_bind_eq_ok.1 done
    obtain ⟨answer, rfl⟩ := Prod.mk.inj done
    obtain rfl := Except.ok.inj answer
    obtain ⟨next, c', recording, on, same⟩ := Tracked.binary_reads wf
      (knows t (mem_of_pick found)) (knows t' (mem_of_pick found')) reads recorded
    refine ⟨next, c', recording, on, bind_eq_ok.2 ⟨_, pick_map found,
      bind_eq_ok.2 ⟨_, pick_map found', ?_⟩⟩⟩
    rw [← same]
    rfl
  | compare cmp a b =>
    obtain ⟨t, _, done⟩ := run_lift_bind_eq_ok.1 done
    obtain ⟨t', _, done⟩ := run_lift_bind_eq_ok.1 done
    obtain ⟨truth, _, done⟩ := run_lift_bind_eq_ok.1 done
    obtain ⟨answer, rfl⟩ := Prod.mk.inj done
    obtain rfl := Except.ok.inj answer
    exact ⟨tape, c, rfl, reads.on, rfl⟩
  | builtIn b args =>
    obtain ⟨ts, found, done⟩ := run_lift_bind_eq_ok.1 done
    have done := BuiltIn.call_of_record done
    obtain ⟨id, registry', e, entered, _, _, there, same⟩ :=
      b.enter_faithful (r := ⟨some tape, registry⟩) faithful
    rw [run_bind_ok entered] at done
    obtain ⟨next, c', recording, on, values⟩ := Tracked.call_reads wf
      (fun t member => knows t (mem_of_gather found t member)) reads there same done
    exact ⟨next, c', recording, on, values ▸ gather_map found⟩
  | max | min | clip | call => cases straight

end Step

namespace Program

/-- The values of a program, for inputs that elements are read as. -/
def read : List (Step F) → List A → Except Error (List A)
  | [], env => return env
  | s :: rest, env => do read rest (env ++ (← s.read I env))

variable {I} {registry : Registry F} {tape : Tape F} {r : Recorder F}
  {env final : List (Tracked F)} {steps resolved : List (Step F)} {c : Nat → A}

/-- The values of a program that is recorded are read as what the program gives. -/
theorem record_reads (straight : ∀ s ∈ steps, s.Straight) (foreign : ∀ s ∈ steps, s.Foreign tape.id)
    (consistent : Consistent registry tape) (faithful : registry.Faithful)
    (knows : ∀ t ∈ env, tape.Knows t) (reads : tape.Reads I c)
    (done : record steps env ⟨some tape, registry⟩ = (.ok (final, resolved), r)) :
    ∃ next c', r.tape = some next ∧ tape.ReadsOn I next c c' ∧
      read I steps (env.map (Tracked.mean I tape.id c)) =
        .ok (final.map (Tracked.mean I tape.id c')) := by
  induction steps generalizing registry tape env resolved c with
  | nil =>
    obtain ⟨answer, rfl⟩ := Prod.mk.inj done
    obtain ⟨rfl, rfl⟩ := Prod.mk.inj (Except.ok.inj answer)
    exact ⟨tape, c, rfl, reads.on, rfl⟩
  | cons s steps ih =>
    have plain := straight s List.mem_cons_self
    have away := foreign s List.mem_cons_self
    obtain ⟨s', resolved₁, done⟩ := run_lift_bind_eq_ok.1 done
    obtain ⟨ys, r₁, recorded, done⟩ := run_bind_eq_ok.1 done
    obtain ⟨⟨final', rest⟩, r₂, later, done⟩ := run_bind_eq_ok.1 done
    obtain ⟨answer, rfl⟩ := Prod.mk.inj done
    obtain ⟨rfl, rfl⟩ := Prod.mk.inj (Except.ok.inj answer)
    obtain ⟨mid, advances, follows⟩ := Step.record_advances away consistent knows resolved₁ recorded
    have faithful₁ := (follows faithful plain.callsBuiltIns).faithful
    obtain ⟨mid', c₁, recording, on₁, value⟩ :=
      Step.record_reads plain away consistent faithful knows reads recorded
    obtain ⟨_, registry₁⟩ := r₁
    obtain rfl := advances.recording
    obtain rfl := Option.some.inj recording
    have same : mid.id = tape.id := advances.extends_.id
    obtain ⟨next, c₂, recording₂, on₂, values⟩ := ih
      (fun s member => straight s (List.mem_cons_of_mem _ member))
      (fun s member => same ▸ foreign s (List.mem_cons_of_mem _ member)) advances.consistent
      faithful₁ (fun t member => (List.mem_append.1 member).elim
        (fun old => (knows t old).extends advances.extends_) (advances.knows t)) on₁.reads later
    refine ⟨next, c₂, recording₂, on₁.trans advances.extends_.size_le on₂,
      bind_eq_ok.2 ⟨_, value, ?_⟩⟩
    rwa [same, List.map_append, on₁.map_mean knows] at values

end Program

end TaylorTape
