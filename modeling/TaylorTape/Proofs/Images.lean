import TaylorTape.Proofs.Frozen
import TaylorTape.Proofs.Steady

/-!
Recordings under a map of their values.

A program of elementary operations does nothing with values but combine their elements.  So a map of
values that the operations respect takes its recording to the recording of the mapped program: the
same entries in the same order, with mapped values beside them.  Pruning looks at entries only, so
that the two recordings freeze alike.
-/

set_option autoImplicit false
set_option relaxedAutoImplicit false

namespace TaylorTape

variable {B B' F : Type}

/-- A map between values that the operations on elements respect.  On the values that are meant they
succeed and lead to such values again. -/
structure Base.Homomorphism [Scalar F] [Base B F] [Base B' F] (D : B → Prop) (f : B → B') :
    Prop where
  zero : D Base.zero ∧ f Base.zero = Base.zero
  map : ∀ (h : F → F) {u : B}, D u → D (Base.map h u) ∧ f (Base.map h u) = Base.map h (f u)
  zipWith : ∀ (context : String) (h : F → F → F) {u v : B}, D u → D v →
    ∃ w, Base.zipWith context h u v = .ok w ∧ D w ∧ Base.zipWith context h (f u) (f v) = .ok (f w)

/-- An entry that calls no atomic. -/
def Entry.Elementary : Entry → Prop
  | .call _ _ _ | .result _ => False
  | .input | .const | .unary _ _ | .binary _ _ _ => True

private theorem Entry.Elementary.rename {f : Nat → Except Error Nat} {e renamed : Entry}
    (elementary : e.Elementary) (done : e.rename f = .ok renamed) : renamed.Elementary := by
  cases e with
  | input | const =>
    obtain rfl := Except.ok.inj done
    trivial
  | unary op a =>
    obtain ⟨_, _, rfl⟩ := map_eq_ok.1 done
    trivial
  | binary op a b =>
    obtain ⟨_, _, done⟩ := bind_eq_ok.1 done
    obtain ⟨_, _, rfl⟩ := map_eq_ok.1 done
    trivial
  | call | result => cases elementary

namespace Tape

variable {D : B → Prop} {f : B → B'} {id' : Nat} {tape next : Tape B}

/-- A tape of elementary operations whose values are among those that are meant. -/
def Over (D : B → Prop) (tape : Tape B) : Prop :=
  ∀ node ∈ tape.nodes, node.entry.Elementary ∧ D node.value

/-- The tape with every value mapped, as another recording. -/
def image (f : B → B') (id' : Nat) (tape : Tape B) : Tape B' where
  id := id'
  nodes := tape.nodes.map fun node => ⟨node.entry, f node.value⟩
  numInputs := tape.numInputs
  atomics := #[]

@[simp] theorem size_image : (tape.image f id').size = tape.size :=
  Array.size_map

theorem node_image (f : B → B') (id' i : Nat) : (tape.image f id').nodes[i]? =
    tape.nodes[i]?.map fun node => ⟨node.entry, f node.value⟩ :=
  Array.getElem?_map

@[simp] theorem entry_image (i : Nat) : (tape.image f id').entry i = tape.entry i := by
  unfold entry fetch
  rw [node_image f id' i, show (tape.image f id').nodes.size = _ from size_image]
  cases tape.nodes[i]? <;> rfl

private theorem push_image (e : Entry) (v : B) :
    (tape.image f id').push e (f v) = (tape.size, (tape.push e v).2.image f id') := by
  simp [push, image, size]

private theorem Over.push (lies : tape.Over D) {e : Entry} {v : B} (elementary : e.Elementary)
    (meant : D v) : (tape.push e v).2.Over D := by
  intro node member
  rcases Array.mem_push.1 member with before | rfl
  · exact lies node before
  · exact ⟨elementary, meant⟩

theorem Over.elementary (lies : tape.Over D) {i : Nat} {e : Entry} (found : tape.entry i = .ok e) :
    e.Elementary := by
  obtain ⟨v, there⟩ := entry_eq_ok.1 found
  exact (lies _ (Array.mem_of_getElem? there)).1

theorem Over.not_call (lies : tape.Over D) {i place n : Nat} {args : List Nat} :
    tape.entry i ≠ .ok (.call place args n) :=
  fun found => lies.elementary found

theorem Over.not_result (lies : tape.Over D) {i owner : Nat} : tape.entry i ≠ .ok (.result owner) :=
  fun found => lies.elementary found

private theorem over_ofInputs (id : Nat) {x : List B} (meant : ∀ u ∈ x, D u) :
    (ofInputs id x).Over D := by
  intro node member
  obtain ⟨u, given, rfl⟩ := List.mem_map.1 (List.mem_toArray.1 member)
  exact ⟨trivial, meant u given⟩

private theorem image_ofInputs (id : Nat) (x : List B) :
    (ofInputs id x).image f id' = ofInputs id' (x.map f) := by
  simp [image, ofInputs]

theorem WellFormed.image (wf : tape.WellFormed) (lies : tape.Over D) :
    (tape.image f id').WellFormed where
  inputs_le := by rw [size_image]; exact wf.inputs_le
  inputs i e found := wf.inputs i e (entry_image i ▸ found)
  operands i e found := wf.operands i e (entry_image i ▸ found)
  atomics i place args n found := absurd (entry_image i ▸ found) lies.not_call
  calls i place args n found := absurd (entry_image i ▸ found) lies.not_call
  results j owner found := absurd (entry_image j ▸ found) lies.not_result

theorem Over.onlyBuiltIns [Scalar F] [Base B F] (lies : tape.Over D) : tape.OnlyBuiltIns :=
  fun _ _ _ _ found => absurd found lies.not_call

theorem Over.image (lies : tape.Over D) : (tape.image f id').Over fun _ => True := by
  intro node member
  obtain ⟨node, there, rfl⟩ := Array.mem_map.1 member
  exact ⟨(lies node there).1, trivial⟩

section Pruning

variable {outputs : List Nat} {marks : Array Bool}

private theorem live_image : (tape.image f id').live outputs = tape.live outputs := by
  unfold live
  simp only [size_image, entry_image]
  rfl

private theorem foldlM_image {ε σ σ' α : Type} {g : σ → σ'} {step : σ → α → Except ε σ}
    {step' : σ' → α → Except ε σ'} {xs : List α} {s t : σ} {s' : σ'} (start : s' = g s)
    (each : ∀ x ∈ xs, ∀ s t, step s x = .ok t → step' (g s) x = .ok (g t))
    (done : xs.foldlM step s = .ok t) : xs.foldlM step' s' = .ok (g t) := by
  induction xs generalizing s s' with
  | nil =>
    obtain rfl := Except.ok.inj done
    exact congrArg Except.ok start
  | cons x xs ih =>
    rw [List.foldlM_cons] at done ⊢
    obtain ⟨u, first, rest⟩ := bind_eq_ok.1 done
    rw [start, each x List.mem_cons_self s u first]
    exact ih rfl (fun y member => each y (List.mem_cons_of_mem x member)) rest

private theorem compact_image (f : B → B') (id' : Nat) (done : tape.compact marks = .ok next) :
    (tape.image f id').compact marks = .ok (next.image f id') := by
  obtain ⟨nodes, walked, last⟩ := bind_eq_ok.1 done
  obtain rfl := Except.ok.inj last
  refine bind_eq_ok.2 ⟨nodes.map fun node => ⟨node.entry, f node.value⟩, ?_, rfl⟩
  rw [size_image]
  refine foldlM_image (g := Array.map fun node : Node B => (⟨node.entry, f node.value⟩ : Node B'))
    Array.map_empty.symm ?_ walked
  intro i _ s t stepped
  obtain ⟨flag, read, stepped⟩ := bind_eq_ok.1 stepped
  refine bind_eq_ok.2 ⟨flag, read, ?_⟩
  cases flag with
  | false =>
    obtain rfl := Except.ok.inj stepped
    rfl
  | true =>
    obtain ⟨node, found, stepped⟩ := bind_eq_ok.1 stepped
    obtain ⟨renamed, changed, last⟩ := bind_eq_ok.1 stepped
    obtain rfl := Except.ok.inj last
    have there := (node_image f id' i).trans
      (congrArg (Option.map _) (fetch_eq_ok_iff.1 found))
    refine bind_eq_ok.2 ⟨_, fetch_eq_ok_iff.2 there, bind_eq_ok.2 ⟨renamed, changed, ?_⟩⟩
    rw [Array.map_push]
    rfl

private theorem Over.compact (lies : tape.Over D) (done : tape.compact marks = .ok next) :
    next.Over D := by
  obtain ⟨nodes, walked, last⟩ := bind_eq_ok.1 done
  obtain rfl := Except.ok.inj last
  rw [List.range_eq_range'] at walked
  refine foldlM_up_kept (P := fun _ (nodes : Array (Node B)) => ∀ node ∈ nodes,
    node.entry.Elementary ∧ D node.value) ?_
    (fun _ member => absurd member (Array.not_mem_empty _)) walked
  intro i s t _ _ kept stepped
  obtain ⟨flag, _, stepped⟩ := bind_eq_ok.1 stepped
  cases flag with
  | false =>
    obtain rfl := Except.ok.inj stepped
    exact kept
  | true =>
    obtain ⟨node, found, stepped⟩ := bind_eq_ok.1 stepped
    obtain ⟨renamed, changed, last⟩ := bind_eq_ok.1 stepped
    obtain rfl := Except.ok.inj last
    obtain ⟨elementary, meant⟩ := lies node (Array.mem_of_getElem? (fetch_eq_ok_iff.1 found))
    intro node' member
    rcases Array.mem_push.1 member with before | rfl
    · exact kept node' before
    · exact ⟨elementary.rename changed, meant⟩

private theorem prune_image (f : B → B') (id' : Nat) {pruned : Pruned B} (lies : tape.Over D)
    (done : tape.prune outputs = .ok pruned) :
    pruned.tape.Over D ∧ (tape.image f id').prune outputs =
      .ok ⟨pruned.tape.image f id', pruned.outputs, pruned.removed⟩ := by
  obtain ⟨marks, walked, done⟩ := bind_eq_ok.1 done
  obtain ⟨small, kept, done⟩ := bind_eq_ok.1 done
  obtain ⟨js, placed, last⟩ := bind_eq_ok.1 done
  obtain rfl := Except.ok.inj last
  refine ⟨lies.compact kept, bind_eq_ok.2 ⟨marks, live_image.trans walked,
    bind_eq_ok.2 ⟨_, compact_image f id' kept, bind_eq_ok.2 ⟨js, placed, ?_⟩⟩⟩⟩
  rw [size_image, size_image]
  rfl

end Pruning

end Tape

/-- A value mapped, where a variable of one recording becomes the same variable of another one, and
every other value a parameter. -/
def Tracked.image (f : B → B') (id id' : Nat) (x : Tracked B) : Tracked B' :=
  ⟨f x.value, (x.indexOn id).elim .inline (.onTape id')⟩

section Recording

variable {f : B → B'} {id id' : Nat}

@[simp] theorem Tracked.indexOn_image (x : Tracked B) :
    (x.image f id id').indexOn id' = x.indexOn id := by
  unfold Tracked.image
  cases x.indexOn id with
  | none => rfl
  | some i => exact if_pos rfl

private theorem Tracked.image_onTape (v : B) (i : Nat) :
    (⟨v, .onTape id i⟩ : Tracked B).image f id id' = ⟨f v, .onTape id' i⟩ := by
  rw [Tracked.image, show (⟨v, .onTape id i⟩ : Tracked B).indexOn id = some i from if_pos rfl]
  rfl

variable {D : B → Prop} {tape : Tape B} {registry : Registry B} {registry' : Registry B'}

private theorem Tape.embed_image (same : tape.id = id) (x : Tracked B) :
    (tape.image f id').embed (x.image f id id') =
      ((tape.embed x).1, (tape.embed x).2.image f id') := by
  unfold Tape.embed
  rw [show (tape.image f id').id = id' from rfl, Tracked.indexOn_image, same]
  cases x.indexOn id with
  | some i => rfl
  | none => exact Tape.push_image .const x.value

private theorem Tape.Over.embed (lies : tape.Over D) {x : Tracked B} (meant : D x.value) :
    (tape.embed x).2.Over D := by
  unfold Tape.embed
  cases x.indexOn tape.id with
  | some i => exact lies
  | none => exact lies.push trivial meant

/-- A recording that has come to a tape and a recorder whose image another recording has come to,
with values that are among those that are meant. -/
structure Copied (D : B → Prop) (f : B → B') (id id' : Nat) (registry : Registry B)
    (registry' : Registry B') (ys : List (Tracked B)) (r : Recorder B) (r' : Recorder B')
    (next : Tape B) : Prop where
  recorder : r = ⟨some next, registry⟩
  image : r' = ⟨some (next.image f id'), registry'⟩
  same : next.id = id
  lies : next.Over D
  meant : ∀ y ∈ ys, D y.value

end Recording

namespace Step

variable {f : B → B'}

/-- A step whose value from outside, if it brings one, is mapped; it becomes a parameter. -/
def map (f : B → B') : Step B → Step B'
  | .bring x => .bring (.parameter (f x.value))
  | .copy a => .copy a
  | .unary op a => .unary op a
  | .binary op a b => .binary op a b
  | .compare c a b => .compare c a b
  | .max a b => .max a b
  | .min a b => .min a b
  | .clip a lo hi => .clip a lo hi
  | .builtIn b args => .builtIn b args
  | .call id args => .call id args

/-- The steps that bring a value, repeat one or combine values by an elementary operation. -/
def Elementary : Step B → Prop
  | .bring _ | .copy _ | .unary _ _ | .binary _ _ _ => True
  | .compare _ _ _ | .max _ _ | .min _ _ | .clip _ _ _ | .builtIn _ _ | .call _ _ => False

/-- What a step brings from outside is among the values that are meant. -/
def Within (D : B → Prop) : Step B → Prop
  | .bring x => D x.value
  | _ => True

theorem Elementary.map {s : Step B} (elementary : s.Elementary) (f : B → B') :
    (s.map f).Elementary := by
  cases s with
  | bring | copy | unary | binary => trivial
  | compare | max | min | clip | builtIn | call => cases elementary

private theorem resolve_of_elementary [Scalar F] [Base B F] {s : Step B} (elementary : s.Elementary)
    (env : List (Tracked B)) : s.resolve env = .ok s := by
  cases s with
  | bring | copy | unary | binary => rfl
  | compare | max | min | clip | builtIn | call => cases elementary

end Step

section Runs

variable [Scalar F] [Base B F] [Base B' F] {D : B → Prop} {f : B → B'} {id : Nat} (id' : Nat)
  {tape : Tape B} {registry : Registry B} (registry' : Registry B') {r : Recorder B}

private theorem Tracked.unary_image (hom : Base.Homomorphism D f) (same : tape.id = id)
    (lies : tape.Over D) (op : UnaryOp) {x : Tracked B} (meant : D x.value) {y : Tracked B}
    (done : x.unary op ⟨some tape, registry⟩ = (.ok y, r)) :
    ∃ next r', (x.image f id id').unary op ⟨some (tape.image f id'), registry'⟩ =
        (.ok (y.image f id id'), r') ∧ Copied D f id id' registry registry' [y] r r' next := by
  obtain ⟨meant', value⟩ := hom.map op.onElem meant
  have value : op.eval (x.image f id id').value = f (op.eval x.value) := value.symm
  unfold Tracked.unary at done ⊢
  rw [run_bind_ok (run_get _)] at done ⊢
  have here : Recorder.indexOf? ⟨some tape, registry⟩ x = x.indexOn id := same ▸ rfl
  have here' : Recorder.indexOf? ⟨some (tape.image f id'), registry'⟩ (x.image f id id') =
      x.indexOn id := Tracked.indexOn_image x
  simp only [here, here', value] at done ⊢
  cases place : x.indexOn id with
  | none =>
    rw [place] at done
    obtain ⟨answer, rfl⟩ := Prod.mk.inj done
    obtain rfl := Except.ok.inj answer
    exact ⟨tape, _, rfl, rfl, rfl, same, lies, List.forall_mem_singleton.2 meant'⟩
  | some a =>
    rw [place] at done
    obtain ⟨answer, rfl⟩ := Prod.mk.inj done
    obtain rfl := Except.ok.inj answer
    simp only [Tape.push_image]
    subst same
    refine ⟨_, _, ?_, rfl, rfl, rfl, lies.push (e := .unary op a) trivial meant',
      List.forall_mem_singleton.2 meant'⟩
    rw [Tracked.image_onTape]
    rfl

private theorem Base.Homomorphism.eval (hom : Base.Homomorphism D f) (op : BinaryOp) {u v : B}
    (left : D u) (right : D v) :
    ∃ w, op.eval u v = .ok w ∧ D w ∧ op.eval (f u) (f v) = .ok (f w) := by
  cases op with
  | add | sub | mul | div => exact hom.zipWith _ _ left right

private theorem Tracked.binary_image (hom : Base.Homomorphism D f) (same : tape.id = id)
    (lies : tape.Over D) (op : BinaryOp) {x y : Tracked B} (left : D x.value) (right : D y.value)
    {z : Tracked B} (done : x.binary op y ⟨some tape, registry⟩ = (.ok z, r)) :
    ∃ next r', (x.image f id id').binary op (y.image f id id') ⟨some (tape.image f id'), registry'⟩ =
        (.ok (z.image f id id'), r') ∧ Copied D f id id' registry registry' [z] r r' next := by
  obtain ⟨w, value, meant, value'⟩ := hom.eval op left right
  have value' : op.eval (x.image f id id').value (y.image f id id').value = .ok (f w) := value'
  unfold Tracked.binary at done ⊢
  rw [run_bind_ok (run_get _), run_bind_ok (run_lift _ _ |>.trans (by rw [value']))]
  rw [run_bind_ok (run_get _), run_bind_ok (run_lift _ _ |>.trans (by rw [value]))] at done
  subst same
  have params : (((x.image f tape.id id').indexOn id').isNone &&
      ((y.image f tape.id id').indexOn id').isNone) =
      ((x.indexOn tape.id).isNone && (y.indexOn tape.id).isNone) := by
    rw [indexOn_image, indexOn_image]
  show ∃ next r', (if (((x.image f tape.id id').indexOn id').isNone &&
      ((y.image f tape.id id').indexOn id').isNone) = true then _ else _ :
      Recording B' (Tracked B')) _ = _ ∧ _
  rw [params]
  cases plain : ((x.indexOn tape.id).isNone && (y.indexOn tape.id).isNone) with
  | true =>
    simp only [plain, if_true] at done ⊢
    obtain ⟨answer, rfl⟩ := Prod.mk.inj done
    obtain rfl := Except.ok.inj answer
    exact ⟨tape, _, rfl, rfl, rfl, rfl, lies, List.forall_mem_singleton.2 meant⟩
  | false =>
    simp only [plain, Bool.false_eq_true, if_false] at done ⊢
    obtain ⟨answer, rfl⟩ := Prod.mk.inj done
    obtain rfl := Except.ok.inj answer
    have same := tape.id_embed x
    have same' := ((tape.embed x).2.id_embed y).trans same
    simp only [Tape.embed_image rfl, Tape.embed_image same, Tape.push_image]
    refine ⟨_, _, ?_, rfl, rfl, same', ((lies.embed left).embed right).push (e := .binary op _ _)
      trivial meant, List.forall_mem_singleton.2 meant⟩
    rw [Tracked.image_onTape]
    rfl

/-- A step recorded on a tape, and the mapped step on its image. -/
private theorem Step.record_image (hom : Base.Homomorphism D f) (same : tape.id = id)
    (lies : tape.Over D)
    {s : Step B} (elementary : s.Elementary) (within_ : s.Within D) (foreign : s.Foreign id)
    {env ys : List (Tracked B)} (meant : ∀ t ∈ env, D t.value)
    (done : s.record env ⟨some tape, registry⟩ = (.ok ys, r)) :
    ∃ next r', (s.map f).record (env.map (Tracked.image f id id'))
        ⟨some (tape.image f id'), registry'⟩ = (.ok (ys.map (Tracked.image f id id')), r') ∧
      Copied D f id id' registry registry' ys r r' next := by
  have given : ∀ y : Tracked B, D y.value →
      Copied D f id id' registry registry' [y] ⟨some tape, registry⟩
        ⟨some (tape.image f id'), registry'⟩ tape := fun y meant =>
    ⟨rfl, rfl, same, lies, List.forall_mem_singleton.2 meant⟩
  cases s with
  | bring x =>
    obtain ⟨answer, rfl⟩ := Prod.mk.inj done
    obtain rfl := Except.ok.inj answer
    have outside : x.indexOn id = none := foreign
    refine ⟨tape, _, ?_, given x within_⟩
    rw [List.map_singleton, Tracked.image, outside]
    rfl
  | copy a =>
    obtain ⟨t, found, done⟩ := run_lift_bind_eq_ok.1 done
    obtain ⟨answer, rfl⟩ := Prod.mk.inj done
    obtain rfl := Except.ok.inj answer
    exact ⟨tape, _, run_lift_bind_eq_ok.2 ⟨_, pick_map found, rfl⟩,
      given t (meant t (mem_of_pick found))⟩
  | unary op a =>
    obtain ⟨t, found, done⟩ := run_lift_bind_eq_ok.1 done
    obtain ⟨y, r₁, recorded, done⟩ := run_bind_eq_ok.1 done
    obtain ⟨answer, rfl⟩ := Prod.mk.inj done
    obtain rfl := Except.ok.inj answer
    obtain ⟨next, r', recorded', copied⟩ := Tracked.unary_image id' registry' hom same lies op
      (meant t (mem_of_pick found)) recorded
    exact ⟨next, r', run_lift_bind_eq_ok.2 ⟨_, pick_map found,
      run_bind_eq_ok.2 ⟨_, r', recorded', rfl⟩⟩, copied⟩
  | binary op a b =>
    obtain ⟨t, found, done⟩ := run_lift_bind_eq_ok.1 done
    obtain ⟨t', found', done⟩ := run_lift_bind_eq_ok.1 done
    obtain ⟨y, r₁, recorded, done⟩ := run_bind_eq_ok.1 done
    obtain ⟨answer, rfl⟩ := Prod.mk.inj done
    obtain rfl := Except.ok.inj answer
    obtain ⟨next, r', recorded', copied⟩ := Tracked.binary_image id' registry' hom same lies op
      (meant t (mem_of_pick found)) (meant t' (mem_of_pick found')) recorded
    exact ⟨next, r', run_lift_bind_eq_ok.2 ⟨_, pick_map found, run_lift_bind_eq_ok.2
      ⟨_, pick_map found', run_bind_eq_ok.2 ⟨_, r', recorded', rfl⟩⟩⟩, copied⟩
  | compare | max | min | clip | builtIn | call => cases elementary

private theorem Program.record_image (hom : Base.Homomorphism D f) (same : tape.id = id)
    (lies : tape.Over D) {steps resolved : List (Step B)} (elementary : ∀ s ∈ steps, s.Elementary)
    (within_ : ∀ s ∈ steps, s.Within D) (foreign : ∀ s ∈ steps, s.Foreign id)
    {env final : List (Tracked B)} (meant : ∀ t ∈ env, D t.value)
    (done : record steps env ⟨some tape, registry⟩ = (.ok (final, resolved), r)) :
    ∃ next r', record (steps.map (Step.map f)) (env.map (Tracked.image f id id'))
        ⟨some (tape.image f id'), registry'⟩ =
          (.ok (final.map (Tracked.image f id id'), resolved.map (Step.map f)), r') ∧
      Copied D f id id' registry registry' final r r' next := by
  induction steps generalizing tape env resolved with
  | nil =>
    obtain ⟨answer, rfl⟩ := Prod.mk.inj done
    obtain ⟨rfl, rfl⟩ := Prod.mk.inj (Except.ok.inj answer)
    exact ⟨tape, _, rfl, rfl, rfl, same, lies, meant⟩
  | cons s steps ih =>
    have first := elementary s List.mem_cons_self
    obtain ⟨s', resolves, done⟩ := run_lift_bind_eq_ok.1 done
    obtain rfl := Except.ok.inj (resolves.symm.trans (Step.resolve_of_elementary first env))
    obtain ⟨ys, r₁, recorded, done⟩ := run_bind_eq_ok.1 done
    obtain ⟨⟨final', rest⟩, r₂, later, done⟩ := run_bind_eq_ok.1 done
    obtain ⟨answer, rfl⟩ := Prod.mk.inj done
    obtain ⟨rfl, rfl⟩ := Prod.mk.inj (Except.ok.inj answer)
    obtain ⟨mid, r₁', recorded', copied⟩ := Step.record_image id' registry' hom same lies first
      (within_ s' List.mem_cons_self) (foreign s' List.mem_cons_self) meant recorded
    obtain rfl := copied.recorder
    obtain ⟨next, r', later', copied'⟩ := ih copied.same copied.lies
      (fun s member => elementary s (List.mem_cons_of_mem _ member))
      (fun s member => within_ s (List.mem_cons_of_mem _ member))
      (fun s member => foreign s (List.mem_cons_of_mem _ member))
      (fun t member => (List.mem_append.1 member).elim (meant t) (copied.meant t)) later
    refine ⟨next, r', ?_, copied'⟩
    refine run_lift_bind_eq_ok.2 ⟨_, Step.resolve_of_elementary (first.map f) _, ?_⟩
    refine run_bind_eq_ok.2 ⟨_, r₁', recorded', run_bind_eq_ok.2 ⟨(_, _), r', ?_, rfl⟩⟩
    rw [copied.image, ← List.map_append]
    exact later'

omit [Scalar F] [Base B F] [Base B' F] in
private theorem Tape.placed_image (same : tape.id = id) (lies : tape.Over D) {y : Tracked B}
    (meant : D y.value) {i : Nat} {is js : List Nat} {next : Tape B}
    (done : placed (tape, is) (y, i) = .ok (next, js)) :
    placed (tape.image f id', is) (y.image f id id', i) = .ok (next.image f id', js) ∧
      next.id = id ∧ next.Over D := by
  obtain ⟨v, place⟩ := y
  cases place with
  | inline =>
    obtain ⟨rfl, rfl⟩ := Prod.mk.inj (Except.ok.inj done)
    refine ⟨?_, same, lies.push trivial meant⟩
    show Except.ok (((tape.image f id').push .const (f v)).2, is ++ [(tape.image f id').size]) = _
    rw [Tape.push_image, Tape.size_image]
    rfl
  | onTape t index =>
    by_cases here : t = tape.id
    · subst here
      obtain ⟨rfl, rfl⟩ := Prod.mk.inj (Except.ok.inj ((if_pos rfl).symm.trans done))
      rw [← same, Tracked.image_onTape]
      exact ⟨if_pos rfl, rfl, lies⟩
    · cases (if_neg here).symm.trans done

omit [Scalar F] [Base B F] [Base B' F] in
private theorem Tape.outputs_image (same : tape.id = id) (lies : tape.Over D)
    {ys : List (Tracked B)} (meant : ∀ y ∈ ys, D y.value) {next : Tape B} {js : List Nat}
    (done : tape.outputs ys = .ok (next, js)) :
    (tape.image f id').outputs (ys.map (Tracked.image f id id')) = .ok (next.image f id', js) ∧
      next.Over D := by
  have walk : ∀ (ys : List (Tracked B)) (start : Nat) (is : List Nat) (tape : Tape B),
      tape.id = id → tape.Over D → (∀ y ∈ ys, D y.value) →
      (ys.zipIdx start).foldlM placed (tape, is) = .ok (next, js) →
      ((ys.map (Tracked.image f id id')).zipIdx start).foldlM placed (tape.image f id', is) =
        .ok (next.image f id', js) ∧ next.Over D := by
    intro ys
    induction ys with
    | nil =>
      intro start is tape _ lies _ done
      obtain ⟨rfl, rfl⟩ := Prod.mk.inj (Except.ok.inj done)
      exact ⟨rfl, lies⟩
    | cons y ys ih =>
      intro start is tape same lies meant done
      obtain ⟨own, others⟩ := List.forall_mem_cons.1 meant
      rw [List.zipIdx_cons, List.foldlM_cons] at done
      rw [List.map_cons, List.zipIdx_cons, List.foldlM_cons]
      obtain ⟨⟨mid, ks⟩, first, rest⟩ := bind_eq_ok.1 done
      obtain ⟨first', same', over'⟩ := placed_image id' same lies own first
      obtain ⟨rest', over''⟩ := ih _ _ _ same' over' others rest
      exact ⟨bind_eq_ok.2 ⟨_, first', rest'⟩, over''⟩
  exact walk ys 0 [] tape same lies meant done

/-- The evaluator of the image of a tape, with the images of the coefficients. -/
def Evaluator.image (f : B → B') (id' : Nat) (e : Evaluator B) : Evaluator B' :=
  ⟨e.tape.image f id', e.outputs, { e.table with cells := e.table.cells.map f }⟩

private theorem Evaluator.image_ofTape (hom : Base.Homomorphism D f) (outputs : List Nat) :
    (ofTape tape outputs).image f id' = ofTape (tape.image f id') outputs := by
  simp [image, ofTape, Coefficients.empty, hom.zero.2]

private theorem Tape.freeze_image (hom : Base.Homomorphism D f) (same : tape.id = id)
    (lies : tape.Over D) {ys : List (Tracked B)} (meant : ∀ y ∈ ys, D y.value) {e : Evaluator B}
    (done : tape.freeze ys = .ok e) :
    (tape.image f id').freeze (ys.map (Tracked.image f id id')) = .ok (e.image f id') ∧
      e.tape.Over D := by
  obtain ⟨⟨next, js⟩, placed, done⟩ := bind_eq_ok.1 done
  obtain ⟨pruned, cut, last⟩ := bind_eq_ok.1 done
  obtain rfl := pure_eq_ok.1 last
  obtain ⟨placed', over'⟩ := Tape.outputs_image (f := f) id' same lies meant placed
  obtain ⟨over'', cut'⟩ := Tape.prune_image f id' over' cut
  refine ⟨bind_eq_ok.2 ⟨_, placed', bind_eq_ok.2 ⟨_, cut', ?_⟩⟩, over''⟩
  rw [Evaluator.image_ofTape id' hom]
  rfl

/-- A program of elementary operations freezes into an evaluator, and the program of the images into
the image of that evaluator. -/
theorem Program.freeze_image (hom : Base.Homomorphism D f) {x : List B} {steps : List (Step B)}
    {outputs : List Nat} {p : Frozen B} (elementary : ∀ s ∈ steps, s.Elementary)
    (foreign : ∀ s ∈ steps, s.Foreign id) (within_ : ∀ s ∈ steps, s.Within D)
    (inputs_within : ∀ u ∈ x, D u) (done : freeze registry id x steps outputs = .ok p) :
    p.evaluator.tape.Over D ∧
      freeze registry' id' (x.map f) (steps.map (Step.map f)) outputs =
        .ok ⟨p.values.map f, p.resolved.map (Step.map f), p.evaluator.image f id'⟩ := by
  obtain ⟨final, tape, registry₁, ys, recorded, gathered, frozen, values⟩ := freeze_eq_ok.1 done
  have start : (inputs id x).map (Tracked.image f id id') = inputs id' (x.map f) := by
    simp [inputs, List.zipIdx_map, Tracked.image_onTape]
  have meant : ∀ t ∈ inputs id x, D t.value := by
    intro t member
    obtain ⟨w, given, rfl⟩ := List.mem_map.1 member
    exact inputs_within _ (List.fst_mem_of_mem_zipIdx given)
  have same : (Tape.ofInputs id x).id = id := rfl
  obtain ⟨next, r', recorded', copied⟩ := record_image id' registry' hom same
    (Tape.over_ofInputs id inputs_within) elementary within_ foreign meant recorded
  obtain ⟨rfl, rfl⟩ : tape = next ∧ registry₁ = registry := by
    simpa using copied.recorder
  have meant' : ∀ y ∈ ys, D y.value := fun y member =>
    copied.meant y (mem_of_gather gathered y member)
  obtain ⟨frozen', lies⟩ := Tape.freeze_image id' hom copied.same copied.lies meant' frozen
  refine ⟨lies, freeze_eq_ok.2 ⟨_, _, registry', _, ?_, gather_map gathered, frozen', ?_⟩⟩
  · rw [← start, ← Tape.image_ofInputs id, recorded', copied.image]
  · rw [values, List.map_map, List.map_map]
    rfl

end Runs

end TaylorTape
