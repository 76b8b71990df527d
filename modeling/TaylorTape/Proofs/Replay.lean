import TaylorTape.Proofs.Recorded

/-!
Recording a program simulates evaluating it.

Step by step, the tape grows and the tracked values stay known to it.  If the resolved program can
be evaluated at another point, the tape has a solution there in which the tracked values mean the
values of that evaluation.  At the recording point itself the resolved program gives the recorded
values.
-/

set_option autoImplicit false
set_option relaxedAutoImplicit false

namespace TaylorTape

variable {B F : Type} [Scalar F] [Base B F]

section Environments

variable {α β : Type} {R : α → β → Prop} {env : List α} {vals : List β}

private theorem pick_related (related : List.Forall₂ R env vals) {a : Nat} {t : α} {v : β}
    (left : pick env a = .ok t) (right : pick vals a = .ok v) : R t v := by
  rw [pick_eq_ok_iff] at left right
  induction related generalizing a with
  | nil => simp at left
  | cons first _ ih =>
    cases a with
    | zero =>
      obtain rfl := Option.some.inj left
      obtain rfl := Option.some.inj right
      exact first
    | succ a => exact ih left right

theorem gather_related (related : List.Forall₂ R env vals) {places : List Nat} {ts : List α}
    {vs : List β} (left : Step.gather env places = .ok ts)
    (right : Step.gather vals places = .ok vs) : List.Forall₂ R ts vs := by
  unfold Step.gather at left right
  have lefts := mapM_eq_ok.1 left
  have rights := mapM_eq_ok.1 right
  clear left right
  induction lefts generalizing vs with
  | nil =>
    cases rights
    exact .nil
  | cons first _ ih =>
    cases rights with
    | cons first' rest => exact .cons (pick_related related first first') (ih rest)

/-- What can be gathered from one environment can be gathered from a related one. -/
theorem gather_exists (related : List.Forall₂ R env vals) {places : List Nat} {ts : List α}
    (left : Step.gather env places = .ok ts) :
    ∃ vs, Step.gather vals places = .ok vs ∧ List.Forall₂ R ts vs := by
  have each : ∀ a ∈ places, ∃ v, pick vals a = .ok v := by
    intro a member
    obtain ⟨i, low, rfl⟩ := List.getElem_of_mem member
    obtain ⟨t, _, found⟩ := getElem?_of_mapM left (List.getElem?_eq_getElem low)
    have inside := (List.getElem?_eq_some_iff.1 (pick_eq_ok_iff.1 found)).1
    exact ⟨_, pick_eq_ok_iff.2 (List.getElem?_eq_getElem (related.length_eq ▸ inside))⟩
  obtain ⟨vs, right⟩ : ∃ vs, Step.gather vals places = .ok vs := by
    unfold Step.gather
    clear left
    induction places with
    | nil => exact ⟨[], rfl⟩
    | cons a places ih =>
      obtain ⟨v, first⟩ := each a List.mem_cons_self
      obtain ⟨vs, rest⟩ := ih fun a member => each a (List.mem_cons_of_mem _ member)
      exact ⟨v :: vs, by rw [List.mapM_cons, first, ok_bind, rest]; rfl⟩
  exact ⟨vs, right, gather_related related left right⟩

theorem mem_of_pick {a : Nat} {t : α} (found : pick env a = .ok t) : t ∈ env :=
  List.mem_of_getElem? (pick_eq_ok_iff.1 found)

theorem mem_of_gather {places : List Nat} {ts : List α} (found : Step.gather env places = .ok ts) :
    ∀ t ∈ ts, t ∈ env := by
  intro t member
  obtain ⟨a, _, picked⟩ := exists_of_mem_mapM found member
  exact mem_of_pick picked

theorem pick_map {f : α → β} {a : Nat} {t : α} (found : pick env a = .ok t) :
    pick (env.map f) a = .ok (f t) := by
  rw [pick_eq_ok_iff] at found ⊢
  rw [List.getElem?_map, found]
  rfl

theorem gather_map {f : α → β} {places : List Nat} {ts : List α}
    (found : Step.gather env places = .ok ts) :
    Step.gather (env.map f) places = .ok (ts.map f) := by
  unfold Step.gather at found ⊢
  rw [mapM_eq_ok] at found ⊢
  rw [List.forall₂_map_right_iff]
  exact found.imp fun a t => pick_map

end Environments

omit [Scalar F] [Base B F] in
private theorem only_result {work : Recording B (List (Tracked B))} {ys : List (Tracked B)}
    {r r' : Recorder B}
    (done : ((work >>= fun zs => liftM (Tracked.only zs)) >>= fun y => pure [y] :
      Recording B (List (Tracked B))) r = (.ok ys, r')) :
    work r = (.ok ys, r') := by
  obtain ⟨y, s, inner, last⟩ := run_bind_eq_ok.1 done
  obtain ⟨answer, rfl⟩ := Prod.mk.inj last
  obtain rfl := Except.ok.inj answer
  obtain ⟨zs, s', called, checked⟩ := run_bind_eq_ok.1 inner
  rw [run_lift] at checked
  obtain ⟨one, rfl⟩ := Prod.mk.inj checked
  unfold Tracked.only at one
  split at one
  · obtain rfl := Except.ok.inj one
    exact called
  · cases one

/-- What is recorded of a built-in is a call of its id. -/
theorem BuiltIn.call_of_record {b : BuiltIn} {ts ys : List (Tracked B)} {r r' : Recorder B}
    (done : b.record ts r = (.ok ys, r')) :
    (b.enter >>= fun id => Tracked.call id ts) r = (.ok ys, r') := by
  unfold record at done
  split at done
  · exact only_result done
  · exact only_result done
  · exact only_result done
  · exact only_result done
  · rename_i n x
    refine only_result ?_
    rw [← done]
    rfl
  · rename_i n x
    rw [← done]
    rfl
  · exact done

/-- How the results `ys` of an operation follow the values `ts` in front of it, given its rule on
plain values: at the recording point by their own values, and in every solution of the tape by their
meanings there. -/
structure Follows (tape next : Tape B) (r : Recorder B) (ts ys : List (Tracked B))
    (rule : List B → Except Error (List B)) : Prop where
  faithful : r.registry.Faithful
  builtIns : tape.TableOfBuiltIns → next.TableOfBuiltIns
  here : rule (ts.map Tracked.value) = .ok (ys.map Tracked.value)
  solves : ∀ x c vs us, tape.Solves x c → List.Forall₂ (tape.Means c) ts vs → rule vs = .ok us →
    ∃ c', next.Solves x c' ∧ (∀ i < tape.size, c' i = c i) ∧ List.Forall₂ (next.Means c') ys us

namespace Step

variable {registry : Registry B} {tape : Tape B} {r : Recorder B} {env ys : List (Tracked B)}

/-- The operations that neither call an atomic of their own nor choose. -/
def Straight : Step B → Prop
  | .max _ _ | .min _ _ | .clip _ _ _ | .call _ _ => False
  | _ => True

private theorem nothing_recorded (consistent : Consistent registry tape)
    {rule : List B → Except Error (List B)} (knows : ∀ y ∈ ys, tape.Knows y)
    (here : rule (env.map Tracked.value) = .ok (ys.map Tracked.value))
    (same : ∀ c vs us, List.Forall₂ (tape.Means c) env vs → rule vs = .ok us →
      List.Forall₂ (tape.Means c) ys us) :
    ∃ next, Advances registry tape ⟨some tape, registry⟩ next ys ∧
      (registry.Faithful → Follows tape next ⟨some tape, registry⟩ env ys rule) := by
  refine ⟨tape, ⟨rfl, consistent, .refl tape, .refl registry, knows⟩, fun faithful => ?_⟩
  exact ⟨faithful, id, here, fun _ c vs us solves means result =>
    ⟨c, solves, fun _ _ => rfl, same c vs us means result⟩⟩

private theorem builtIn_advances [LawfulBase B] {b : BuiltIn} {args : List Nat}
    (consistent : Consistent registry tape) (knows : ∀ t ∈ env, tape.Knows t)
    (done : (Step.builtIn b args).record env ⟨some tape, registry⟩ = (.ok ys, r)) :
    ∃ next, Advances registry tape r next ys ∧
      (registry.Faithful → Follows tape next r env ys (Step.builtIn b args).evaluate) := by
  obtain ⟨ts, found, done⟩ := run_lift_bind_eq_ok.1 done
  have done := BuiltIn.call_of_record done
  obtain ⟨id, registry', entered, numbered, extends_⟩ :=
    b.enter_numbered (r := ⟨some tape, registry⟩) consistent.numbered
  rw [run_bind_ok entered] at done
  have consistent' : Consistent registry' tape :=
    ⟨numbered, consistent.wellFormed,
      fun place e there => extends_ e.id e (consistent.table place e there)⟩
  obtain ⟨e, next, there, advances, kept, only, call⟩ := Tracked.call_advances consistent'
    (fun t member => knows t (mem_of_gather found t member)) done
  refine ⟨next, ⟨advances.recording, advances.consistent, advances.extends_,
    extends_.trans advances.registers, advances.knows⟩, fun faithful => ?_⟩
  obtain ⟨id', registry'', e', entered', faithful', _, there', same⟩ :=
    b.enter_faithful (r := ⟨some tape, registry⟩) faithful
  obtain ⟨sameId, sameState⟩ := Prod.mk.inj (entered.symm.trans entered')
  obtain rfl := Except.ok.inj sameId
  obtain rfl : registry' = registry'' := congrArg Recorder.registry sameState
  obtain rfl : e = e' := Option.some.inj (there.symm.trans there')
  obtain ⟨stepped, solves⟩ := call b same
  refine ⟨kept ▸ faithful', fun builtIns place a atomic => ?_, ?_, ?_⟩
  · rcases only place a atomic with rfl | old
    · exact ⟨b, same⟩
    · exact builtIns place a old
  · show gather (env.map Tracked.value) args >>= _ = _
    rw [gather_map found, ok_bind, BuiltIn.step_self_iff.1 stepped]
  · intro x c vs us solved means result
    obtain ⟨ws, gathered, computed⟩ := bind_eq_ok.1 result
    exact solves x c ws us solved (gather_related means found gathered)
      (BuiltIn.step_self_iff.2 computed)

/-- A step that is straight is followed by its plain evaluation. -/
private theorem straight_advances [LawfulBase B] {s : Step B} (straight : s.Straight)
    (foreign : s.Foreign tape.id) (consistent : Consistent registry tape)
    (knows : ∀ t ∈ env, tape.Knows t)
    (done : s.record env ⟨some tape, registry⟩ = (.ok ys, r)) :
    ∃ next, Advances registry tape r next ys ∧
      (registry.Faithful → Follows tape next r env ys s.evaluate) := by
  cases s with
  | bring x =>
    obtain ⟨answer, rfl⟩ := Prod.mk.inj done
    obtain rfl := Except.ok.inj answer
    refine nothing_recorded consistent ?_ rfl ?_
    · refine List.forall_mem_singleton.2 fun j here => ?_
      rw [show x.indexOn tape.id = none from foreign] at here
      cases here
    · intro c vs us _ result
      obtain rfl := Except.ok.inj result
      exact .cons ((Tape.means_of_none foreign).2 rfl) .nil
  | copy a =>
    obtain ⟨t, found, done⟩ := run_lift_bind_eq_ok.1 done
    obtain ⟨answer, rfl⟩ := Prod.mk.inj done
    obtain rfl := Except.ok.inj answer
    refine nothing_recorded consistent ?_ ?_ ?_
    · exact List.forall_mem_singleton.2 (knows t (mem_of_pick found))
    · show pick (env.map Tracked.value) a >>= _ = _
      rw [pick_map found]
      rfl
    · intro c vs us means result
      obtain ⟨v, found', result⟩ := bind_eq_ok.1 result
      obtain rfl := pure_eq_ok.1 result
      exact .cons (pick_related means found found') .nil
  | unary op a =>
    obtain ⟨t, found, done⟩ := run_lift_bind_eq_ok.1 done
    obtain ⟨y, r', recorded, done⟩ := run_bind_eq_ok.1 done
    obtain ⟨answer, rfl⟩ := Prod.mk.inj done
    obtain rfl := Except.ok.inj answer
    obtain ⟨next, advances, same, atomics, value, solves⟩ :=
      Tracked.unary_advances consistent (knows t (mem_of_pick found)) recorded
    refine ⟨next, advances, fun faithful => ⟨same ▸ faithful, ?_, ?_, ?_⟩⟩
    · exact fun builtIns place e there => builtIns place e (atomics ▸ there)
    · show pick (env.map Tracked.value) a >>= _ = _
      rw [pick_map found, List.map_singleton, value]
      rfl
    · intro x c vs us solved means result
      obtain ⟨v, found', result⟩ := bind_eq_ok.1 result
      obtain rfl := pure_eq_ok.1 result
      obtain ⟨c', solved', agrees, meant⟩ := solves x c v solved (pick_related means found found')
      exact ⟨c', solved', agrees, .cons meant .nil⟩
  | binary op a b =>
    obtain ⟨t, found, done⟩ := run_lift_bind_eq_ok.1 done
    obtain ⟨t', found', done⟩ := run_lift_bind_eq_ok.1 done
    obtain ⟨y, r', recorded, done⟩ := run_bind_eq_ok.1 done
    obtain ⟨answer, rfl⟩ := Prod.mk.inj done
    obtain rfl := Except.ok.inj answer
    obtain ⟨next, advances, same, atomics, value, solves⟩ := Tracked.binary_advances consistent
      (knows t (mem_of_pick found)) (knows t' (mem_of_pick found')) recorded
    refine ⟨next, advances, fun faithful => ⟨same ▸ faithful, ?_, ?_, ?_⟩⟩
    · exact fun builtIns place e there => builtIns place e (atomics ▸ there)
    · show pick (env.map Tracked.value) a >>= _ = _
      rw [pick_map found, ok_bind, pick_map found', ok_bind, value]
      rfl
    · intro x c vs us solved means result
      obtain ⟨v, picked, result⟩ := bind_eq_ok.1 result
      obtain ⟨v', picked', result⟩ := bind_eq_ok.1 result
      obtain ⟨w, computed, result⟩ := bind_eq_ok.1 result
      obtain rfl := pure_eq_ok.1 result
      obtain ⟨c', solved', agrees, meant⟩ := solves x c v v' w solved
        (pick_related means found picked) (pick_related means found' picked') computed
      exact ⟨c', solved', agrees, .cons meant .nil⟩
  | compare cmp a b =>
    obtain ⟨t, found, done⟩ := run_lift_bind_eq_ok.1 done
    obtain ⟨t', found', done⟩ := run_lift_bind_eq_ok.1 done
    obtain ⟨truth, compared, done⟩ := run_lift_bind_eq_ok.1 done
    obtain ⟨answer, rfl⟩ := Prod.mk.inj done
    obtain rfl := Except.ok.inj answer
    refine nothing_recorded consistent (by simp) ?_ ?_
    · show pick (env.map Tracked.value) a >>= _ = _
      rw [pick_map found, ok_bind, pick_map found', ok_bind,
        show Base.compare cmp t.value t'.value = .ok truth from compared]
      rfl
    · intro c vs us _ result
      obtain ⟨_, _, result⟩ := bind_eq_ok.1 result
      obtain ⟨_, _, result⟩ := bind_eq_ok.1 result
      obtain ⟨_, _, result⟩ := bind_eq_ok.1 result
      obtain rfl := pure_eq_ok.1 result
      exact .nil
  | builtIn b args => exact builtIn_advances consistent knows done
  | max | min | clip | call => cases straight

omit [Scalar F] in
private theorem max_eq_chosen {a b i : Nat} {x y z : Tracked B} (left : pick env a = .ok x)
    (right : pick env b = .ok y) (larger : x.max y = .ok z) (chosen : chooseMax env a b = .ok i) :
    pick env i = .ok z := by
  unfold chooseMax at chosen
  unfold Tracked.max at larger
  rw [left, ok_bind, right, ok_bind] at chosen
  obtain ⟨truth, compared, rfl⟩ := map_eq_ok.1 (chosen)
  rw [compared] at larger
  obtain rfl := Except.ok.inj larger
  cases truth
  · exact right
  · exact left

omit [Scalar F] in
private theorem min_eq_chosen {a b i : Nat} {x y z : Tracked B} (left : pick env a = .ok x)
    (right : pick env b = .ok y) (smaller : x.min y = .ok z) (chosen : chooseMin env a b = .ok i) :
    pick env i = .ok z := by
  unfold chooseMin at chosen
  unfold Tracked.min at smaller
  rw [left, ok_bind, right, ok_bind] at chosen
  obtain ⟨truth, compared, rfl⟩ := map_eq_ok.1 (chosen)
  rw [compared] at smaller
  obtain rfl := Except.ok.inj smaller
  cases truth
  · exact right
  · exact left

private theorem copy_run {i : Nat} {z : Tracked B} (found : pick env i = .ok z) (r : Recorder B) :
    (Step.copy i).record env r = (.ok [z], r) := by
  show ((liftM (pick env i) : Recording B _) >>= fun z => pure [z]) r = _
  rw [run_bind_ok (run_lift _ r |>.trans (by rw [found]))]
  rfl

private theorem record_resolve {s s' : Step B} {r r' : Recorder B}
    (resolved : s.resolve env = .ok s')
    (done : s.record env r = (.ok ys, r')) : s'.record env r = (.ok ys, r') := by
  cases s with
  | max a b =>
    obtain ⟨i, chosen, rfl⟩ := map_eq_ok.1 resolved
    obtain ⟨x, left, done⟩ := run_lift_bind_eq_ok.1 done
    obtain ⟨y, right, done⟩ := run_lift_bind_eq_ok.1 done
    obtain ⟨z, larger, done⟩ := run_lift_bind_eq_ok.1 done
    rw [copy_run (max_eq_chosen left right larger chosen)]
    exact done
  | min a b =>
    obtain ⟨i, chosen, rfl⟩ := map_eq_ok.1 resolved
    obtain ⟨x, left, done⟩ := run_lift_bind_eq_ok.1 done
    obtain ⟨y, right, done⟩ := run_lift_bind_eq_ok.1 done
    obtain ⟨z, smaller, done⟩ := run_lift_bind_eq_ok.1 done
    rw [copy_run (min_eq_chosen left right smaller chosen)]
    exact done
  | clip a lo hi =>
    obtain ⟨m, chosen, resolved⟩ := bind_eq_ok.1 resolved
    obtain ⟨i, chosen', rfl⟩ := map_eq_ok.1 resolved
    obtain ⟨x, middle, done⟩ := run_lift_bind_eq_ok.1 done
    obtain ⟨y, low, done⟩ := run_lift_bind_eq_ok.1 done
    obtain ⟨z, high, done⟩ := run_lift_bind_eq_ok.1 done
    obtain ⟨w, clipped, done⟩ := run_lift_bind_eq_ok.1 done
    obtain ⟨u, larger, smaller⟩ := bind_eq_ok.1 clipped
    rw [copy_run (min_eq_chosen (max_eq_chosen middle low larger chosen) high smaller chosen')]
    exact done
  | bring | copy | unary | binary | compare | builtIn | call =>
    obtain rfl := Except.ok.inj resolved
    exact done

omit [Scalar F] in
private theorem resolve_cases {s s' : Step B} (resolved : s.resolve env = .ok s') :
    (∃ i, s' = .copy i) ∨ s' = s ∧ (s.Straight ∨ ∃ id args, s = .call id args) := by
  cases s with
  | max a b | min a b =>
    obtain ⟨i, _, rfl⟩ := map_eq_ok.1 resolved
    exact .inl ⟨i, rfl⟩
  | clip a lo hi =>
    obtain ⟨m, _, resolved⟩ := bind_eq_ok.1 resolved
    obtain ⟨i, _, rfl⟩ := map_eq_ok.1 resolved
    exact .inl ⟨i, rfl⟩
  | bring | copy | unary | binary | compare | builtIn =>
    obtain rfl := Except.ok.inj resolved
    exact .inr ⟨rfl, .inl trivial⟩
  | call id args =>
    obtain rfl := Except.ok.inj resolved
    exact .inr ⟨rfl, .inr ⟨id, args, rfl⟩⟩

/-- The step calls no atomic by its id. -/
def CallsBuiltIns : Step B → Prop
  | .call _ _ => False
  | _ => True

/-- Whatever step is recorded, the tape grows and the results are known to it; and unless the step
calls an atomic by its id, its resolved form is followed. -/
theorem record_advances [LawfulBase B] {s s' : Step B} (foreign : s.Foreign tape.id)
    (consistent : Consistent registry tape) (knows : ∀ t ∈ env, tape.Knows t)
    (resolved : s.resolve env = .ok s')
    (done : s.record env ⟨some tape, registry⟩ = (.ok ys, r)) :
    ∃ next, Advances registry tape r next ys ∧
      (registry.Faithful → s.CallsBuiltIns → Follows tape next r env ys s'.evaluate) := by
  have done' := record_resolve resolved done
  have straight : s'.Straight → s'.Foreign tape.id → ∃ next, Advances registry tape r next ys ∧
      (registry.Faithful → s.CallsBuiltIns → Follows tape next r env ys s'.evaluate) := by
    intro straight foreign
    obtain ⟨next, advances, follows⟩ := straight_advances straight foreign consistent knows done'
    exact ⟨next, advances, fun faithful _ => follows faithful⟩
  rcases resolve_cases resolved with ⟨i, rfl⟩ | ⟨rfl, own | ⟨id, args, rfl⟩⟩
  · exact straight trivial trivial
  · exact straight own foreign
  · obtain ⟨ts, found, done⟩ := run_lift_bind_eq_ok.1 done
    obtain ⟨e, next, _, advances, _⟩ := Tracked.call_advances consistent
      (fun t member => knows t (mem_of_gather found t member)) done
    exact ⟨next, advances, fun _ own => own.elim⟩

end Step

namespace Program

variable {registry : Registry B} {tape : Tape B} {r : Recorder B} {env final : List (Tracked B)}
  {steps resolved : List (Step B)}

/-- Recording a program, followed by evaluating its resolved steps. -/
theorem record_advances [LawfulBase B] (foreign : ∀ s ∈ steps, s.Foreign tape.id)
    (consistent : Consistent registry tape) (knows : ∀ t ∈ env, tape.Knows t)
    (done : record steps env ⟨some tape, registry⟩ = (.ok (final, resolved), r)) :
    ∃ next, Advances registry tape r next final ∧
      (registry.Faithful → (∀ s ∈ steps, s.CallsBuiltIns) →
        Follows tape next r env final (evaluate resolved)) := by
  induction steps generalizing registry tape env resolved with
  | nil =>
    obtain ⟨answer, rfl⟩ := Prod.mk.inj done
    obtain ⟨rfl, rfl⟩ := Prod.mk.inj (Except.ok.inj answer)
    refine ⟨tape, ⟨rfl, consistent, .refl tape, .refl registry, knows⟩, fun faithful _ => ?_⟩
    refine ⟨faithful, id, rfl, fun x c vs us solves means result => ?_⟩
    obtain rfl := Except.ok.inj result
    exact ⟨c, solves, fun _ _ => rfl, means⟩
  | cons s steps ih =>
    obtain ⟨s', resolved₁, done⟩ := run_lift_bind_eq_ok.1 done
    obtain ⟨ys, r₁, recorded, done⟩ := run_bind_eq_ok.1 done
    obtain ⟨⟨final', rest⟩, r₂, later, done⟩ := run_bind_eq_ok.1 done
    obtain ⟨answer, rfl⟩ := Prod.mk.inj done
    obtain ⟨rfl, rfl⟩ := Prod.mk.inj (Except.ok.inj answer)
    obtain ⟨mid, advances₁, follows₁⟩ := Step.record_advances (foreign s List.mem_cons_self)
      consistent knows resolved₁ recorded
    obtain ⟨_, registry₁⟩ := r₁
    obtain rfl := advances₁.recording
    have knows₁ : ∀ t ∈ env ++ ys, mid.Knows t := by
      intro t member
      rcases List.mem_append.1 member with old | new
      · exact (knows t old).extends advances₁.extends_
      · exact advances₁.knows t new
    have foreign₁ : ∀ s ∈ steps, s.Foreign mid.id := by
      intro s member
      rw [advances₁.extends_.id]
      exact foreign s (List.mem_cons_of_mem _ member)
    obtain ⟨next, advances₂, follows₂⟩ := ih foreign₁ advances₁.consistent knows₁ later
    refine ⟨next, ⟨advances₂.recording, advances₂.consistent,
      advances₁.extends_.trans advances₂.extends_,
      advances₁.registers.trans advances₂.registers, advances₂.knows⟩, fun faithful own => ?_⟩
    have first := follows₁ faithful (own s List.mem_cons_self)
    have second := follows₂ first.faithful fun s member => own s (List.mem_cons_of_mem _ member)
    refine ⟨second.faithful, second.builtIns ∘ first.builtIns, ?_, ?_⟩
    · show (s'.evaluate _ >>= fun ys => evaluate rest _) = _
      rw [first.here, ok_bind, ← List.map_append]
      exact second.here
    · intro x c vs us solves means result
      obtain ⟨ws, computed, result⟩ := bind_eq_ok.1 result
      obtain ⟨c₁, solves₁, agrees₁, means₁⟩ := first.solves x c vs ws solves means computed
      have means' : List.Forall₂ (mid.Means c₁) (env ++ ys) (vs ++ ws) :=
        List.rel_append (Tape.forall₂_means_extends knows advances₁.extends_ agrees₁ means) means₁
      obtain ⟨c₂, solves₂, agrees₂, means₂⟩ := second.solves x c₁ _ us solves₁ means' result
      have bound := advances₁.extends_.size_le
      exact ⟨c₂, solves₂, fun i before => by rw [agrees₂ i (by omega), agrees₁ i before], means₂⟩

section Start

variable (id : Nat) (x : List B)

omit [Scalar F] [Base B F] in
private theorem node_ofInputs (i : Nat) :
    (Tape.ofInputs id x).nodes[i]? = x[i]?.map fun v => ⟨.input, v⟩ := by
  simp [Tape.ofInputs]

omit [Scalar F] [Base B F] in
private theorem size_ofInputs : (Tape.ofInputs id x).size = x.length := by
  simp [Tape.ofInputs, Tape.size]

omit [Scalar F] [Base B F] in
theorem entry_ofInputs {i : Nat} {e : Entry} (found : (Tape.ofInputs id x).entry i = .ok e) :
    e = .input ∧ i < x.length := by
  obtain ⟨v, there⟩ := Tape.entry_eq_ok.1 found
  rw [node_ofInputs, Option.map_eq_some_iff] at there
  obtain ⟨w, within, same⟩ := there
  cases same
  exact ⟨rfl, (List.getElem?_eq_some_iff.1 within).1⟩

omit [Scalar F] [Base B F] in
/-- A new recording is consistent. -/
theorem consistent_ofInputs {registry : Registry B} (numbered : registry.Numbered) :
    Consistent registry (Tape.ofInputs id x) where
  numbered := numbered
  wellFormed := {
    inputs_le := le_of_eq (size_ofInputs id x).symm
    inputs i e found := by
      obtain ⟨rfl, inside⟩ := entry_ofInputs id x found
      exact iff_of_true rfl inside
    operands i e found a reads := by
      obtain ⟨rfl, _⟩ := entry_ofInputs id x found
      cases reads
    atomics i place args n found := by cases (entry_ofInputs id x found).1
    calls i place args n found := by cases (entry_ofInputs id x found).1
    results j owner found := by cases (entry_ofInputs id x found).1 }
  table place e found := by
    have none : (Tape.ofInputs id x).atomics[place]? = none := rfl
    rw [none] at found
    cases found

omit [Scalar F] [Base B F] in
theorem getElem?_inputs (i : Nat) :
    (inputs id x)[i]? = x[i]?.map fun v => ⟨v, .onTape id i⟩ := by
  simp [inputs, Function.comp_def]

omit [Scalar F] [Base B F] in
theorem knows_inputs : ∀ t ∈ inputs id x, (Tape.ofInputs id x).Knows t := by
  intro t member j here
  obtain ⟨i, there⟩ := List.getElem?_of_mem member
  rw [getElem?_inputs, Option.map_eq_some_iff] at there
  obtain ⟨v, within, rfl⟩ := there
  obtain rfl : i = j := Option.some.inj ((Tracked.indexOn_variable v id i).symm.trans here)
  exact ⟨.input, by rw [node_ofInputs, within]; rfl⟩

/-- The inputs have any given values in a solution of a new recording. -/
theorem solves_ofInputs {y : List B} (count : y.length = x.length) :
    (Tape.ofInputs id x).Solves y (Tape.extendBy 0 (fun _ => Base.zero) y) := by
  intro i inside
  rw [size_ofInputs, ← count] at inside
  have within := List.getElem?_eq_getElem (l := x) (i := i) (by omega)
  have node : (Tape.ofInputs id x).nodes[i]? = some ⟨.input, x[i]⟩ := by
    rw [node_ofInputs, within]
    rfl
  refine ⟨.input, Tape.entry_of_node node, _, node, y[i], List.getElem?_eq_getElem inside, ?_⟩
  have value : Tape.extendBy 0 (fun _ => Base.zero) y (0 + i) = y[i] :=
    Tape.extendBy_add (List.getElem?_eq_getElem inside)
  rw [Nat.zero_add] at value
  simp [Entry.span, value]

theorem means_inputs {y : List B} (count : y.length = x.length) :
    List.Forall₂ ((Tape.ofInputs id x).Means (Tape.extendBy 0 (fun _ => Base.zero) y))
      (inputs id x) y := by
  rw [List.forall₂_iff_get]
  refine ⟨by simp [inputs, count], fun i inside inside' => ?_⟩
  have there := getElem?_inputs id x i
  rw [List.getElem?_eq_getElem inside, List.getElem?_eq_getElem (by omega)] at there
  rw [List.get_eq_getElem, Option.some.inj there]
  refine (Tape.means_of_some (Tracked.indexOn_variable _ id i)).2 ?_
  have value : Tape.extendBy 0 (fun _ => Base.zero) y (0 + i) = y[i] :=
    Tape.extendBy_add (List.getElem?_eq_getElem inside')
  rwa [Nat.zero_add] at value

end Start

end Program

end TaylorTape
