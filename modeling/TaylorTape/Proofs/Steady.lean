import TaylorTape.Proofs.Program

/-!
Operations leave a recording open.

An operation on tracked values may write to the tape that is being recorded, but it neither takes it
away nor puts another one in its place, also where the operation fails.
-/

set_option autoImplicit false
set_option relaxedAutoImplicit false

namespace TaylorTape

section States

variable {ε σ τ α β : Type} {view : σ → τ}

theorem run_tryCatch (work : ExceptT ε (StateM σ) α) (handler : ε → ExceptT ε (StateM σ) α)
    (s : σ) : tryCatch work handler s = match work s with
      | (.ok a, t) => (.ok a, t)
      | (.error err, t) => handler err t := by
  show (bind (m := StateM σ) work fun outcome => match outcome with
    | .ok a => pure (.ok a)
    | .error err => handler err) s = _
  show (match (motive := Except ε α → StateM σ (Except ε α)) (work s).1 with
    | .ok a => pure (.ok a)
    | .error err => handler err) (work s).2 = _
  rcases work s with ⟨_ | _, _⟩ <;> rfl

/-- A computation after which a view of the state is what it was before, whatever the outcome. -/
def Steady (view : σ → τ) (work : ExceptT ε (StateM σ) α) : Prop :=
  ∀ s, view (work s).2 = view s

namespace Steady

theorem pure (a : α) : Steady view (Pure.pure a : ExceptT ε (StateM σ) α) :=
  fun _ => rfl

theorem lift (x : Except ε α) : Steady view (liftM x : ExceptT ε (StateM σ) α) := by
  intro s
  rw [run_lift]

theorem bind_at {x : ExceptT ε (StateM σ) α} {f : α → ExceptT ε (StateM σ) β} {s : σ}
    (first : view (x s).2 = view s)
    (next : ∀ a t, x s = (.ok a, t) → view (f a t).2 = view s) : view ((x >>= f) s).2 = view s := by
  rw [run_bind]
  rcases ran : x s with ⟨_ | a, t⟩
  · rwa [ran] at first
  · exact next a t ran

theorem bind {x : ExceptT ε (StateM σ) α} {f : α → ExceptT ε (StateM σ) β} (first : Steady view x)
    (next : ∀ a, Steady view (f a)) : Steady view (x >>= f) :=
  fun s => bind_at (first s) fun a t ran => by
    have kept := first s
    rw [ran] at kept
    exact (next a t).trans kept

private theorem lift_bind_at {x : Except ε α} {f : α → ExceptT ε (StateM σ) β} {s : σ}
    (next : ∀ a, view (f a s).2 = view s) :
    view (((liftM x : ExceptT ε (StateM σ) α) >>= f) s).2 = view s :=
  bind_at (lift x s) fun a t ran => by
    rw [run_lift] at ran
    obtain ⟨_, rfl⟩ := Prod.mk.inj ran
    exact next a

end Steady

end States

namespace Tape

variable {B : Type}

@[simp] theorem id_push (tape : Tape B) (e : Entry) (v : B) : (tape.push e v).2.id = tape.id := rfl

@[simp] theorem id_embed (tape : Tape B) (x : Tracked B) : (tape.embed x).2.id = tape.id := by
  unfold embed
  split <;> rfl

@[simp] theorem id_embedAll (tape : Tape B) (xs : List (Tracked B)) :
    (tape.embedAll xs).2.id = tape.id := by
  have kept : ∀ start : List Nat × Tape B, (xs.foldl (fun entered x =>
      (entered.1 ++ [(entered.2.embed x).1], (entered.2.embed x).2)) start).2.id = start.2.id := by
    induction xs with
    | nil => exact fun _ => rfl
    | cons x xs ih => exact fun start => (ih _).trans (id_embed start.2 x)
  exact kept ([], tape)

@[simp] theorem id_pushCall (tape : Tape B) (e : Registered B) (args : List Nat)
    (results : List B) : (tape.pushCall e args results).2.id = tape.id := by
  have results_pushed : ∀ (vs : List B) (index : Nat) (start : Tape B),
      (vs.foldl (fun tape v => (tape.push (.result index) v).2) start).id = start.id := by
    intro vs index
    induction vs with
    | nil => exact fun _ => rfl
    | cons v vs ih => exact fun start => ih _
  have interned : (tape.intern e).2.id = tape.id := by
    unfold intern
    split <;> rfl
  cases results with
  | nil => exact interned
  | cons first rest => exact (results_pushed rest _ _).trans interned

end Tape

variable {B F : Type} [Scalar F] [Base B F]

/-- The number of the tape that is being recorded. -/
def Recorder.recording (r : Recorder B) : Option Nat :=
  r.tape.map Tape.id

namespace Tracked

private theorem steady_unary (op : UnaryOp) (x : Tracked B) :
    Steady Recorder.recording (x.unary op) := by
  rintro ⟨_ | tape, registry⟩
  · rfl
  · unfold unary
    rw [run_bind_ok (run_get _)]
    dsimp only
    cases Recorder.indexOf? ⟨some tape, registry⟩ x <;> rfl

private theorem steady_binary (op : BinaryOp) (x y : Tracked B) :
    Steady Recorder.recording (x.binary op y) := by
  rintro ⟨_ | tape, registry⟩
  all_goals
    unfold binary
    rw [run_bind_ok (run_get _)]
    refine Steady.lift_bind_at fun v => ?_
  · rfl
  · dsimp only
    split
    · rfl
    · exact congrArg some (((tape.embed x).2.id_embed y).trans (tape.id_embed x))

private theorem steady_call (id : Nat) (args : List (Tracked B)) :
    Steady Recorder.recording (call id args) := by
  rintro ⟨tape, registry⟩
  unfold call
  rw [run_bind_ok (run_get _)]
  refine Steady.lift_bind_at fun e => ?_
  dsimp only
  split
  · rfl
  refine Steady.lift_bind_at fun answer => ?_
  cases answer with
  | none => rfl
  | some results =>
    refine Steady.lift_bind_at fun values => ?_
    cases tape with
    | none => rfl
    | some tape =>
      dsimp only
      split
      · exact congrArg some (((tape.embedAll args).2.id_pushCall e _ values).trans
          (tape.id_embedAll args))
      · rfl

private theorem steady_enter (request : Registry B → Nat × Registry B) :
    Steady Recorder.recording (enter request) :=
  fun _ => rfl

end Tracked

private theorem steady_only {work : Recording B (List (Tracked B))}
    (steady : Steady Recorder.recording work) :
    Steady Recorder.recording (do Tracked.only (← work)) :=
  steady.bind fun ys => .lift (Tracked.only ys)

private theorem steady_single {work : Recording B (Tracked B)}
    (steady : Steady Recorder.recording work) :
    Steady Recorder.recording (do return [← work]) :=
  steady.bind fun y => .pure [y]

private theorem BuiltIn.steady_record (b : BuiltIn) (xs : List (Tracked B)) :
    Steady Recorder.recording (b.record xs) := by
  unfold record
  split
  · exact steady_single (steady_only (Tracked.steady_call _ _))
  · exact steady_single (steady_only (Tracked.steady_call _ _))
  · exact steady_single (steady_only (Tracked.steady_call _ _))
  · exact steady_single (steady_only (Tracked.steady_call _ _))
  · rename_i n x
    exact steady_single ((Tracked.steady_enter (Registry.makeId · n)).bind fun id =>
      steady_only (Tracked.steady_call id [x]))
  · rename_i n x
    exact (Tracked.steady_enter (Registry.unpackId · n)).bind fun id => Tracked.steady_call id [x]
  · refine Steady.bind ?_ fun id => Tracked.steady_call id _
    cases b with
    | make n => exact Tracked.steady_enter (Registry.makeId · n)
    | unpack n => exact Tracked.steady_enter (Registry.unpackId · n)
    | _ => exact .pure _

private theorem Step.steady_record (env : List (Tracked B)) (s : Step B) :
    Steady Recorder.recording (s.record env) := by
  cases s with
  | bring x => exact .pure _
  | copy a => exact (Steady.lift _).bind fun x => .pure _
  | unary op a => exact (Steady.lift _).bind fun x => steady_single (x.steady_unary op)
  | binary op a b =>
    exact (Steady.lift _).bind fun x => (Steady.lift _).bind fun y =>
      steady_single (x.steady_binary op y)
  | compare c a b =>
    exact (Steady.lift _).bind fun x => (Steady.lift _).bind fun y =>
      (Steady.lift _).bind fun _ => .pure _
  | max a b =>
    exact (Steady.lift _).bind fun x => (Steady.lift _).bind fun y =>
      (Steady.lift _).bind fun z => .pure _
  | min a b =>
    exact (Steady.lift _).bind fun x => (Steady.lift _).bind fun y =>
      (Steady.lift _).bind fun z => .pure _
  | clip a lo hi =>
    exact (Steady.lift _).bind fun x => (Steady.lift _).bind fun y =>
      (Steady.lift _).bind fun z => (Steady.lift _).bind fun w => .pure _
  | builtIn b args => exact (Steady.lift _).bind fun xs => b.steady_record xs
  | call id args => exact (Steady.lift _).bind fun xs => Tracked.steady_call id xs

theorem Program.steady_record (steps : List (Step B)) (env : List (Tracked B)) :
    Steady Recorder.recording (record steps env) := by
  induction steps generalizing env with
  | nil => exact .pure _
  | cons s rest ih =>
    exact (Steady.lift (s.resolve env)).bind fun resolved =>
      (s.steady_record env).bind fun results => (ih (env ++ results)).bind fun final => .pure _

end TaylorTape
