import TaylorTape.Session.Basic
import TaylorTape.Proofs.Steady

/-!
The session that is open.

On a thread that starts idle one session at most is open: its tape is the one that the marker names,
and no other is being recorded over any base.  While it is open none can be begun.  A freeze and a
drop find its tape and end the recording; a freeze can still refuse its outputs.
-/

set_option autoImplicit false
set_option relaxedAutoImplicit false

namespace TaylorTape

/-- A session over some base. -/
abbrev Held : Type :=
  (kind : Kind) × Session kind

namespace Thread

variable {kind other : Kind} {s : Session kind} {t t' : Thread} {sessions : List Held}

@[simp] theorem recorder_setRecorder (t : Thread) (kind : Kind) (r : Recorder kind.Carrier) :
    (t.setRecorder kind r).recorder kind = r := by
  cases kind <;> rfl

private theorem recorder_setRecorder_of_ne (t : Thread) (r : Recorder kind.Carrier)
    (ne : other ≠ kind) :
    (t.setRecorder kind r).recorder other = t.recorder other := by
  cases kind <;> cases other <;> first | rfl | exact absurd rfl ne

@[simp] theorem active_setRecorder (t : Thread) (kind : Kind) (r : Recorder kind.Carrier) :
    (t.setRecorder kind r).active = t.active := by
  cases kind <;> rfl

@[simp] theorem recorder_with_active (t : Thread) (active : Option Nat) (kind : Kind) :
    { t with active := active }.recorder kind = t.recorder kind := by
  cases kind <;> rfl

@[simp] theorem recorder_with_nextTape (t : Thread) (n : Nat) (kind : Kind) :
    { t with nextTape := n }.recorder kind = t.recorder kind := by
  cases kind <;> rfl

/-- The sessions that are open on a thread: none, and it records nothing; or one, and it records the
tape of that session and no other. -/
inductive Open : List Held → Thread → Prop where
  | idle {t : Thread} (active : t.active = none)
      (slots : ∀ kind, (t.recorder kind).recording = none) : Open [] t
  | recording {kind : Kind} {s : Session kind} {t : Thread} (active : t.active = some s.tape)
      (slots : ∀ other, (t.recorder other).recording = if other = kind then some s.tape else none) :
      Open [⟨kind, s⟩] t

theorem Open.congr (isOpen : Open sessions t) (active : t'.active = t.active)
    (slots : ∀ kind, (t'.recorder kind).recording = (t.recorder kind).recording) :
    Open sessions t' := by
  cases isOpen with
  | idle quiet empty => exact .idle (active.trans quiet) fun kind => (slots kind).trans (empty kind)
  | recording marked own =>
    exact .recording (active.trans marked) fun other => (slots other).trans (own other)

/-- Nothing is marked and no tape of any base is being recorded. -/
def Idle (t : Thread) : Prop :=
  t.active = none ∧ ∀ kind, (t.recorder kind).tape = none

theorem Open.idle_of_nil (isOpen : Open [] t) : t.Idle := by
  cases isOpen with
  | idle active slots => exact ⟨active, fun kind => Option.map_eq_none_iff.1 (slots kind)⟩

theorem Open.of_mem {session : Session kind} (isOpen : Open sessions t)
    (member : ⟨kind, session⟩ ∈ sessions) : Open [⟨kind, session⟩] t := by
  cases isOpen with
  | idle => cases member
  | recording active slots =>
    cases List.mem_singleton.1 member
    exact .recording active slots

/-- The marker names the tape of the only session, which is the only tape being recorded. -/
theorem Open.active_eq_some_iff {id : Nat} (isOpen : Open sessions t) :
    t.active = some id ↔ ∃ (kind : Kind) (tape : Tape kind.Carrier),
      (t.recorder kind).tape = some tape ∧ tape.id = id ∧
      (∀ other, other ≠ kind → (t.recorder other).tape = none) ∧ sessions = [⟨kind, ⟨id⟩⟩] := by
  constructor
  · intro marked
    cases isOpen with
    | idle active => exact absurd (active.symm.trans marked) nofun
    | @recording kind s _ active slots =>
      obtain rfl : s.tape = id := Option.some.inj (active.symm.trans marked)
      obtain ⟨tape, there, number⟩ := Option.map_eq_some_iff.1 ((slots kind).trans (if_pos rfl))
      refine ⟨kind, tape, there, number, fun other ne => ?_, rfl⟩
      exact Option.map_eq_none_iff.1 ((slots other).trans (if_neg ne))
  · rintro ⟨kind, tape, _, _, _, rfl⟩
    cases isOpen with
    | recording active _ => exact active

theorem Open.length_le (isOpen : Open sessions t) : sessions.length ≤ 1 := by
  cases isOpen with
  | idle => exact Nat.zero_le 1
  | recording => exact le_rfl

theorem Open.onRecorder {α : Type} {work : Recording kind.Carrier α} (isOpen : Open sessions t)
    (steady : Steady Recorder.recording work) : Open sessions (onRecorder kind work t).2 := by
  refine isOpen.congr (active_setRecorder ..) fun other => ?_
  by_cases same : other = kind
  · subst same
    exact (congrArg Recorder.recording (recorder_setRecorder ..)).trans (steady _)
  · exact congrArg Recorder.recording (recorder_setRecorder_of_ne t _ same)

/-- While a session is open no other one can be begun. -/
theorem Open.begin_refused (isOpen : Open sessions t) (busy : sessions ≠ [])
    (kind : Kind) (vars : List (Tracked kind.Carrier)) : ∃ tape, t.active = some tape ∧
      Thread.begin kind vars t =
        (.error (.state (.alreadyRecording tape)), { t with nextTape := t.nextTape + 1 }) := by
  cases isOpen with
  | idle => exact absurd rfl busy
  | @recording kind' s _ active _ =>
    refine ⟨s.tape, active, ?_⟩
    unfold Thread.begin
    rw [run_bind_ok (run_get t), run_bind_ok (run_set t _)]
    dsimp only
    rw [active]
    rfl

private theorem begin_of_idle (idle : t.active = none) (kind : Kind)
    (vars : List (Tracked kind.Carrier)) :
    Thread.begin kind vars t =
      (.ok (⟨t.nextTape⟩, Program.inputs t.nextTape (vars.map Tracked.value)),
        { ({ t with nextTape := t.nextTape + 1 } : Thread).setRecorder kind
            { t.recorder kind with
              tape := some (.ofInputs t.nextTape (vars.map Tracked.value)) } with
          active := some t.nextTape }) := by
  unfold Thread.begin
  rw [run_bind_ok (run_get t), run_bind_ok (run_set t _)]
  dsimp only
  rw [idle]
  cases kind <;> rfl

/-- While none is open one can be begun, and it is open then. -/
theorem Open.begin (isOpen : Open [] t) (kind : Kind) (vars : List (Tracked kind.Carrier)) :
    ∃ s vars' t', Thread.begin kind vars t = (.ok (s, vars'), t') ∧ Open [⟨kind, s⟩] t' := by
  cases isOpen with
  | idle idle slots =>
    refine ⟨_, _, _, begin_of_idle idle kind vars, .recording rfl fun other => ?_⟩
    rw [recorder_with_active]
    split
    · rename_i same
      subst same
      rw [recorder_setRecorder]
      rfl
    · rename_i ne
      rw [recorder_setRecorder_of_ne _ _ ne, recorder_with_nextTape]
      exact slots other

private theorem take_of_some {tape : Tape kind.Carrier}
    (there : (t.recorder kind).tape = some tape) :
    Thread.take kind t = (.ok (some tape),
      { t.setRecorder kind { t.recorder kind with tape := none } with active := none }) := by
  unfold Thread.take
  rw [run_bind_ok (run_get t)]
  dsimp only
  rw [there]
  rfl

private theorem Open.take (isOpen : Open [⟨kind, s⟩] t) : ∃ tape t',
    Thread.take kind t = (.ok (some tape), t') ∧ tape.id = s.tape ∧ Open [] t' := by
  cases isOpen with
  | recording active slots =>
    obtain ⟨tape, there, number⟩ := Option.map_eq_some_iff.1 ((slots kind).trans (if_pos rfl))
    refine ⟨tape, _, take_of_some there, number, .idle rfl fun other => ?_⟩
    rw [recorder_with_active]
    by_cases same : other = kind
    · subst same
      rw [recorder_setRecorder]
      rfl
    · rw [recorder_setRecorder_of_ne _ _ same, slots other, if_neg same]

end Thread

namespace Session

variable {kind : Kind} {s : Session kind} {t : Thread}

theorem freeze_of_open (isOpen : Thread.Open [⟨kind, s⟩] t) (ys : List (Tracked kind.Carrier)) :
    ∃ (tape : Tape kind.Carrier) (t' : Thread), s.freeze ys t = (tape.freeze ys, t') ∧
      Thread.Open [] t' := by
  obtain ⟨tape, t', taken, number, ended⟩ := isOpen.take
  refine ⟨tape, t', ?_, ended⟩
  unfold freeze
  rw [run_bind_ok taken]
  dsimp only
  rw [if_pos number]
  exact run_lift _ t'

theorem drop_of_open (isOpen : Thread.Open [⟨kind, s⟩] t) :
    ∃ t', s.drop t = (.ok ⟨⟩, t') ∧ Thread.Open [] t' := by
  obtain ⟨tape, t', taken, number, ended⟩ := isOpen.take
  refine ⟨t', ?_, ended⟩
  cases isOpen with
  | recording active slots =>
    have own : (t.recorder kind).tape.map Tape.id = some s.tape := (slots kind).trans (if_pos rfl)
    unfold drop
    rw [run_bind_ok (run_get t), if_pos own, run_bind_ok taken]
    rfl

end Session

section Causes

variable {α β σ : Type} {err : Error}

private theorem bind_ne_error {x : Except Error α} {f : α → Except Error β} (first : x ≠ .error err)
    (next : ∀ a, f a ≠ .error err) : x >>= f ≠ .error err := by
  cases x with
  | error e => exact fun same => first (congrArg Except.error (Except.error.inj same))
  | ok a => exact next a

private theorem foldlM_ne_error {f : σ → α → Except Error σ} (each : ∀ s x, f s x ≠ .error err)
    (xs : List α) (s : σ) : xs.foldlM f s ≠ .error err := by
  induction xs generalizing s with
  | nil => exact nofun
  | cons x xs ih =>
    rw [List.foldlM_cons]
    exact bind_ne_error (each s x) ih

private theorem mapM_ne_error {f : α → Except Error β} (each : ∀ x, f x ≠ .error err)
    (xs : List α) :
    xs.mapM f ≠ .error err := by
  induction xs with
  | nil => exact nofun
  | cons x xs ih =>
    rw [List.mapM_cons]
    exact bind_ne_error (each x) fun y => bind_ne_error ih fun ys => nofun

private theorem fetch_ne_state (xs : Array α) (i : Nat) (cause : Misuse) :
    fetch xs i ≠ .error (.state cause) := by
  unfold fetch
  split <;> nofun

private theorem store_ne_state (xs : Array α) (i : Nat) (x : α) (cause : Misuse) :
    store xs i x ≠ .error (.state cause) := by
  unfold store
  split <;> nofun

end Causes

private theorem Entry.rename_ne_state (places : Array Nat) (e : Entry) (cause : Misuse) :
    e.rename (fetch places) ≠ .error (.state cause) := by
  have place (i : Nat) : fetch places i ≠ .error (.state cause) := fetch_ne_state places i cause
  cases e with
  | input => exact nofun
  | const => exact nofun
  | unary op a => exact bind_ne_error (place a) fun _ => nofun
  | binary op a b => exact bind_ne_error (place a) fun _ => bind_ne_error (place b) fun _ => nofun
  | call atomic args n => exact bind_ne_error (mapM_ne_error place args) fun _ => nofun
  | result owner => exact bind_ne_error (place owner) fun _ => nofun

namespace Tape

variable {B : Type} (tape : Tape B)

private theorem mark_ne_state (live : Array Bool) (positions : List Nat) (cause : Misuse) :
    mark live positions ≠ .error (.state cause) :=
  foldlM_ne_error (fun live i => store_ne_state live i true cause) positions live

private theorem live_ne_state (outputs : List Nat) (cause : Misuse) :
    tape.live outputs ≠ .error (.state cause) := by
  refine bind_ne_error (mark_ne_state _ _ cause) fun start => foldlM_ne_error (fun live i =>
    bind_ne_error (fetch_ne_state live i cause) fun marked => ?_) _ start
  split
  · exact bind_ne_error (bind_ne_error (fetch_ne_state _ i cause) fun _ => nofun)
      fun e => mark_ne_state live (e.reaches i) cause
  · exact nofun

private theorem compact_ne_state (marks : Array Bool) (cause : Misuse) :
    tape.compact marks ≠ .error (.state cause) := by
  refine bind_ne_error (foldlM_ne_error (fun nodes i =>
    bind_ne_error (fetch_ne_state marks i cause) fun marked => ?_) _ _) fun nodes => nofun
  split
  · exact bind_ne_error (fetch_ne_state _ i cause) fun node =>
      bind_ne_error (node.entry.rename_ne_state _ cause) fun _ => nofun
  · exact nofun

private theorem prune_ne_state (outputs : List Nat) (cause : Misuse) :
    tape.prune outputs ≠ .error (.state cause) :=
  bind_ne_error (tape.live_ne_state outputs cause) fun marks =>
    bind_ne_error (tape.compact_ne_state marks cause) fun _ =>
      bind_ne_error (mapM_ne_error (fun i => fetch_ne_state _ i cause) outputs) fun _ => nofun

theorem freeze_ne_notRecording {F : Type} [Scalar F] [Base B F] (ys : List (Tracked B)) (id : Nat) :
    tape.freeze ys ≠ .error (.state (.notRecording id)) := by
  refine bind_ne_error (foldlM_ne_error (fun entered y => ?_) _ _) fun entered =>
    bind_ne_error (prune_ne_state _ _ _) fun _ => nofun
  dsimp only
  split
  · exact nofun
  · split <;> nofun

end Tape

end TaylorTape
