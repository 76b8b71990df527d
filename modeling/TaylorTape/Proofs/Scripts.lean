import Mathlib.Logic.Function.Basic
import TaylorTape.Session.Closure
import TaylorTape.Proofs.Sessions

/-!
Scripts around and inside of recordings.

A script keeps the sessions that it has begun and the variables of each base.  It may begin, freeze
and drop sessions in any order, do anything with values and variables, fail and recover, and record
other scripts as functions, which do the same.  A session is given away by freezing or dropping it,
so none is ended twice.  At every point of a script, also inside of the functions, one session at
most is open, whether a call around that point holds it or the script itself.
-/

set_option autoImplicit false
set_option relaxedAutoImplicit false

namespace TaylorTape

/-- Variables of each base, by number. -/
abbrev Cells : Type :=
  (kind : Kind) → Nat → Tracked kind.Carrier

/-- What a script keeps between its steps. -/
structure Caller where
  /-- The sessions that are neither frozen nor dropped. -/
  held : List Held
  cells : Cells

namespace Caller

/-- A session begun with some variables as its inputs; they become variables of the new tape. -/
def begin (kind : Kind) (names : List Nat) : Work Caller Unit := do
  let c := (← get).2
  let (s, vars) ← Work.onThread (Thread.begin kind (names.map (c.cells kind)))
  let cells := (names.zip vars).foldl (fun cells p => Function.update cells p.1 p.2) (c.cells kind)
  modify fun (t, _) => (t, ⟨c.held ++ [⟨kind, s⟩], Function.update c.cells kind cells⟩)

/-- The session at a place, if there is one; it is held no more. -/
def give (i : Nat) : Work Caller (Option Held) := do
  let s ← get
  set (s.1, { s.2 with held := s.2.held.eraseIdx i })
  return s.2.held[i]?

/-- The session at a place frozen with some variables as its outputs. -/
def freeze (i : Nat) (outs : Kind → List Nat) :
    Work Caller (Option ((kind : Kind) × Evaluator kind.Carrier)) := do
  match ← give i with
  | none => return none
  | some ⟨kind, s⟩ =>
    let c := (← get).2
    let e ← Work.onThread (s.freeze ((outs kind).map (c.cells kind)))
    return some ⟨kind, e⟩

/-- The session at a place dropped. -/
def drop (i : Nat) : Work Caller Unit := do
  match ← give i with
  | none => return
  | some ⟨_, s⟩ => Work.onThread s.drop

/-- Anything done with the variables. -/
def access {α : Type} (work : Cells → Except Error α × Cells) : Work Caller α := do
  let s ← get
  set (s.1, { s.2 with cells := (work s.2.cells).2 })
  liftM (work s.2.cells).1

end Caller

/-- What a thread can be asked to do around its recordings and inside of them. -/
inductive Script : Type → Type 1 where
  | done {α : Type} (x : α) : Script α
  | lift {α : Type} (x : Except Error α) : Script α
  | bind {α β : Type} (first : Script α) (next : α → Script β) : Script β
  | rescue {α : Type} (body : Script α) (handler : Error → Script α) : Script α
  | access {α : Type} (work : Cells → Except Error α × Cells) : Script α
  | operate {α : Type} (kind : Kind) (work : Recording kind.Carrier α)
      (steady : Steady Recorder.recording work) : Script α
  | begin (kind : Kind) (names : List Nat) : Script Unit
  | freeze (i : Nat) (outs : Kind → List Nat) :
      Script (Option ((kind : Kind) × Evaluator kind.Carrier))
  | drop (i : Nat) : Script Unit
  | recordMulti (kind : Kind)
      (f : List (Tracked kind.Carrier) → Script (List (Tracked kind.Carrier)))
      (x : List kind.Carrier) : Script (Evaluator kind.Carrier × List kind.Carrier)

namespace Script

variable {α : Type}

/-- A script as a computation on its thread. -/
def run {α : Type} : Script α → Work Caller α
  | done x => return x
  | lift x => liftM x
  | bind first next => do (next (← first.run)).run
  | rescue body handler => tryCatch body.run fun err => (handler err).run
  | access work => Caller.access work
  | operate kind work _ => Work.onThread (Thread.onRecorder kind work)
  | begin kind names => Caller.begin kind names
  | freeze i outs => Caller.freeze i outs
  | drop i => Caller.drop i
  | recordMulti kind f x => Work.recordMulti kind (fun vars => (f vars).run) x

/-- The points that a script comes through: from its start to its end, and inside the functions that
it records, where the sessions of the surrounding calls are open. -/
inductive Reaches : {α : Type} → Script α → Thread × Caller → List Held → Thread × Caller → Prop
  | start {α : Type} (p : Script α) (s : Thread × Caller) : Reaches p s [] s
  | finish {α : Type} (p : Script α) (s : Thread × Caller) : Reaches p s [] (p.run s).2
  | first {α β : Type} {p : Script α} {next : α → Script β} {s t : Thread × Caller}
      {frames : List Held} (inside : Reaches p s frames t) : Reaches (.bind p next) s frames t
  | next {α β : Type} {p : Script α} {next : α → Script β} {s s' t : Thread × Caller} {a : α}
      {frames : List Held} (ran : p.run s = (.ok a, s')) (inside : Reaches (next a) s' frames t) :
      Reaches (.bind p next) s frames t
  | body {α : Type} {p : Script α} {handler : Error → Script α} {s t : Thread × Caller}
      {frames : List Held} (inside : Reaches p s frames t) : Reaches (.rescue p handler) s frames t
  | handler {α : Type} {p : Script α} {handler : Error → Script α} {s s' t : Thread × Caller}
      {err : Error} {frames : List Held} (ran : p.run s = (.error err, s'))
      (inside : Reaches (handler err) s' frames t) : Reaches (.rescue p handler) s frames t
  | function {kind : Kind} {f : List (Tracked kind.Carrier) → Script (List (Tracked kind.Carrier))}
      {x : List kind.Carrier} {session : Session kind} {vars : List (Tracked kind.Carrier)}
      {s s' t : Thread × Caller} {frames : List Held}
      (begun : Work.onThread (Thread.begin kind (x.map Tracked.parameter)) s =
        (.ok (session, vars), s'))
      (inside : Reaches (f vars) s' frames t) :
      Reaches (.recordMulti kind f x) s (frames ++ [⟨kind, session⟩]) t

end Script

/-- The sessions that are open are those of the surrounding calls and those that are held. -/
def Tidy (frames : List Held) (s : Thread × Caller) : Prop :=
  s.1.Open (frames ++ s.2.held)

/-- What a thread records, and the sessions that are held. -/
def recordingState (s : Thread × Caller) :
    Option Nat × ((kind : Kind) → Option (Tape kind.Carrier)) × List Held :=
  (s.1.active, fun kind => (s.1.recorder kind).tape, s.2.held)

private theorem recordingState_eq_idle_iff {s : Thread × Caller} :
    recordingState s = (none, fun _ => none, []) ↔ s.1.Idle ∧ s.2.held = [] := by
  constructor
  · intro same
    obtain ⟨active, rest⟩ := Prod.mk.inj same
    obtain ⟨slots, held⟩ := Prod.mk.inj rest
    exact ⟨⟨active, congrFun slots⟩, held⟩
  · rintro ⟨⟨active, slots⟩, held⟩
    exact Prod.ext active (Prod.ext (funext slots) held)

namespace Tidy

variable {frames : List Held} {s s' : Thread × Caller} {kind : Kind} {α β : Type}

theorem congr (tidy : Tidy frames s) (same : recordingState s' = recordingState s) :
    Tidy frames s' := by
  obtain ⟨active, rest⟩ := Prod.mk.inj same
  obtain ⟨slots, held⟩ := Prod.mk.inj rest
  rw [Tidy, held]
  exact Thread.Open.congr tidy active fun kind =>
    congrArg (Option.map Tape.id) (congrFun slots kind)

private theorem of_idle (idle : recordingState s = (none, fun _ => none, [])) : Tidy [] s := by
  obtain ⟨⟨active, slots⟩, held⟩ := recordingState_eq_idle_iff.1 idle
  rw [Tidy, held]
  exact .idle active fun kind => congrArg (Option.map Tape.id) (slots kind)

/-- A computation that leaves every tidy state tidy. -/
def Keeps (work : Work Caller α) : Prop :=
  ∀ frames s, Tidy frames s → Tidy frames (work s).2

private theorem keeps_of_steady {work : Work Caller α} (steady : Steady recordingState work) :
    Keeps work :=
  fun _ s tidy => tidy.congr (steady s)

private theorem Keeps.bind {work : Work Caller α} {next : α → Work Caller β} (first : Keeps work)
    (rest : ∀ a, Keeps (next a)) : Keeps (work >>= next) := by
  intro frames s tidy
  have kept := first frames s tidy
  rw [run_bind]
  rcases ran : work s with ⟨_ | a, t⟩
  · rwa [ran] at kept
  · rw [ran] at kept
    exact rest a frames t kept

private theorem Keeps.tryCatch {work : Work Caller α} {handler : Error → Work Caller α}
    (body : Keeps work) (rest : ∀ err, Keeps (handler err)) : Keeps (tryCatch work handler) := by
  intro frames s tidy
  have kept := body frames s tidy
  rw [run_tryCatch]
  rcases ran : work s with ⟨err | a, t⟩
  · rw [ran] at kept
    exact rest err frames t kept
  · rwa [ran] at kept

private theorem begin_refused (tidy : Tidy frames s) (busy : frames ++ s.2.held ≠ []) (kind : Kind)
    (names : List Nat) : ∃ tape, s.1.active = some tape ∧ Caller.begin kind names s =
      (.error (.state (.alreadyRecording tape)),
        ({ s.1 with nextTape := s.1.nextTape + 1 }, s.2)) := by
  obtain ⟨tape, active, refused⟩ :=
    Thread.Open.begin_refused tidy busy kind (names.map (s.2.cells kind))
  refine ⟨tape, active, ?_⟩
  unfold Caller.begin
  rw [run_bind_ok (run_get s), run_bind]
  dsimp only [Work.onThread]
  rw [refused]

private theorem begin_of_idle (tidy : Tidy frames s) (idle : frames ++ s.2.held = []) (kind : Kind)
    (names : List Nat) : ∃ s', Caller.begin kind names s = (.ok (), s') ∧ Tidy frames s' := by
  obtain ⟨rfl, none⟩ := List.append_eq_nil_iff.1 idle
  rw [Tidy, none] at tidy
  obtain ⟨session, vars, t', begun, isOpen⟩ := tidy.begin kind (names.map (s.2.cells kind))
  refine ⟨?_, ?ran, ?tidy⟩
  case ran =>
    unfold Caller.begin
    rw [run_bind_ok (run_get s), run_bind]
    dsimp only [Work.onThread]
    rw [begun]
    rfl
  case tidy =>
    show Thread.Open (s.2.held ++ [⟨kind, session⟩]) t'
    rwa [none]

private theorem keeps_begin (names : List Nat) : Keeps (Caller.begin kind names) := by
  intro frames s tidy
  by_cases idle : frames ++ s.2.held = []
  · obtain ⟨s', begun, tidy'⟩ := tidy.begin_of_idle idle kind names
    rwa [begun]
  · obtain ⟨tape, _, refused⟩ := tidy.begin_refused idle kind names
    rw [refused]
    exact tidy.congr rfl

private theorem only {held : Held} (tidy : Tidy [held] s) : s.2.held = [] ∧ s.1.Open [held] := by
  have count := Thread.Open.length_le tidy
  have none : s.2.held = [] := List.length_eq_zero_iff.1 (by simpa using count)
  rw [Tidy, none] at tidy
  exact ⟨none, tidy⟩

private theorem freeze_ends {session : Session kind} (tidy : Tidy [⟨kind, session⟩] s)
    (ys : List (Tracked kind.Carrier)) : ∃ outcome s',
    Work.onThread (session.freeze ys) s = (outcome, s') ∧
      recordingState s' = (none, fun _ => none, []) := by
  obtain ⟨nothing, isOpen⟩ := tidy.only
  obtain ⟨tape, t', frozen, ended⟩ := session.freeze_of_open isOpen ys
  refine ⟨tape.freeze ys, (t', s.2), ?_, recordingState_eq_idle_iff.2 ⟨ended.idle_of_nil, nothing⟩⟩
  dsimp only [Work.onThread]
  rw [frozen]

private theorem drop_ends {session : Session kind} (tidy : Tidy [⟨kind, session⟩] s) : ∃ s',
    Work.onThread session.drop s = (.ok ⟨⟩, s') ∧
      recordingState s' = (none, fun _ => none, []) := by
  obtain ⟨nothing, isOpen⟩ := tidy.only
  obtain ⟨t', dropped, ended⟩ := session.drop_of_open isOpen
  refine ⟨(t', s.2), ?_, recordingState_eq_idle_iff.2 ⟨ended.idle_of_nil, nothing⟩⟩
  dsimp only [Work.onThread]
  rw [dropped]

private theorem give {i : Nat} {held : Held} (tidy : Tidy frames s)
    (there : s.2.held[i]? = some held) :
    Caller.give i s = (.ok (some held), (s.1, { s.2 with held := [] })) ∧ frames = [] ∧
      Tidy [held] (s.1, { s.2 with held := [] }) := by
  have count := Thread.Open.length_le tidy
  obtain ⟨inside, found⟩ := List.getElem?_eq_some_iff.1 there
  rw [List.length_append] at count
  obtain rfl : frames = [] := List.length_eq_zero_iff.1 (by omega)
  obtain ⟨only, single⟩ := List.length_eq_one_iff.1 (show s.2.held.length = 1 by omega)
  obtain rfl : i = 0 := by omega
  obtain rfl : only = held := by simpa [single] using there
  refine ⟨?_, rfl, ?_⟩
  · unfold Caller.give
    rw [run_bind_ok (run_get s), run_bind_ok (run_set s _), single]
    rfl
  · rwa [Tidy, single] at tidy

private theorem give_none {i : Nat} (away : s.2.held[i]? = none) :
    Caller.give i s = (.ok none, s) := by
  unfold Caller.give
  rw [run_bind_ok (run_get s), run_bind_ok (run_set s _), away,
    List.eraseIdx_of_length_le (List.getElem?_eq_none_iff.1 away)]
  rfl

private theorem freeze_held {i : Nat} (tidy : Tidy frames s) (outs : Kind → List Nat)
    (inside : i < s.2.held.length) : frames = [] ∧
      recordingState (Caller.freeze i outs s).2 = (none, fun _ => none, []) := by
  obtain ⟨⟨kind, session⟩, there⟩ : ∃ held, s.2.held[i]? = some held :=
    ⟨_, List.getElem?_eq_getElem inside⟩
  obtain ⟨given, rfl, entered⟩ := tidy.give there
  obtain ⟨outcome, s', frozen, ended⟩ := entered.freeze_ends ((outs kind).map (s.2.cells kind))
  refine ⟨rfl, ?_⟩
  unfold Caller.freeze
  rw [run_bind_ok given]
  dsimp only
  rw [run_bind_ok (run_get _), run_bind, frozen]
  cases outcome <;> exact ended

private theorem drop_held {i : Nat} (tidy : Tidy frames s) (inside : i < s.2.held.length) :
    frames = [] ∧ recordingState (Caller.drop i s).2 = (none, fun _ => none, []) := by
  obtain ⟨⟨kind, session⟩, there⟩ : ∃ held, s.2.held[i]? = some held :=
    ⟨_, List.getElem?_eq_getElem inside⟩
  obtain ⟨given, rfl, entered⟩ := tidy.give there
  obtain ⟨s', dropped, ended⟩ := entered.drop_ends
  refine ⟨rfl, ?_⟩
  unfold Caller.drop
  rw [run_bind_ok given]
  dsimp only
  rw [dropped]
  exact ended

private theorem keeps_freeze (i : Nat) (outs : Kind → List Nat) : Keeps (Caller.freeze i outs) := by
  intro frames s tidy
  by_cases inside : i < s.2.held.length
  · obtain ⟨rfl, ended⟩ := tidy.freeze_held outs inside
    exact of_idle ended
  · unfold Caller.freeze
    rw [run_bind_ok (give_none (List.getElem?_eq_none (by omega)))]
    exact tidy

private theorem keeps_drop (i : Nat) : Keeps (Caller.drop i) := by
  intro frames s tidy
  by_cases inside : i < s.2.held.length
  · obtain ⟨rfl, ended⟩ := tidy.drop_held inside
    exact of_idle ended
  · unfold Caller.drop
    rw [run_bind_ok (give_none (List.getElem?_eq_none (by omega)))]
    exact tidy

private theorem entered {vars vars' : List (Tracked kind.Carrier)} {session : Session kind}
    (tidy : Tidy frames s)
    (begun : Work.onThread (Thread.begin kind vars) s = (.ok (session, vars'), s')) :
    frames ++ s.2.held = [] ∧ Tidy [⟨kind, session⟩] s' := by
  dsimp only [Work.onThread] at begun
  by_cases idle : frames ++ s.2.held = []
  · obtain ⟨rfl, nothing⟩ := List.append_eq_nil_iff.1 idle
    rw [Tidy, nothing] at tidy
    obtain ⟨_, _, t, begun', isOpen⟩ := tidy.begin kind vars
    rw [begun'] at begun
    obtain ⟨same, rfl⟩ := Prod.mk.inj begun
    obtain ⟨rfl, rfl⟩ := Prod.mk.inj (Except.ok.inj same)
    refine ⟨idle, ?_⟩
    rwa [Tidy, nothing]
  · obtain ⟨tape, _, refused⟩ := Thread.Open.begin_refused tidy idle kind vars
    rw [refused] at begun
    cases begun

private theorem not_entered {vars : List (Tracked kind.Carrier)} {err : Error}
    (tidy : Tidy frames s) (failed : Work.onThread (Thread.begin kind vars) s = (.error err, s')) :
    recordingState s' = recordingState s := by
  dsimp only [Work.onThread] at failed
  by_cases idle : frames ++ s.2.held = []
  · obtain ⟨rfl, nothing⟩ := List.append_eq_nil_iff.1 idle
    rw [Tidy, nothing] at tidy
    obtain ⟨_, _, t, begun', _⟩ := tidy.begin kind vars
    rw [begun'] at failed
    cases failed
  · obtain ⟨tape, _, refused⟩ := Thread.Open.begin_refused tidy idle kind vars
    rw [refused] at failed
    obtain ⟨_, rfl⟩ := Prod.mk.inj failed
    rfl

private theorem recordMulti
    {f : List (Tracked kind.Carrier) → Work Caller (List (Tracked kind.Carrier))}
    (keeps : ∀ vars, Keeps (f vars)) (x : List kind.Carrier) (tidy : Tidy frames s) :
    recordingState (Work.recordMulti kind f x s).2 = recordingState s := by
  unfold Work.recordMulti
  rw [run_bind]
  rcases begun : Work.onThread (Thread.begin kind (x.map Tracked.parameter)) s with
    ⟨err | ⟨session, vars⟩, s'⟩
  · exact tidy.not_entered begun
  obtain ⟨idle, entered⟩ := tidy.entered begun
  have before : recordingState s = (none, fun _ => none, []) := by
    obtain ⟨rfl, nothing⟩ := List.append_eq_nil_iff.1 idle
    rw [Tidy, nothing] at tidy
    exact recordingState_eq_idle_iff.2 ⟨Thread.Open.idle_of_nil tidy, nothing⟩
  have left := keeps vars _ _ entered
  rw [before]
  dsimp only
  rw [run_bind, run_tryCatch]
  rcases ran : f vars s' with ⟨err | ys, u⟩
  · replace left : Tidy [⟨kind, session⟩] u := by rwa [ran] at left
    obtain ⟨_, dropped, ended⟩ := left.drop_ends
    dsimp only
    rw [run_bind_ok dropped]
    exact ended
  · replace left : Tidy [⟨kind, session⟩] u := by rwa [ran] at left
    obtain ⟨outcome, _, frozen, ended⟩ := left.freeze_ends ys
    dsimp only
    rw [run_bind, frozen]
    cases outcome <;> exact ended

private theorem record {f : List (Tracked kind.Carrier) → Work Caller (Tracked kind.Carrier)}
    (keeps : ∀ vars, Keeps (f vars)) (x : List kind.Carrier) (tidy : Tidy frames s) :
    recordingState (Work.record kind f x s).2 = recordingState s := by
  have single (vars : List (Tracked kind.Carrier)) :
      Keeps (do return [← f vars] : Work Caller (List (Tracked kind.Carrier))) :=
    (keeps vars).bind fun y => keeps_of_steady (.pure [y])
  refine Steady.bind_at (tidy.recordMulti single x) fun (e, ys) t ran => ?_
  have kept := tidy.recordMulti single x
  rw [ran] at kept
  exact (((Steady.lift (pick ys 0)).bind fun y => .pure (e, y)) t).trans kept

private theorem gradient {f : List (Tracked kind.Carrier) → Work Caller (Tracked kind.Carrier)}
    (keeps : ∀ vars, Keeps (f vars)) (x : List kind.Carrier) (tidy : Tidy frames s) :
    recordingState (Work.gradient kind f x s).2 = recordingState s := by
  refine Steady.bind_at (tidy.record keeps x) fun (e, y) t ran => ?_
  have kept := tidy.record keeps x
  rw [ran] at kept
  exact (((Steady.lift ((Evaluator.gradient x).run e).1).bind fun g => .pure (y, g)) t).trans kept

private theorem keeps_run (p : Script α) : Keeps p.run := by
  induction p with
  | done x => exact keeps_of_steady (.pure x)
  | lift x => exact keeps_of_steady (.lift x)
  | bind first next ih ih' => exact ih.bind ih'
  | rescue body handler ih ih' => exact ih.tryCatch ih'
  | access work =>
    intro frames s tidy
    unfold Script.run Caller.access
    rw [run_bind_ok (run_get s), run_bind_ok (run_set s _), run_lift]
    exact tidy
  | operate kind work steady => exact fun frames s tidy => Thread.Open.onRecorder tidy steady
  | begin kind names => exact keeps_begin names
  | freeze i outs => exact keeps_freeze i outs
  | drop i => exact keeps_drop i
  | recordMulti kind f x ih =>
    intro frames s tidy
    exact tidy.congr (recordMulti ih x tidy)

end Tidy

namespace Script

variable {frames : List Held} {s s' : Thread × Caller} {kind : Kind} {α : Type}

private theorem Reaches.tidy {p : Script α} {inner : List Held} (reaches : p.Reaches s inner s')
    (start : Tidy frames s) : Tidy (inner ++ frames) s' := by
  induction reaches generalizing frames with
  | start => exact start
  | finish p s => exact Tidy.keeps_run p frames s start
  | first _ ih => exact ih start
  | @next _ _ p _ _ _ _ _ _ ran _ ih =>
    have kept := Tidy.keeps_run p frames _ start
    rw [ran] at kept
    exact ih kept
  | body _ ih => exact ih start
  | @handler _ p _ _ _ _ _ _ ran _ ih =>
    have kept := Tidy.keeps_run p frames _ start
    rw [ran] at kept
    exact ih kept
  | @function kind f x session vars s s' t inner begun _ ih =>
    obtain ⟨idle, entered⟩ := start.entered begun
    obtain ⟨rfl, _⟩ := List.append_eq_nil_iff.1 idle
    simpa using ih entered

/-- One recording per thread, at every point of every script.  The marker names a tape if that tape,
and no other of any base, is being recorded, for the only session that is open.  To begin another
one then fails and leaves everything but the next number as it is, and succeeds otherwise.  To
freeze or drop the session ends the recording, and finds it.  To record a function, or to take a
gradient, leaves the recording state as it is. -/
theorem one_recording (p : Script α) (cells : Cells) (frames : List Held) (t : Thread) (c : Caller)
    (reaches : p.Reaches (Thread.idle, ⟨[], cells⟩) frames (t, c)) :
    (∀ id, t.active = some id ↔ ∃ (kind : Kind) (tape : Tape kind.Carrier),
      (t.recorder kind).tape = some tape ∧ tape.id = id ∧
      (∀ other, other ≠ kind → (t.recorder other).tape = none) ∧
      frames ++ c.held = [⟨kind, ⟨id⟩⟩]) ∧
    (∀ kind names, (frames ++ c.held = [] ∧ t.Idle ∧
        ∃ s', Caller.begin kind names (t, c) = (.ok (), s')) ∨
      (frames ++ c.held ≠ [] ∧ ∃ tape, t.active = some tape ∧ Caller.begin kind names (t, c) =
        (.error (.state (.alreadyRecording tape)), ({ t with nextTape := t.nextTape + 1 }, c)))) ∧
    (∀ kind (session : Session kind), ⟨kind, session⟩ ∈ frames ++ c.held →
      (∀ ys, (session.freeze ys t).2.Idle ∧
        ∀ id, (session.freeze ys t).1 ≠ .error (.state (.notRecording id))) ∧
      (session.drop t).2.Idle) ∧
    (∀ i < c.held.length,
      (∀ outs, recordingState (Caller.freeze i outs (t, c)).2 = (none, fun _ => none, [])) ∧
      recordingState (Caller.drop i (t, c)).2 = (none, fun _ => none, [])) ∧
    (∀ kind (f : List (Tracked kind.Carrier) → Script (List (Tracked kind.Carrier))) x,
      recordingState (Work.recordMulti kind (fun vars => (f vars).run) x (t, c)).2 =
        recordingState (t, c)) ∧
    ∀ kind (f : List (Tracked kind.Carrier) → Script (Tracked kind.Carrier)) x,
      recordingState (Work.record kind (fun vars => (f vars).run) x (t, c)).2 =
        recordingState (t, c) ∧
      recordingState (Work.gradient kind (fun vars => (f vars).run) x (t, c)).2 =
        recordingState (t, c) := by
  have start : Tidy [] (Thread.idle, ⟨[], cells⟩) :=
    .idle rfl fun kind => by cases kind <;> rfl
  have tidy : Tidy frames (t, c) := by simpa using reaches.tidy start
  refine ⟨fun id => Thread.Open.active_eq_some_iff tidy, fun kind names => ?_,
    fun kind session member => ?_, fun i inside => ⟨fun outs => ?_, ?_⟩, fun kind f x => ?_,
    fun kind f x => ⟨?_, ?_⟩⟩
  · by_cases nothing : frames ++ c.held = []
    · obtain ⟨s', begun, _⟩ := tidy.begin_of_idle nothing kind names
      refine .inl ⟨nothing, ?_, s', begun⟩
      rw [Tidy, nothing] at tidy
      exact tidy.idle_of_nil
    · exact .inr ⟨nothing, tidy.begin_refused nothing kind names⟩
  · have isOpen := Thread.Open.of_mem tidy member
    refine ⟨fun ys => ?_, ?_⟩
    · obtain ⟨tape, t', frozen, ended⟩ := session.freeze_of_open isOpen ys
      rw [frozen]
      exact ⟨ended.idle_of_nil, fun id => tape.freeze_ne_notRecording ys id⟩
    · obtain ⟨t', dropped, ended⟩ := session.drop_of_open isOpen
      rw [dropped]
      exact ended.idle_of_nil
  · exact (tidy.freeze_held outs inside).2
  · exact (tidy.drop_held inside).2
  · exact tidy.recordMulti (fun vars => Tidy.keeps_run (f vars)) x
  · exact tidy.record (fun vars => Tidy.keeps_run (f vars)) x
  · exact tidy.gradient (fun vars => Tidy.keeps_run (f vars)) x

/-- A recorded function that tries to begin a recording over another base and goes on without it. -/
def nestedBegin : Script (Evaluator Float × List Float) :=
  .recordMulti .binary64
    (fun vars => .rescue (.bind (.begin .array32 [0]) fun _ => .done vars) fun _ => .done vars) [2]

/-- Inside of a recorded function, after an attempt to begin a recording over another base. -/
theorem one_recording_nested : ∃ (t : Thread) (c : Caller),
    nestedBegin.Reaches (Thread.idle, ⟨[], fun _ _ => .parameter Base.zero⟩)
      [⟨.binary64, ⟨1⟩⟩] (t, c) ∧
    t.active = some 1 ∧ c.held = [] ∧
    Caller.begin .array32 [0] (t, c) =
      (.error (.state (.alreadyRecording 1)), ({ t with nextTape := 4 }, c)) ∧
    ((⟨1⟩ : Session .binary64).freeze [] t).2.Idle := by
  obtain ⟨t, c, reaches, active, number, held⟩ : ∃ (t : Thread) (c : Caller),
      nestedBegin.Reaches (Thread.idle, ⟨[], fun _ _ => .parameter Base.zero⟩)
        ([] ++ [⟨.binary64, ⟨1⟩⟩]) (t, c) ∧ t.active = some 1 ∧ t.nextTape = 3 ∧ c.held = [] := by
    unfold nestedBegin
    exact ⟨_, _, .function rfl (.handler rfl (.start _ _)), rfl, rfl, rfl⟩
  obtain ⟨_, begins, ends, _⟩ := one_recording _ _ _ _ _ reaches
  refine ⟨t, c, reaches, active, held, ?_, ?_⟩
  · obtain ⟨nothing, _⟩ | ⟨_, tape, active', refused⟩ := begins .array32 [0]
    · cases nothing
    · obtain rfl : 1 = tape := Option.some.inj (active.symm.trans active')
      rwa [number] at refused
  · exact ((ends .binary64 ⟨1⟩ List.mem_cons_self).1 []).1

end Script

end TaylorTape
