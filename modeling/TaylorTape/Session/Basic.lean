import TaylorTape.Kind
import TaylorTape.Evaluator.Basic

/-!
Recordings on one thread.

A thread can record over each base, but only one tape at a time, whatever its base.  Beginning a
recording gives a session; the session ends when it is frozen or dropped, and with it the recording.
Tapes are numbered by the attempts to begin one, and an attempt that fails uses its number up.
-/

set_option autoImplicit false
set_option relaxedAutoImplicit false

namespace TaylorTape

/-- What a thread records, and the atomics that it can call, for every base. -/
structure Thread where
  /-- The number of the tape that is being recorded, whatever its base. -/
  active : Option Nat
  /-- The number of the next tape. -/
  nextTape : Nat
  /-- The recorder of each base. -/
  recorder32 : Recorder Float32
  recorder64 : Recorder Float
  recorderArray32 : Recorder (Value Float32)
  recorderArray64 : Recorder (Value Float)

/-- Computations on a thread; what was done before an error stays done. -/
abbrev Threaded : Type → Type :=
  ExceptT Error (StateM Thread)

/-- The right to end one recording. -/
structure Session (kind : Kind) where
  /-- The number of the tape that was begun. -/
  tape : Nat
  deriving DecidableEq

namespace Thread

/-- A thread that has recorded nothing. -/
def idle : Thread where
  active := none
  nextTape := 1
  recorder32 := Recorder.idle
  recorder64 := Recorder.idle
  recorderArray32 := Recorder.idle
  recorderArray64 := Recorder.idle

/-- Whether a tape of any base is being recorded. -/
def isRecording (t : Thread) : Bool :=
  t.active.isSome

/-- The recorder of a base. -/
def recorder (t : Thread) : (kind : Kind) → Recorder kind.Carrier
  | .binary32 => t.recorder32
  | .binary64 => t.recorder64
  | .array32 => t.recorderArray32
  | .array64 => t.recorderArray64

/-- The thread with the recorder of one base replaced. -/
def setRecorder (t : Thread) : (kind : Kind) → Recorder kind.Carrier → Thread
  | .binary32, r => { t with recorder32 := r }
  | .binary64, r => { t with recorder64 := r }
  | .array32, r => { t with recorderArray32 := r }
  | .array64, r => { t with recorderArray64 := r }

/-- A computation on the recorder of a base. -/
def onRecorder {α : Type} (kind : Kind) (work : Recording kind.Carrier α) : Threaded α :=
  fun t =>
    let (outcome, r) := work (t.recorder kind)
    (outcome, t.setRecorder kind r)

/-- The tape of a base taken away, which ends its recording. -/
def take (kind : Kind) : Threaded (Option (Tape kind.Carrier)) := do
  let t ← get
  let r := t.recorder kind
  if r.tape.isSome then
    set { t.setRecorder kind { r with tape := none } with active := none }
  return r.tape

/-- A recording begun, with some values as its inputs, in order; the values come back as variables
of the new tape. -/
def begin (kind : Kind) (vars : List (Tracked kind.Carrier)) :
    Threaded (Session kind × List (Tracked kind.Carrier)) := do
  let t ← get
  let id := t.nextTape
  set { t with nextTape := id + 1 }
  match t.active with
  | some tape => throw (.state (.alreadyRecording tape))
  | none =>
    let values := vars.map Tracked.value
    modify fun t =>
      { t.setRecorder kind { t.recorder kind with tape := some (.ofInputs id values) } with
        active := some id }
    return (⟨id⟩, values.zipIdx.map fun (v, i) => ⟨v, .onTape id i⟩)

end Thread

namespace Session

variable {kind : Kind}

/-- The number of entries recorded so far. -/
def size (_ : Session kind) : Threaded Nat := do
  return (((← get).recorder kind).tape.map Tape.size).getD 0

/-- The recording ended without a result. -/
def drop (s : Session kind) : Threaded Unit := do
  if (((← get).recorder kind).tape.map Tape.id) = some s.tape then
    let _ ← Thread.take kind

/-- The recording ended, and the evaluator of some outputs; the recording ends also on error. -/
def freeze (s : Session kind) (ys : List (Tracked kind.Carrier)) :
    Threaded (Evaluator kind.Carrier) := do
  match ← Thread.take kind with
  | some tape =>
    if tape.id = s.tape then
      tape.freeze ys
    else
      throw (.state (.notRecording s.tape))
  | none => throw (.state (.notRecording s.tape))

end Session

end TaylorTape
