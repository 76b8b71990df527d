import TaylorTape.Session.Basic
import TaylorTape.Evaluator.Derivatives

/-!
Recording a function by running it once.

The function may do whatever a thread can do, and may use a state of its caller.  The session that
is opened for it ends on every path, also where the function fails.
-/

set_option autoImplicit false
set_option relaxedAutoImplicit false

namespace TaylorTape

/-- Computations on a thread and a state of the caller; what was done before an error stays done. -/
abbrev Work (σ : Type) : Type → Type :=
  ExceptT Error (StateM (Thread × σ))

namespace Work

variable {σ α : Type}

/-- A computation on the thread alone. -/
def onThread (work : Threaded α) : Work σ α :=
  fun (t, s) =>
    let (outcome, t) := work t
    (outcome, (t, s))

/-- The outputs of a function, recorded at a point, as an evaluator, and their values. -/
def recordMulti (kind : Kind)
    (f : List (Tracked kind.Carrier) → Work σ (List (Tracked kind.Carrier)))
    (x : List kind.Carrier) : Work σ (Evaluator kind.Carrier × List kind.Carrier) := do
  let (session, vars) ← onThread (Thread.begin kind (x.map Tracked.parameter))
  let ys ← tryCatch (f vars) fun e => do
    onThread session.drop
    throw e
  let e ← onThread (session.freeze ys)
  return (e, ys.map Tracked.value)

/-- The output of a function, recorded at a point, as an evaluator, and its value. -/
def record (kind : Kind) (f : List (Tracked kind.Carrier) → Work σ (Tracked kind.Carrier))
    (x : List kind.Carrier) : Work σ (Evaluator kind.Carrier × kind.Carrier) := do
  let (e, ys) ← recordMulti kind (fun vars => do return [← f vars]) x
  return (e, ← pick ys 0)

/-- The value and the gradient of a function at a point, recorded there once. -/
def gradient (kind : Kind) (f : List (Tracked kind.Carrier) → Work σ (Tracked kind.Carrier))
    (x : List kind.Carrier) : Work σ (kind.Carrier × List kind.Carrier) := do
  let (e, y) ← record kind f x
  let gradient ← ((Evaluator.gradient x).run e).1
  return (y, gradient)

end Work

end TaylorTape
