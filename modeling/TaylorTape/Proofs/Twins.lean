import TaylorTape.Proofs.Operations
import TaylorTape.Proofs.Recorded

/-!
Tapes that differ in how operations are written down.

An operation stands on a tape as an entry of its own, or as a call of an atomic that computes it.  Two
tapes are twins if they have the same values in the same places, and equal entries but for operations
of the first that are such calls on the second.  Twins stay twins when outputs are placed on them,
when they are pruned, and when they are frozen: the same entries are live and get the same new
positions, and what is refused of one is refused of the other with the same error.
-/

set_option autoImplicit false
set_option relaxedAutoImplicit false

namespace TaylorTape

section Outcomes

variable {ε α α' β β' : Type} {E : ε → ε → Prop} {R : α → α' → Prop} {S : β → β' → Prop}

/-- Two computations that both succeed, with related outcomes, or both fail, with related errors. -/
inductive Alike (E : ε → ε → Prop) (R : α → α' → Prop) : Except ε α → Except ε α' → Prop where
  | ok {a : α} {a' : α'} (related : R a a') : Alike E R (.ok a) (.ok a')
  | error {err err' : ε} (related : E err err') : Alike E R (.error err) (.error err')

namespace Alike

variable {x : Except ε α} {x' : Except ε α'}

theorem bind {f : α → Except ε β} {f' : α' → Except ε β'} (first : Alike E R x x')
    (next : ∀ a a', R a a' → Alike E S (f a) (f' a')) : Alike E S (x >>= f) (x' >>= f') := by
  cases first with
  | ok related => exact next _ _ related
  | error related => exact .error related

theorem mono {R' : α → α' → Prop} (alike : Alike E R x x') (weaker : ∀ a a', R a a' → R' a a') :
    Alike E R' x x' := by
  cases alike with
  | ok related => exact .ok (weaker _ _ related)
  | error related => exact .error related

theorem known (alike : Alike E R x x') : Alike E (fun a a' => x = .ok a ∧ R a a') x x' := by
  cases alike with
  | ok related => exact .ok ⟨rfl, related⟩
  | error related => exact .error related

theorem refl [Std.Refl E] (x : Except ε α) : Alike E (· = ·) x x := by
  cases x with
  | ok a => exact .ok rfl
  | error err => exact .error (Std.Refl.refl err)

theorem eq {x x' : Except ε α} (alike : Alike (· = ·) (· = ·) x x') : x' = x := by
  cases alike with
  | ok related | error related => rw [related]

theorem foldlM {σ σ' γ : Type} {T : σ → σ' → Prop} {f : σ → γ → Except ε σ}
    {f' : σ' → γ → Except ε σ'} {xs : List γ}
    (step : ∀ x ∈ xs, ∀ s s', T s s' → Alike E T (f s x) (f' s' x)) {s : σ} {s' : σ'}
    (start : T s s') : Alike E T (xs.foldlM f s) (xs.foldlM f' s') := by
  induction xs generalizing s s' with
  | nil => exact .ok start
  | cons x xs ih =>
    rw [List.foldlM_cons, List.foldlM_cons]
    exact (step x List.mem_cons_self s s' start).bind fun t t' =>
      ih fun y member => step y (List.mem_cons_of_mem x member)

end Alike

end Outcomes

section States

variable {ε σ σ' α α' β β' : Type} {E : ε → ε → Prop} {T : σ → σ' → Prop} {R : α → α' → Prop}
  {S : β → β' → Prop}

/-- Two computations that have like outcomes on related states, and leave related states. -/
def Paired (E : ε → ε → Prop) (T : σ → σ' → Prop) (R : α → α' → Prop)
    (work : ExceptT ε (StateM σ) α) (work' : ExceptT ε (StateM σ') α') : Prop :=
  ∀ s s', T s s' → Alike E R (work s).1 (work' s').1 ∧ T (work s).2 (work' s').2

namespace Paired

theorem pure {a : α} {a' : α'} (related : R a a') :
    Paired E T R (Pure.pure a : ExceptT ε (StateM σ) α) (Pure.pure a' : ExceptT ε (StateM σ') α') :=
  fun _ _ states => ⟨.ok related, states⟩

theorem lift {x : Except ε α} {x' : Except ε α'} (alike : Alike E R x x') :
    Paired E T R (liftM x : ExceptT ε (StateM σ) α) (liftM x' : ExceptT ε (StateM σ') α') := by
  intro s s' states
  rw [run_lift, run_lift]
  exact ⟨alike, states⟩

theorem bind {work : ExceptT ε (StateM σ) α} {work' : ExceptT ε (StateM σ') α'}
    {f : α → ExceptT ε (StateM σ) β} {f' : α' → ExceptT ε (StateM σ') β'}
    (first : Paired E T R work work') (next : ∀ a a', R a a' → Paired E T S (f a) (f' a')) :
    Paired E T S (work >>= f) (work' >>= f') := by
  intro s s' states
  have both := first s s' states
  rw [run_bind, run_bind]
  cases ran : work s with
  | mk outcome t =>
    cases ran' : work' s' with
    | mk outcome' t' =>
      rw [ran, ran'] at both
      obtain ⟨alike, left⟩ := both
      cases alike with
      | ok related => exact next _ _ related t t' left
      | error related => exact ⟨.error related, left⟩

theorem eq_bind {work : ExceptT ε (StateM σ) α} {work' : ExceptT ε (StateM σ') α}
    {f : α → ExceptT ε (StateM σ) β} {f' : α → ExceptT ε (StateM σ') β'}
    (first : Paired E T (· = ·) work work') (next : ∀ a, Paired E T S (f a) (f' a)) :
    Paired E T S (work >>= f) (work' >>= f') :=
  first.bind fun a _ same => same ▸ next a

theorem lift_bind [Std.Refl E] {x : Except ε α} {f : α → ExceptT ε (StateM σ) β}
    {f' : α → ExceptT ε (StateM σ') β'} (next : ∀ a, x = .ok a → Paired E T S (f a) (f' a)) :
    Paired E T S ((liftM x : ExceptT ε (StateM σ) α) >>= f)
      ((liftM x : ExceptT ε (StateM σ') α) >>= f') :=
  (lift (Alike.refl x).known).bind fun a _ both => both.2 ▸ next a both.1

theorem forM {f : α → ExceptT ε (StateM σ) PUnit} {f' : α → ExceptT ε (StateM σ') PUnit}
    {xs : List α} (each : ∀ x ∈ xs, Paired E T (· = ·) (f x) (f' x)) :
    Paired E T (· = ·) (xs.forM f) (xs.forM f') := by
  induction xs with
  | nil => exact .pure rfl
  | cons x xs ih =>
    rw [forM_cons, forM_cons]
    exact (each x List.mem_cons_self).eq_bind fun _ =>
      ih fun y member => each y (List.mem_cons_of_mem x member)

end Paired

end States

variable {B F : Type} [Scalar F] [Base B F]

/-- How the entries at one position of two tapes with their tables of atomics correspond. -/
inductive Entry.Twin (table table' : Array (Registered B)) : Entry → Entry → Prop where
  | same {e : Entry} (plain : ∀ place args n, e ≠ .call place args n) : Twin table table' e e
  /-- Both call one atomic, which may have different places in the tables. -/
  | call {place place' n : Nat} {args : List Nat} {r : Registered B}
    (there : table[place]? = some r) (there' : table'[place']? = some r) :
    Twin table table' (.call place args n) (.call place' args n)
  /-- An operation is a call of an atomic that computes it. -/
  | computed {e : Entry} {op : Operation} {args : List Nat} {place' : Nat} {r : Registered B}
    (operation : e.operation? = some (op, args)) (there' : table'[place']? = some r)
    (computes : r.op.Computes op) : Twin table table' e (.call place' args 1)

/-- Entries with the same values that correspond at every position. -/
structure Beside (table table' : Array (Registered B)) (nodes nodes' : Array (Node B)) : Prop where
  size : nodes'.size = nodes.size
  each : ∀ (i : Nat) node node', nodes[i]? = some node → nodes'[i]? = some node' →
    node'.value = node.value ∧ Entry.Twin table table' node.entry node'.entry

/-- A tape and one on which some operations are calls. -/
structure Tape.Twin (tape tape' : Tape B) : Prop where
  id : tape'.id = tape.id
  inputs : tape'.numInputs = tape.numInputs
  nodes : Beside tape.atomics tape'.atomics tape.nodes tape'.nodes

namespace Entry

variable {table table' next next' : Array (Registered B)} {e e' : Entry} {op : Operation}
  {args : List Nat}

omit [Scalar F] [Base B F] in
theorem operands_of_operation (operation : e.operation? = some (op, args)) : e.operands = args := by
  cases e with
  | input | const | call | result => cases operation
  | unary | binary =>
    cases operation
    rfl

theorem arity_of_operation (operation : e.operation? = some (op, args)) :
    args.length = op.arity := by
  cases e with
  | input | const | call | result => cases operation
  | unary | binary =>
    cases operation
    rfl

theorem span_of_operation (operation : e.operation? = some (op, args)) : e.span = 1 := by
  cases e with
  | input | const | call | result => cases operation
  | unary | binary => rfl

namespace Twin

theorem mono (twin : Twin table table' e e')
    (grows : ∀ (place : Nat) r, table[place]? = some r → next[place]? = some r)
    (grows' : ∀ (place : Nat) r, table'[place]? = some r → next'[place]? = some r) :
    Twin next next' e e' := by
  cases twin with
  | same plain => exact .same plain
  | call there there' => exact .call (grows _ _ there) (grows' _ _ there')
  | computed operation there' computes => exact .computed operation (grows' _ _ there') computes

variable (twin : Twin table table' e e')
include twin

theorem operands_eq : e'.operands = e.operands := by
  cases twin with
  | same | call => rfl
  | computed operation => exact (operands_of_operation operation).symm

theorem span_eq : e'.span = e.span := by
  cases twin with
  | same | call => rfl
  | computed operation => exact (span_of_operation operation).symm

theorem const_iff : e' = .const ↔ e = .const := by
  cases twin with
  | same => rfl
  | call => exact iff_of_false nofun nofun
  | computed operation =>
    refine iff_of_false nofun ?_
    rintro rfl
    cases operation

private theorem reaches_eq (i : Nat) : e'.reaches i = e.reaches i := by
  cases twin with
  | same | call => rfl
  | computed operation =>
    cases e with
    | input | const | call | result => cases operation
    | unary | binary =>
      cases operation
      rfl

private theorem rename (f : Nat → Except Error Nat) :
    Alike (· = ·) (Twin table table') (e.rename f) (e'.rename f) := by
  cases twin with
  | same plain =>
    cases e with
    | input | const => exact .ok (.same plain)
    | call place args n => exact absurd rfl (plain place args n)
    | unary op a =>
      exact (Alike.refl (f a)).bind fun b _ same => same ▸ .ok (.same nofun)
    | binary op a b =>
      refine (Alike.refl (f a)).bind fun a' _ same => same ▸ ?_
      exact (Alike.refl (f b)).bind fun b' _ same => same ▸ .ok (.same nofun)
    | result owner =>
      exact (Alike.refl (f owner)).bind fun b _ same => same ▸ .ok (.same nofun)
  | @call place place' n args r there there' =>
    exact (Alike.refl (args.mapM f)).bind fun bs _ same =>
      same ▸ .ok (.call there there')
  | computed operation there' computes =>
    cases e with
    | input | const | call | result => cases operation
    | unary op a =>
      cases operation
      simp only [Entry.rename, List.mapM_cons, List.mapM_nil, bind_assoc]
      exact (Alike.refl (f a)).bind fun b _ same =>
        same ▸ .ok (.computed rfl there' computes)
    | binary op a b =>
      cases operation
      simp only [Entry.rename, List.mapM_cons, List.mapM_nil, bind_assoc]
      refine (Alike.refl (f a)).bind fun a' _ same => same ▸ ?_
      exact (Alike.refl (f b)).bind fun b' _ same =>
        same ▸ .ok (.computed rfl there' computes)

end Twin

end Entry

namespace Beside

variable {table table' : Array (Registered B)} {nodes nodes' : Array (Node B)}

theorem mono (beside : Beside table table' nodes nodes') {next next' : Array (Registered B)}
    (grows : ∀ (place : Nat) r, table[place]? = some r → next[place]? = some r)
    (grows' : ∀ (place : Nat) r, table'[place]? = some r → next'[place]? = some r) :
    Beside next next' nodes nodes' where
  size := beside.size
  each i node node' there there' :=
    (beside.each i node node' there there').imp_right fun twin => twin.mono grows grows'

private theorem push (beside : Beside table table' nodes nodes') {e e' : Entry}
    (twin : Entry.Twin table table' e e') (v : B) :
    Beside table table' (nodes.push ⟨e, v⟩) (nodes'.push ⟨e', v⟩) where
  size := by rw [Array.size_push, Array.size_push, beside.size]
  each i node node' there there' := by
    rw [Array.getElem?_push] at there there'
    by_cases last : i = nodes.size
    · rw [if_pos last] at there
      rw [if_pos (last.trans beside.size.symm)] at there'
      obtain rfl := Option.some.inj there
      obtain rfl := Option.some.inj there'
      exact ⟨rfl, twin⟩
    · rw [if_neg last] at there
      rw [if_neg (beside.size ▸ last)] at there'
      exact beside.each i node node' there there'

end Beside

namespace Tape.Twin

variable {tape tape' : Tape B}

/-- A tape is a twin of itself. -/
theorem refl (tape : Tape B) (known : ∀ i place args n, tape.entry i = .ok (.call place args n) →
    ∃ r, tape.atomics[place]? = some r) : tape.Twin tape where
  id := rfl
  inputs := rfl
  nodes := {
    size := rfl
    each := fun i node node' there there' => by
      obtain rfl := Option.some.inj (there.symm.trans there')
      refine ⟨rfl, ?_⟩
      obtain ⟨e, v⟩ := node
      cases e with
      | call place args n =>
        obtain ⟨r, entered⟩ := known i place args n (entry_of_node there)
        exact .call entered entered
      | input | const | unary | binary | result => exact .same nofun }

variable (twin : tape.Twin tape')
include twin

theorem size_eq : tape'.size = tape.size :=
  twin.nodes.size

theorem exists_entry {i : Nat} {e : Entry} (found : tape.entry i = .ok e) :
    ∃ e', tape'.entry i = .ok e' ∧ Entry.Twin tape.atomics tape'.atomics e e' := by
  obtain ⟨v, there⟩ := entry_eq_ok.1 found
  obtain ⟨node', there'⟩ := exists_node (twin.size_eq ▸ lt_size_of_entry found : i < tape'.size)
  exact ⟨_, entry_of_node there', (twin.nodes.each i _ _ there there').2⟩

theorem value_eq (i : Nat) : tape'.value i = tape.value i := by
  unfold value fetch
  by_cases inside : i < tape.size
  · obtain ⟨node, there⟩ := exists_node inside
    obtain ⟨node', there'⟩ := exists_node (twin.size_eq ▸ inside : i < tape'.size)
    rw [there, there']
    exact congrArg Except.ok (twin.nodes.each i _ _ there there').1
  · have outside : tape.nodes.size ≤ i := Nat.le_of_not_lt inside
    rw [Array.getElem?_eq_none outside, Array.getElem?_eq_none (twin.nodes.size ▸ outside),
      twin.nodes.size]

theorem push {e e' : Entry} (entries : Entry.Twin tape.atomics tape'.atomics e e') (v : B) :
    (tape'.push e' v).1 = (tape.push e v).1 ∧ (tape.push e v).2.Twin (tape'.push e' v).2 :=
  ⟨twin.size_eq, twin.id, twin.inputs, twin.nodes.push entries v⟩

end Tape.Twin

/-! ### Freezing -/

namespace Tape.Twin

variable {tape tape' : Tape B} (twin : tape.Twin tape')
include twin

private theorem outputs (ys : List (Tracked B)) :
    Alike (· = ·) (fun p p' => p.1.Twin p'.1 ∧ p'.2 = p.2) (tape.outputs ys) (tape'.outputs ys) := by
  show Alike _ _ (ys.zipIdx.foldlM placed (tape, [])) (ys.zipIdx.foldlM placed (tape', []))
  refine Alike.foldlM ?_ ⟨twin, rfl⟩
  rintro ⟨y, i⟩ _ ⟨t, _⟩ ⟨t', js⟩ ⟨twins, rfl⟩
  replace twins : t.Twin t' := twins
  dsimp only [placed]
  cases y.place with
  | inline =>
    have const : Entry.Twin t.atomics t'.atomics .const .const := .same nofun
    obtain ⟨index, pushed⟩ := twins.push const y.value
    exact .ok (And.intro pushed (congrArg (fun index => js ++ [index]) index))
  | onTape id index =>
    dsimp only
    rw [twins.id]
    split
    · exact .ok (And.intro twins rfl)
    · exact .error rfl

private theorem live_eq (outputs : List Nat) : tape'.live outputs = tape.live outputs := by
  unfold live
  rw [twin.inputs, twin.size_eq]
  refine congrArg _ (funext fun start => Alike.eq ?_)
  refine Alike.foldlM (T := (· = ·)) (fun i member marks _ same => ?_) rfl
  obtain ⟨e, found⟩ := Tape.exists_entry (List.mem_range.1 (List.mem_reverse.1 member))
  obtain ⟨e', found', entries⟩ := twin.exists_entry found
  rw [← same, found, found']
  simp only [ok_bind, entries.reaches_eq]
  exact .refl _

private theorem compact (marks : Array Bool) :
    Alike (· = ·) Tape.Twin (tape.compact marks) (tape'.compact marks) := by
  unfold Tape.compact
  rw [twin.size_eq]
  refine Alike.bind (R := Beside tape.atomics tape'.atomics) ?_ fun nodes nodes' beside =>
    .ok ⟨twin.id, twin.inputs, beside⟩
  refine Alike.foldlM (fun i member nodes nodes' beside => ?_) ⟨rfl, fun i node node' there => ?_⟩
  · refine (Alike.refl (fetch marks i)).bind fun live _ same => same ▸ ?_
    cases live with
    | false => exact .ok beside
    | true =>
      obtain ⟨node, there⟩ := exists_node (List.mem_range.1 member)
      obtain ⟨node', there'⟩ := exists_node (twin.size_eq ▸ List.mem_range.1 member : i < tape'.size)
      obtain ⟨value, entries⟩ := twin.nodes.each i node node' there there'
      simp only [if_true, fetch_eq_ok_iff.2 there, fetch_eq_ok_iff.2 there', ok_bind, value]
      exact (entries.rename _).bind fun e e' renamed => .ok (beside.push renamed node.value)
  · simp at there

private theorem prune (outputs : List Nat) :
    Alike (· = ·) (fun p p' => p.tape.Twin p'.tape ∧ p'.outputs = p.outputs) (tape.prune outputs)
      (tape'.prune outputs) := by
  unfold Tape.prune
  rw [twin.live_eq]
  refine (Alike.refl _).bind fun marks _ same => same ▸ ?_
  refine (twin.compact marks).bind fun kept kept' twins => ?_
  exact (Alike.refl _).bind fun places _ same => .ok ⟨twins, same.symm⟩

end Tape.Twin

/-- Evaluators of twins with the same outputs and the same coefficients. -/
structure Evaluator.Twin (e e' : Evaluator B) : Prop where
  tape : e.tape.Twin e'.tape
  outputs : e'.outputs = e.outputs
  table : e'.table = e.table

theorem Tape.Twin.freeze {tape tape' : Tape B} (twin : tape.Twin tape') (ys : List (Tracked B)) :
    Alike (· = ·) Evaluator.Twin (tape.freeze ys) (tape'.freeze ys) := by
  refine (twin.outputs ys).bind fun p p' both => ?_
  obtain ⟨whole, outputs⟩ := p
  obtain ⟨whole', _⟩ := p'
  obtain ⟨twins, rfl⟩ := both
  refine (twins.prune _).bind fun q q' both => .ok ⟨both.1, both.2, ?_⟩
  show Coefficients.empty q'.tape.size = Coefficients.empty q.tape.size
  rw [both.1.size_eq]

end TaylorTape
