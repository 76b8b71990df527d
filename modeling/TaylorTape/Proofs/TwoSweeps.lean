import TaylorTape.Proofs.Abreast
import TaylorTape.Proofs.Returned
import TaylorTape.Proofs.Shapes

/-!
Two reverse sweeps over one tape, side by side.

The sweeps are those of two evaluators that stand at one point and whose coefficients stand for the
same.  If their weights stand for the same too, then they pass on shares that stand for the same; an
entry that only one of them leaves out adds nothing in the other.  Which way a partial is written
matters in one place only: where a scalar has been spread over an array by a sum or a difference, a
partial that is a scalar is counted once and not once for each element.  So the partials of some
variables are known to be counted, and a grading of the variables says where that is needed.
-/

set_option autoImplicit false
set_option relaxedAutoImplicit false

namespace TaylorTape

open Value Series

variable {F : Type} [ExactScalar F] {tape : Tape (Value F)} {s : Nat → Value F} {κ : Nat → Prop}
  {e e' : Evaluator (Value F)} {q i : Nat}

/-- Variables whose partials are counted: each of them gets what it needs from the entries that read
it, and so does each scalar that a sum or a difference spreads over an array. -/
structure Tape.Grading (tape : Tape (Value F)) (s : Nat → Value F) (κ : Nat → Prop) : Prop where
  neg : ∀ i a, tape.entry i = .ok (.unary .neg a) → κ a → κ i
  term : ∀ i op a b v, tape.entry i = .ok (.binary op a b) → (op = .add ∨ op = .sub) →
    (v = a ∨ v = b) → κ v → κ i
  spread : ∀ i op a b v, tape.entry i = .ok (.binary op a b) → (op = .add ∨ op = .sub) →
    (v = a ∨ v = b) → tape.entry v ≠ .ok .const → ¬ (s v).SameShape (s i) → κ i
  factor : ∀ i op a b, tape.entry i = .ok (.binary op a b) → (op = .mul ∨ op = .div) → κ a →
    κ i ∨ (s b).SameShape (s i)
  factor' : ∀ i a b, tape.entry i = .ok (.binary .mul a b) → κ b → κ i ∨ (s a).SameShape (s i)
  flip : ∀ i place args n r, tape.entry i = .ok (.call place args n) →
    tape.atomics[place]? = some r → r.op = BuiltIn.flip.atomic → ∀ a ∈ args, κ a → κ i

namespace Evaluator

/-- Two evaluators of one tape at one point, whose coefficients of some orders stand for the same. -/
structure Twins (tape : Tape (Value F)) (s : Nat → Value F) (q : Nat) (e e' : Evaluator (Value F)) :
    Prop where
  left : e.Shaped q
  right : e'.Shaped q
  onTape : e.tape = tape
  onTape' : e'.tape = tape
  shape : ∀ v < tape.size, e.shape v = s v
  shape' : ∀ v < tape.size, e'.shape v = s v
  same : ∀ v < tape.size, ∀ k < q,
    (s v).Carried False False False (e.table.value v k 0) (e'.table.value v k 0)

namespace Twins

theorem symm (twins : Twins tape s q e e') : Twins tape s q e' e :=
  ⟨twins.right, twins.left, twins.onTape', twins.onTape, twins.shape', twins.shape,
    fun v inside k below => (twins.same v inside k below).symm⟩

theorem second (twins : Twins tape s q e e') : Twins tape s q e' e' :=
  ⟨twins.right, twins.right, twins.onTape', twins.onTape', twins.shape', twins.shape',
    fun v inside k below => (twins.same v inside k below).second⟩

theorem wellFormed (twins : Twins tape s q e e') : tape.WellFormed :=
  twins.onTape ▸ twins.left.wellFormed.tape

private theorem onlyBuiltIns (twins : Twins tape s q e e') : tape.OnlyBuiltIns :=
  twins.onTape ▸ twins.left.builtIns

private theorem solves (twins : Twins tape s q e e') : ∃ x, tape.Solves x s := by
  obtain ⟨x, solves⟩ := twins.left.solves
  rw [twins.onTape] at solves
  exact ⟨x, fun i inside => (solves i inside).congr twins.wellFormed fun v made _ _ =>
    twins.shape v (twins.wellFormed.lt_of_produced made)⟩

private theorem coeff (twins : Twins tape s q e e') {v : Nat} (inside : v < tape.size) :
    e.table.coeff v 0 0 = .ok (s v) := by
  rw [← twins.shape v inside]
  exact twins.left.coeff (twins.onTape ▸ inside)

private theorem series (twins : Twins tape s q e e') {v : Nat} (inside : v < tape.size) :
    e.table.series v q 0 = .ok (.of (e.table.along 0 v) q) :=
  twins.left.series (twins.onTape ▸ inside)

end Twins

theorem Shaped.twins (shaped : e.Shaped q) : Twins e.tape e.shape q e e :=
  ⟨shaped, shaped, rfl, rfl, fun _ _ => rfl, fun _ _ => rfl,
    fun v inside k below => carried_of_fits (shaped.fits v inside k below)⟩

/-- Partials of a variable that stand for the same in two sweeps, and are counted where the grading
says so.  It may be known that they stand for zeros. -/
def Matching (s : Nat → Value F) (κ : Nat → Prop) (q : Nat) (still : Prop) (v : Nat)
    (p p' : Series (Value F)) : Prop :=
  Related q ((s v).Carried (κ v) still) (fun _ => False) p p'

theorem Matching.symm {v : Nat} {p p' : Series (Value F)} (matching : Matching s κ q False v p p') :
    Matching s κ q False v p' p :=
  ⟨matching.size', matching.size, fun k c c' here here' =>
    (matching.each k c' c here' here).symm⟩

/-- What two sweeps pass on to a variable: collapsed onto its shape, it stands for the same.  It may
be known that it stands for zeros. -/
def Receives (tape : Tape (Value F)) (s : Nat → Value F) (κ : Nat → Prop) (q : Nat) (still : Prop)
    (v : Nat) (x x' : Series (Value F)) : Prop :=
  tape.entry v = .ok .const ∨
    Related q (fun _ u u' => (s v).Carried (κ v) still False (u.reduceLike (s v))
      (u'.reduceLike (s v))) (fun _ => False) x x'

section Gathering

variable {v : Nat} {p p' x x' : Series (Value F)} (twins : Twins tape s q e e')
  (inside : v < tape.size) (other : tape.entry v ≠ .ok .const)
  (related : Matching s κ q False v p p')
include twins inside other related

private theorem gathered_both (share : Receives tape s κ q False v x x') :
    Both (Matching s κ q False v) (e.gathered v p x) (e'.gathered v p' x') :=
  gathered_related (twins.coeff inside) (twins.symm.coeff inside) related (linear _ _ _)
    (share.resolve_left other)

private theorem gathered_still (share : Receives tape s κ q True v x x) :
    ∃ sum, e'.gathered v p' x = .ok sum ∧ Matching s κ q False v p sum := by
  have share := share.resolve_left other
  refine gathered_right (s := s v) (x := x)
    (Z := fun y y' => y = y' ∧ (s v).Carried (κ v) True False y y) (twins.symm.coeff inside)
    related ?_ ?_
  · rintro u u' y _ own ⟨rfl, zeros⟩
    exact own.add_still zeros
  · refine ⟨share.size, share.size', fun k c c' here here' => ?_⟩
    obtain rfl := Option.some.inj (here.symm.trans here')
    exact ⟨rfl, share.each k c c here here'⟩

end Gathering

private theorem exists_partials_of {m : Nat} {counts : Nat → Prop} {counted still : Prop}
    {vs : List Nat} {pzs pzs' : List (Series (Value F))}
    (own : AllThree (fun v => Related (m + 1) ((s v).Carried (counts v) still) fun _ => False)
      vs pzs pzs') (less : ∀ v ∈ vs, counted → counts v) :
    ∃ fs fs' : List (Nat → Value F), pzs = fs.map (.of · (m + 1)) ∧ pzs' = fs'.map (.of · (m + 1)) ∧
      ∀ k < m + 1, AllThree (·.Carried counted still False) (vs.map s) (fs.map (· k))
        (fs'.map (· k)) := by
  induction own with
  | nil => exact ⟨[], [], rfl, rfl, fun _ _ => .nil⟩
  | cons head _ ih =>
    rename_i v _ _ vs _ _ _
    obtain ⟨fs, fs', rfl, rfl, all⟩ := ih fun v member => less v (List.mem_cons_of_mem _ member)
    obtain ⟨f, f', rfl, rfl, each⟩ := head.exists_of (.scalar 0) (.scalar 0)
    exact ⟨f :: fs, f' :: fs', rfl, rfl, fun k below =>
      .cons ((each k below).imp (less v List.mem_cons_self) id id) (all k below)⟩

section Passing

variable {counted still full : Prop} {v : Nat} {x x' pz pz' : Series (Value F)}

theorem receives_of_related {t : Value F}
    (share : Related q (t.Carried counted still) (fun _ => full) x x') (fits : (s v).Fits t)
    (spread : ¬ (s v).SameShape t → counted ∨ full) (ready : κ v → counted ∨ full) :
    Receives tape s κ q still v x x' :=
  .inr ⟨share.size, share.size', fun k c c' here here' =>
    (share.each k c c' here here').reduceLike fits spread ready⟩

private theorem term_receives (grading : tape.Grading s κ) {op : BinaryOp} {a b : Nat}
    (found : tape.entry i = .ok (.binary op a b)) (plain : op = .add ∨ op = .sub)
    (reads : v = a ∨ v = b) (fits : (s v).Fits (s i)) (share : Matching s κ q still i x x') :
    Receives tape s κ q still v x x' := by
  by_cases const : tape.entry v = .ok .const
  · exact .inl const
  · exact receives_of_related share fits
      (fun odd => .inl (grading.spread i op a b v found plain reads const odd))
      fun counted => .inl (grading.term i op a b v found plain reads counted)

variable (twins : Twins tape s q e e')
include twins

private theorem Twins.known (inside : v < tape.size) {t : Value F} (fits : (s v).Fits t) :
    Related q (t.Carried False False) (fun k => k = 0 ∧ (s v).SameShape t)
      (.of (e.table.along 0 v) q) (.of (e'.table.along 0 v) q) := by
  refine related_of fun k below => ?_
  by_cases full : k = 0 ∧ (s v).SameShape t
  · obtain ⟨rfl, shape⟩ := full
    rw [show e.table.along 0 v 0 = s v from twins.shape v inside,
      show e'.table.along 0 v 0 = s v from twins.shape' v inside]
    exact carried_of_sameShape shape False.elim
  · exact ((twins.same v inside k below).spread fits).imp id id full

private theorem unary_receives {op : UnaryOp} {a : Nat} (grading : tape.Grading s κ)
    (found : tape.entry i = .ok (.unary op a)) (own : Matching s κ q still i pz pz') :
    Both (Receives tape s κ q still a)
      (op.pullback (.of (e.table.along 0 a) q) (.of (e.table.along 0 i) q) pz (zeros q))
      (op.pullback (.of (e'.table.along 0 a) q) (.of (e'.table.along 0 i) q) pz' (zeros q)) := by
  obtain ⟨x, solves⟩ := twins.solves
  have below : a < tape.size := twins.wellFormed.operand_lt found (by simp [Entry.operands])
  have shape : (s a).SameShape (s i) := solves.unary found ▸ (SameShape.map _ _).symm
  have args := (twins.known below shape.fits).weaken (respected _).weaken
    fun _ _ zero => ⟨zero, shape⟩
  have known := (twins.known (Tape.lt_size_of_entry found) (SameShape.refl _).fits).weaken
    (respected _).weaken fun _ _ zero => ⟨zero, SameShape.refl _⟩
  apply (op.pullback_both (respected (s i)) (linear (s i) (κ i) still) twins.left.positive args
    known own).mono
  intro w w' share
  refine receives_of_related share shape.fits (absurd shape) fun counted => ?_
  by_cases same : op = .neg
  · subst same
    exact .inl (grading.neg i a found counted)
  · exact .inr same

private theorem binary_receives {op : BinaryOp} {a b : Nat} (grading : tape.Grading s κ)
    (found : tape.entry i = .ok (.binary op a b)) (own : Matching s κ q still i pz pz') :
    Both (Each (Receives tape s κ q still a) (Receives tape s κ q still b))
      (op.pullback (.of (e.table.along 0 a) q) (.of (e.table.along 0 b) q)
        (.of (e.table.along 0 i) q) pz (zeros q) (zeros q))
      (op.pullback (.of (e'.table.along 0 a) q) (.of (e'.table.along 0 b) q)
        (.of (e'.table.along 0 i) q) pz' (zeros q) (zeros q)) := by
  obtain ⟨x, solves⟩ := twins.solves
  have below : a < tape.size := twins.wellFormed.operand_lt found (by simp [Entry.operands])
  have below' : b < tape.size := twins.wellFormed.operand_lt found (by simp [Entry.operands])
  obtain ⟨left, right⟩ := BinaryOp.fits_of_eval (solves.binary found)
  have either := BinaryOp.sameShape_of_eval (solves.binary found)
  have known := (twins.known (Tape.lt_size_of_entry found) (SameShape.refl _).fits).weaken
    (respected _).weaken fun _ _ zero => ⟨zero, SameShape.refl _⟩
  apply (op.pullback_both (linear (s i) (κ i) still) twins.left.positive
    (twins.known below left) (twins.known below' right) known own).mono
  rintro ⟨w, w'⟩ ⟨r, r'⟩ ⟨share, share'⟩
  cases op with
  | add =>
    exact ⟨term_receives grading found (.inl rfl) (.inl rfl) left share,
      term_receives grading found (.inl rfl) (.inr rfl) right share'⟩
  | sub =>
    exact ⟨term_receives grading found (.inr rfl) (.inl rfl) left share,
      term_receives grading found (.inr rfl) (.inr rfl) right share'⟩
  | mul =>
    exact ⟨receives_of_related share left (fun odd => .inr (either.resolve_left odd))
      (grading.factor i _ a b found (.inl rfl)), receives_of_related share' right
      (fun odd => .inr (either.resolve_right odd)) (grading.factor' i a b found)⟩
  | div =>
    exact ⟨receives_of_related share left (fun odd => .inr (either.resolve_left odd))
      (grading.factor i _ a b found (.inr rfl)), receives_of_related share' right
      (fun _ => .inr trivial) fun _ => .inr trivial⟩

/-- What a call passes on to its arguments. -/
private theorem call_receives (grading : tape.Grading s κ) {place n : Nat} {args : List Nat}
    {pzs pzs' : List (Series (Value F))} (found : tape.entry i = .ok (.call place args n))
    (own : AllThree (Matching s κ q still) (List.range' i n) pzs pzs') {r : Registered (Value F)}
    (there : tape.atomics[place]? = some r) (ys ys' : List (Series (Value F))) :
    Both (AllThree (Receives tape s κ q still) args)
      (Tape.answered r i (q - 1) (r.op.reverse (q - 1)
        (args.map fun a => .of (e.table.along 0 a) q) ys pzs))
      (Tape.answered r i (q - 1) (r.op.reverse (q - 1)
        (args.map fun a => .of (e'.table.along 0 a) q) ys' pzs')) := by
  have : Nonempty (List (Value F)) := ⟨[]⟩
  obtain ⟨x, solves⟩ := twins.solves
  obtain ⟨_, there', builtIn⟩ := twins.onlyBuiltIns i place args n found
  obtain rfl := Option.some.inj (there.symm.trans there')
  obtain ⟨b, op, stepped⟩ := solves.call found there builtIn
  obtain ⟨m, rfl⟩ : ∃ m, q = m + 1 := ⟨q - 1, (Nat.sub_add_cancel twins.left.positive).symm⟩
  have count := BuiltIn.length_step stepped
  rw [List.length_map, List.length_range'] at count
  -- an array that is turned around is the only result of its call
  have counts : ∀ v ∈ List.range' i n, b = .flip ∧ κ i → κ v := by
    rintro v member ⟨rfl, counted⟩
    obtain rfl : n = 1 := count
    obtain rfl : v = i := by simpa using member
    exact counted
  obtain ⟨fs, fs', rfl, rfl, given⟩ := exists_partials_of own counts
  have each : ∀ k < m + 1, Both (AllThree
      (·.Carried (b = .flip → b = .flip ∧ κ i) still False) (args.map s))
      (b.back (args.map s) (fs.map (· k))) (b.back (args.map s) (fs'.map (· k))) := fun k below =>
    b.returns stepped (given k below)
  choose! ps ps' back back' all using each
  have along : ∀ {e₁ : Evaluator (Value F)}, (∀ v < tape.size, e₁.shape v = s v) →
      (args.map (e₁.table.along 0)).map (· 0) = args.map s := fun shape => by
    rw [List.map_map]
    exact List.map_congr_left fun a reads => shape a (twins.wellFormed.operand_lt found reads)
  obtain ⟨lengths, lengths'⟩ := own.length_eq
  rw [List.length_range', List.length_map, count] at lengths lengths'
  have done := BuiltIn.reverse_eq (args.map (e.table.along 0)) lengths.symm
    (fun k below => (along twins.shape).symm ▸ back k below) ys
  have done' := BuiltIn.reverse_eq (args.map (e'.table.along 0)) lengths'.symm
    (fun k below => (along twins.shape').symm ▸ back' k below) ys'
  rw [List.map_map, List.length_map] at done done'
  refine ⟨_, _, Tape.answered_eq_ok.2 (op ▸ done), Tape.answered_eq_ok.2 (op ▸ done'), ?_⟩
  refine allThree_of_get (by simp) (by simp) fun j a share share' at_j at_j' at_j'' => ?_
  have inside : j < args.length := (List.getElem?_eq_some_iff.1 at_j).1
  have reads : a ∈ args := List.mem_of_getElem? at_j
  rw [List.getElem?_map, List.getElem?_range inside] at at_j' at_j''
  obtain rfl := Option.some.inj at_j'
  obtain rfl := Option.some.inj at_j''
  have share : Related (m + 1) ((s a).Carried (b = .flip → b = .flip ∧ κ i) still) (fun _ => False)
      (.of (fun k => ((ps k)[j]?).getD Base.zero) (m + 1))
      (.of (fun k => ((ps' k)[j]?).getD Base.zero) (m + 1)) := related_of fun k below => by
    obtain ⟨u, u', here, here', carried⟩ := (all k below).get
      ((List.getElem?_map ..).trans (congrArg (Option.map s) at_j))
    rw [here, here']
    exact carried
  exact receives_of_related share (SameShape.refl (s a)).fits (absurd (SameShape.refl _))
    fun counted => .inl fun turns =>
      ⟨turns, grading.flip i place args n r found there (turns ▸ op) a reads counted⟩

/-- What an entry passes on to its operands. -/
theorem passed_both (grading : tape.Grading s κ) {entry : Entry}
    (found : tape.entry i = .ok entry) {pzs pzs' : List (Series (Value F))}
    (own : AllThree (Matching s κ q still) (List.range' i entry.span) pzs pzs') :
    Both (AllThree (Receives tape s κ q still) entry.operands) (e.passed q i entry pzs)
      (e'.passed q i entry pzs') := by
  have inside := Tape.lt_size_of_entry found
  have below : ∀ a ∈ entry.operands, a < tape.size := fun a reads =>
    twins.wellFormed.operand_lt found reads
  cases entry with
  | input | const | result owner => exact .ok .nil
  | unary op a =>
    have left := below a (by simp [Entry.operands])
    cases own with
    | cons head tail =>
      cases tail
      simp only [passed, twins.series left, twins.symm.series left, twins.series inside,
        twins.symm.series inside, ok_bind]
      apply ((unary_receives twins grading found head).mapError _ _).bind
      intro x x' share
      exact .ok (.single share)
  | binary op a b =>
    have left := below a (by simp [Entry.operands])
    have right := below b (by simp [Entry.operands])
    cases own with
    | cons head tail =>
      cases tail
      simp only [passed, twins.series left, twins.symm.series left, twins.series right,
        twins.symm.series right, twins.series inside, twins.symm.series inside, ok_bind]
      apply ((binary_receives twins grading found head).mapError _ _).bind
      rintro ⟨x, y⟩ ⟨x', y'⟩ ⟨share, share'⟩
      exact .ok (.cons share (.single share'))
  | call place args n =>
    obtain ⟨r, there, _⟩ := twins.onlyBuiltIns i place args n found
    have results : ∀ j ∈ List.range' i n, j < tape.size := fun j member => by
      have room : i + n ≤ tape.size := twins.wellFormed.span_le found
      have := List.mem_range'_1.1 member
      omega
    have read : ∀ {e₁ e₂ : Evaluator (Value F)}, Twins tape s q e₁ e₂ → ∀ {vs : List Nat},
        (∀ v ∈ vs, v < tape.size) →
        vs.mapM (fun v => e₁.table.series v q 0) = .ok (vs.map fun v => .of (e₁.table.along 0 v) q) :=
      fun twins _ inside => mapM_eq_map fun v member => twins.series (inside v member)
    have left : args.mapM (fun a => e.table.series a q 0) = .ok _ := read twins below
    have left' : args.mapM (fun a => e'.table.series a q 0) = .ok _ := read twins.symm below
    simp only [passed, twins.onTape, twins.onTape', fetch_eq_ok_iff.2 there, left, left',
      read twins results, read twins.symm results, ok_bind]
    exact call_receives twins grading found own there _ _

end Passing

section Sweeping

variable {idle idle' : Value F → Bool}

private theorem still_of_idle {vs : List Nat} {pzs pzs' : List (Series (Value F))}
    (own : AllThree (Matching s κ q False) vs pzs pzs')
    (idles : pzs.all (·.all Base.isAllZero) = true) :
    AllThree (Matching s κ q True) vs pzs' pzs' := by
  induction own with
  | nil => exact .nil
  | cons head _ ih =>
    rw [List.all_cons, Bool.and_eq_true] at idles
    refine .cons ⟨head.size', head.size', fun k c c' here here' => ?_⟩ (ih idles.2)
    obtain rfl := Option.some.inj (here.symm.trans here')
    have below : k < q := head.size' ▸ (Array.getElem?_eq_some_iff.1 here).1
    obtain ⟨u, u', read, read', carried⟩ := head.coeff below
    obtain rfl := Option.some.inj (here.symm.trans (fetch_eq_ok_iff.1 read'))
    obtain ⟨room, rfl⟩ := Array.getElem?_eq_some_iff.1 (fetch_eq_ok_iff.1 read)
    have zero := Array.all_eq_true.1 idles.1 k room
    exact { carried.second with still := fun _ e inside =>
      (carried.same e inside).symm.trans (component_of_isAllZero carried.left zero inside) }

private theorem all_isAllZero (quiet : ∀ u, idle u = true → Base.isAllZero u = true)
    {pzs : List (Series (Value F))} (idles : pzs.all (·.all idle) = true) :
    pzs.all (·.all Base.isAllZero) = true :=
  List.all_eq_true.2 fun p member => Array.all_eq_true.2 fun k room =>
    quiet _ (Array.all_eq_true.1 (List.all_eq_true.1 idles p member) k room)

theorem passed_still (twins : Twins tape s q e e') (grading : tape.Grading s κ) {entry : Entry}
    (found : tape.entry i = .ok entry) {pzs pzs' : List (Series (Value F))}
    (own : AllThree (Matching s κ q False) (List.range' i entry.span) pzs pzs')
    (idles : pzs.all (·.all Base.isAllZero) = true) :
    ∃ shares, e'.passed q i entry pzs' = .ok shares ∧
      List.Forall₂ (fun v x => Receives tape s κ q True v x x) entry.operands shares := by
  obtain ⟨shares, shares', done, done', all⟩ :=
    passed_both twins.second grading found (still_of_idle own idles)
  obtain rfl := Except.ok.inj (done.symm.trans done')
  exact ⟨shares, done, all.forall₂_diagonal⟩

variable (twins : Twins tape s q e e')
include twins

/-- The two sweeps side by side, each of which may leave out entries whose partials are all zero. -/
theorem Twins.abreast (grading : tape.Grading s κ)
    (quiet : ∀ u, idle u = true → Base.isAllZero u = true)
    (quiet' : ∀ u, idle' u = true → Base.isAllZero u = true) :
    Abreast e e' idle idle' q (Matching s κ q False) (Receives tape s κ q False)
      (fun v x => Receives tape s κ q True v x x) fun v x => Receives tape s κ q True v x x := by
  obtain rfl := twins.onTape
  exact {
    wellFormed := twins.wellFormed
    wellFormed' := twins.onTape' ▸ twins.wellFormed
    size := congrArg Tape.size twins.onTape'
    entries := fun i => by rw [twins.onTape']
    zeros := fun _ _ => related_zeros (linear _ _ _) q
    gather := fun _ inside other _ _ _ _ related => gathered_both twins inside other related
    gather_left := fun _ inside other _ _ _ related share => by
      obtain ⟨sum, done, related⟩ := gathered_still twins.symm inside other related.symm share
      exact ⟨sum, done, related.symm⟩
    gather_right := fun _ inside other _ _ _ related => gathered_still twins inside other related
    pass := fun _ _ _ _ found own _ _ => passed_both twins grading found own
    pass_left := fun _ _ _ _ found own _ idles' =>
      passed_still twins.symm grading found (own.swap.mono fun _ _ _ => Matching.symm)
        (all_isAllZero quiet' idles')
    pass_right := fun _ _ _ _ found own idles _ =>
      passed_still twins grading found own (all_isAllZero quiet idles) }

theorem delivered_both {j : Nat} (inside : j < tape.size) {p p' : Series (Value F)}
    (related : Matching s κ q False j p p') :
    Both (· = ·) (e.delivered j p) (e'.delivered j p') := by
  obtain ⟨z, z', done, done', same⟩ := delivered_related (O := Eq) (twins.coeff inside)
    (twins.symm.coeff inside) related fun u u' carried => by
      obtain ⟨w, made, made'⟩ := carried.exists_broadcast
      rw [show Base.reduceLike u (s j) = u from reduceLike_fits carried.left,
        show Base.reduceLike u' (s j) = u' from reduceLike_fits carried.right]
      exact ⟨w, w, made, made', rfl⟩
  exact ⟨_, _, done, done', List.map_congr_left fun k member => same k (List.mem_range.1 member)⟩

/-- Sweeps whose weights stand for the same give the same. -/
theorem reverseWith_both (grading : tape.Grading s κ)
    (quiet : ∀ u, idle u = true → Base.isAllZero u = true)
    (quiet' : ∀ u, idle' u = true → Base.isAllZero u = true) {outputs : List Nat}
    (weighted : e.outputs = outputs) (weighted' : e'.outputs = outputs)
    {weights weights' : List (List (Value F))} (accepts : e.AcceptsReverse q weights)
    (accepts' : e'.AcceptsReverse q weights')
    (shares : AllThree (Receives tape s κ q False) outputs (weights.map List.toArray)
      (weights'.map List.toArray)) :
    Both (· = ·) (e.reverseWith idle q weights) (e'.reverseWith idle' q weights') := by
  obtain rfl := weighted
  obtain ⟨rows, rows', done, done', all⟩ := (twins.abreast grading quiet quiet').reverseWith
    weighted' twins.left.wellFormed.outputs
    (by rw [numInputs, numInputs, twins.onTape, twins.onTape']) accepts accepts' shares
    (O := fun _ => Eq) fun j input p p' related =>
      delivered_both twins (input.trans_le (twins.onTape ▸ twins.wellFormed.inputs_le)) related
  exact ⟨rows, rows', done, done', all.eq⟩

end Sweeping

end Evaluator

end TaylorTape
