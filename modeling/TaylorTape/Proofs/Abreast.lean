import TaylorTape.Proofs.Adjoint
import TaylorTape.Proofs.Shares

/-!
Reverse sweeps over two tapes of the same entries, side by side.

What one sweep passes on is matched with what the other passes on, variable by variable.  Each sweep
leaves entries out by its own test, so that an entry may be left out in one of them only; then what
the other passes on must match with nothing.  This is shown here once, for any two bases and any way
to match their partials.
-/

set_option autoImplicit false
set_option relaxedAutoImplicit false

namespace TaylorTape

open Series

theorem Both.swap {ε α α' : Type} {R : α → α' → Prop} {x : Except ε α} {x' : Except ε α'}
    (both : Both R x x') : Both (fun a' a => R a a') x' x := by
  obtain ⟨a, a', rfl, rfl, related⟩ := both
  exact .ok related

theorem AllThree.swap {α β γ : Type} {R : α → β → γ → Prop} {as : List α} {bs : List β}
    {cs : List γ} (all : AllThree R as bs cs) : AllThree (fun a c b => R a b c) as cs bs := by
  induction all with
  | nil => exact .nil
  | cons head _ ih => exact .cons head ih

theorem AllThree.forall₂_right {α β γ : Type} {R : α → β → γ → Prop} {as : List α} {bs : List β}
    {cs : List γ} (all : AllThree R as bs cs) : List.Forall₂ (fun a c => ∃ b, R a b c) as cs := by
  induction all with
  | nil => exact .nil
  | cons head _ ih => exact .cons ⟨_, head⟩ ih

theorem AllThree.forall₂_diagonal {α β : Type} {R : α → β → β → Prop} {as : List α} {bs : List β}
    (all : AllThree R as bs bs) : List.Forall₂ (fun a b => R a b b) as bs := by
  induction as generalizing bs with
  | nil =>
    cases all
    exact .nil
  | cons a as ih =>
    cases all with
    | cons head tail => exact .cons head (ih tail)

theorem AllThree.eq {α β : Type} {as : List α} {bs cs : List β}
    (all : AllThree (fun _ b c => b = c) as bs cs) : bs = cs := by
  induction all with
  | nil => rfl
  | cons head _ ih => rw [head, ih]

namespace Evaluator

variable {B B' F : Type} [Scalar F] [Base B F] [Base B' F] {e : Evaluator B} {e' : Evaluator B'}
  {idle : B → Bool} {idle' : B' → Bool} {q : Nat}

/-- What an input receives from its partials, in its shape. -/
def delivered (e : Evaluator B) (j : Nat) (p : Series B) : Except Error (List B) := do
  let x ← e.table.coeff j 0 0
  p.toList.mapM fun c => Base.broadcastLike (Base.reduceLike c x) x

omit [Scalar F] in
theorem received_entry {ps : Array (Series B)} {j : Nat} {p : Series B} (there : ps[j]? = some p) :
    (do let x ← e.table.coeff j 0 0
        (← fetch ps j).toList.mapM fun c => Base.broadcastLike (Base.reduceLike c x) x) =
      e.delivered j p := by
  rw [fetch_eq_ok_iff.2 there]
  rfl

section Partials

variable {C P : Prop → B → B' → Prop} {v : Nat} {p x : Series B} {p' x' : Series B'} {s : B}
  {s' : B'} (shape : e.table.coeff v 0 0 = .ok s) (shape' : e'.table.coeff v 0 0 = .ok s')
  (related : Related q P (fun _ => False) p p')
include shape' related

include shape in
/-- What is related, and shares that are on the shapes of the variables, add up to such. -/
theorem gathered_related (linear : Linear C P)
    (share : Related q (fun _ u u' => P False (Base.reduceLike u s) (Base.reduceLike u' s'))
      (fun _ => False) x x') :
    Both (Related q P fun _ => False) (e.gathered v p x) (e'.gathered v p' x') := by
  unfold gathered
  rw [shape, shape', ok_bind, ok_bind, share.size, share.size', List.range_eq_range']
  apply Both.up (I := fun _ => Related q P fun _ => False)
  · intro k t t' low high sum
    apply (share.coeff (show k < q by omega)).bind
    intro u u' amount
    exact sum.addAt linear _ (by omega) amount fun _ _ => False.elim
  · exact related

/-- A share that adds nothing to what is related, added in the second sweep. -/
theorem gathered_right {Z : B → B' → Prop}
    (dull : ∀ u u' y y', P False u u' → Z y y' → ∃ w', Base.add u' y' = .ok w' ∧ P False u w')
    (share : Related q (fun _ u u' => Z (Base.reduceLike u s) (Base.reduceLike u' s'))
      (fun _ => False) x x') :
    ∃ sum, e'.gathered v p' x' = .ok sum ∧ Related q P (fun _ => False) p sum := by
  unfold gathered
  rw [shape', ok_bind, share.size', List.range_eq_range']
  refine foldlM_up (P := fun _ t => Related q P (fun _ => False) p t)
    (fun k t low high related => ?_) related
  have below : k < q := by omega
  obtain ⟨u, u', here, here', own⟩ := related.coeff below
  obtain ⟨y, y', _, read', zeros⟩ := share.coeff below
  obtain ⟨w, added, own'⟩ := dull _ _ _ _ own zeros
  obtain ⟨t, stored, next⟩ := related.store_second below fun c there => by
    obtain rfl := Option.some.inj (there.symm.trans (fetch_eq_ok_iff.1 here))
    exact own'
  exact ⟨t, bind_eq_ok.2 ⟨y', read', bind_eq_ok.2 ⟨u', here', bind_eq_ok.2 ⟨w, added, stored⟩⟩⟩,
    next⟩

include shape in
/-- What the partials of an input are delivered as, coefficient by coefficient. -/
theorem delivered_related {O : B → B' → Prop}
    (deliver : ∀ u u', P False u u' → Both O (Base.broadcastLike (Base.reduceLike u s) s)
      (Base.broadcastLike (Base.reduceLike u' s') s')) :
    ∃ z z', e.delivered v p = .ok ((List.range q).map z) ∧
      e'.delivered v p' = .ok ((List.range q).map z') ∧ ∀ k < q, O (z k) (z' k) := by
  obtain ⟨a, a', rfl, rfl, each⟩ := related.exists_of Base.zero Base.zero
  have given : ∀ k < q, ∃ w w', Base.broadcastLike (Base.reduceLike (a k) s) s = .ok w ∧
      Base.broadcastLike (Base.reduceLike (a' k) s') s' = .ok w' ∧ O w w' :=
    fun k below => deliver _ _ (each k below)
  have : Nonempty B := ⟨Base.zero⟩
  have : Nonempty B' := ⟨Base.zero⟩
  choose! z z' done done' out using given
  refine ⟨z, z', ?_, ?_, out⟩
  · rw [delivered, shape, ok_bind, toList_of, List.mapM_map]
    exact mapM_eq_map fun k member => done k (List.mem_range.1 member)
  · rw [delivered, shape', ok_bind, toList_of, List.mapM_map]
    exact mapM_eq_map fun k member => done' k (List.mem_range.1 member)

end Partials

/-- A way to match the partials of two sweeps over tapes of the same entries, together with what can
be passed on in both of them, or in one where the other passes nothing on. -/
structure Abreast (e : Evaluator B) (e' : Evaluator B') (idle : B → Bool) (idle' : B' → Bool)
    (q : Nat) (M R : Nat → Series B → Series B' → Prop) (S : Nat → Series B → Prop)
    (S' : Nat → Series B' → Prop) : Prop where
  wellFormed : e.tape.WellFormed
  wellFormed' : e'.tape.WellFormed
  size : e'.tape.size = e.tape.size
  entries : ∀ i, e'.tape.entry i = e.tape.entry i
  zeros : ∀ v < e.tape.size, M v (zeros q) (zeros q)
  gather : ∀ v < e.tape.size, e.tape.entry v ≠ .ok .const → ∀ p p' x x', M v p p' → R v x x' →
    Both (M v) (e.gathered v p x) (e'.gathered v p' x')
  gather_left : ∀ v < e.tape.size, e.tape.entry v ≠ .ok .const → ∀ p p' x, M v p p' → S v x →
    ∃ r, e.gathered v p x = .ok r ∧ M v r p'
  gather_right : ∀ v < e.tape.size, e.tape.entry v ≠ .ok .const → ∀ p p' x', M v p p' → S' v x' →
    ∃ r, e'.gathered v p' x' = .ok r ∧ M v p r
  pass : ∀ i entry own own', e.tape.entry i = .ok entry →
    AllThree M (List.range' i entry.span) own own' → own.all (·.all idle) = false →
    own'.all (·.all idle') = false →
    Both (AllThree R entry.operands) (e.passed q i entry own) (e'.passed q i entry own')
  pass_left : ∀ i entry own own', e.tape.entry i = .ok entry →
    AllThree M (List.range' i entry.span) own own' → own.all (·.all idle) = false →
    own'.all (·.all idle') = true →
    ∃ xs, e.passed q i entry own = .ok xs ∧ List.Forall₂ S entry.operands xs
  pass_right : ∀ i entry own own', e.tape.entry i = .ok entry →
    AllThree M (List.range' i entry.span) own own' → own.all (·.all idle) = true →
    own'.all (·.all idle') = false →
    ∃ xs, e'.passed q i entry own' = .ok xs ∧ List.Forall₂ S' entry.operands xs

/-- The partials of two sweeps, matched variable by variable. -/
structure Matched (M : Nat → Series B → Series B' → Prop) (n : Nat) (ps : Array (Series B))
    (ps' : Array (Series B')) : Prop where
  size : ps.size = n
  size' : ps'.size = n
  each : ∀ (v : Nat) p p', ps[v]? = some p → ps'[v]? = some p' → M v p p'

variable {M R : Nat → Series B → Series B' → Prop} {S : Nat → Series B → Prop}
  {S' : Nat → Series B' → Prop} {n i v : Nat} {ps : Array (Series B)} {ps' : Array (Series B')}

namespace Matched

omit [Scalar F] [Base B F] [Base B' F] in
theorem symm (matched : Matched M n ps ps') : Matched (fun v p' p => M v p p') n ps' ps :=
  ⟨matched.size', matched.size, fun v p' p there' there => matched.each v p p' there there'⟩

omit [Scalar F] [Base B F] [Base B' F] in
private theorem exists_partials (matched : Matched M n ps ps') (inside : v < n) :
    ∃ p p', ps[v]? = some p ∧ ps'[v]? = some p' ∧ M v p p' := by
  have room : v < ps.size := matched.size ▸ inside
  have room' : v < ps'.size := matched.size' ▸ inside
  have there : ps[v]? = some ps[v] := Array.getElem?_eq_getElem room
  have there' : ps'[v]? = some ps'[v] := Array.getElem?_eq_getElem room'
  exact ⟨_, _, there, there', matched.each v _ _ there there'⟩

omit [Scalar F] [Base B F] [Base B' F] in
/-- The partials of some variables in a row. -/
theorem exists_own (matched : Matched M n ps ps') {m : Nat} (room : i + m ≤ n) :
    ∃ own own', (List.range' i m).mapM (fetch ps) = .ok own ∧
      (List.range' i m).mapM (fetch ps') = .ok own' ∧ AllThree M (List.range' i m) own own' := by
  have each : ∀ v, v ∈ List.range' i m → ∃ p p', ps[v]? = some p ∧ ps'[v]? = some p' ∧
      M v p p' := fun v member => by
    have := List.mem_range'_1.1 member
    exact matched.exists_partials (by omega)
  have : Nonempty (Series B) := ⟨#[]⟩
  have : Nonempty (Series B') := ⟨#[]⟩
  choose! p p' there there' related using each
  refine ⟨_, _, mapM_eq_map fun v member => fetch_eq_ok_iff.2 (there v member),
    mapM_eq_map fun v member => fetch_eq_ok_iff.2 (there' v member), ?_⟩
  have all := allThree_map (R := M) (f := id) related
  rwa [List.map_id] at all

omit [Scalar F] [Base B F] [Base B' F] in
private theorem store (matched : Matched M n ps ps') (inside : v < n) {p : Series B}
    {p' : Series B'} (related : M v p p') :
    Both (Matched M n) (TaylorTape.store ps v p) (TaylorTape.store ps' v p') := by
  have room : v < ps.size := matched.size ▸ inside
  have room' : v < ps'.size := matched.size' ▸ inside
  refine ⟨ps.set v p, ps'.set v p', store_eq_ok_iff.2 ⟨room, rfl⟩, store_eq_ok_iff.2 ⟨room', rfl⟩,
    ?_, ?_, fun u r r' here here' => ?_⟩
  · rw [Array.size_set, matched.size]
  · rw [Array.size_set, matched.size']
  · rw [Array.getElem?_set] at here here'
    by_cases same : v = u
    · subst same
      rw [if_pos rfl] at here here'
      obtain rfl := Option.some.inj here
      obtain rfl := Option.some.inj here'
      exact related
    · rw [if_neg same] at here here'
      exact matched.each u r r' here here'

omit [Scalar F] [Base B F] [Base B' F] in
private theorem store_right (matched : Matched M n ps ps') (inside : v < n) {p : Series B}
    {p' : Series B'} (there : ps[v]? = some p) (related : M v p p') :
    ∃ next, TaylorTape.store ps' v p' = .ok next ∧ Matched M n ps next := by
  obtain ⟨same, next, stored, stored', matched'⟩ := matched.store inside related
  obtain ⟨room, rfl⟩ := store_eq_ok_iff.1 stored
  obtain ⟨_, rfl⟩ := Array.getElem?_eq_some_iff.1 there
  rw [Array.set_getElem_self] at matched'
  exact ⟨next, stored', matched'⟩

end Matched

namespace Abreast

theorem symm (abreast : Abreast e e' idle idle' q M R S S') :
    Abreast e' e idle' idle q (fun v p' p => M v p p') (fun v x' x => R v x x') S' S where
  wellFormed := abreast.wellFormed'
  wellFormed' := abreast.wellFormed
  size := abreast.size.symm
  entries i := (abreast.entries i).symm
  zeros v inside := abreast.zeros v (abreast.size ▸ inside)
  gather v inside other p' p x' x matched share :=
    (abreast.gather v (abreast.size ▸ inside) (abreast.entries v ▸ other) p p' x x' matched
      share).swap
  gather_left v inside other p' p x' :=
    abreast.gather_right v (abreast.size ▸ inside) (abreast.entries v ▸ other) p p' x'
  gather_right v inside other p' p x :=
    abreast.gather_left v (abreast.size ▸ inside) (abreast.entries v ▸ other) p p' x
  pass i entry own' own found all busy' busy :=
    (abreast.pass i entry own own' (abreast.entries i ▸ found) all.swap busy busy').swap.mono
      fun _ _ shares => shares.swap
  pass_left i entry own' own found all busy' idles :=
    abreast.pass_right i entry own own' (abreast.entries i ▸ found) all.swap idles busy'
  pass_right i entry own' own found all idles' busy :=
    abreast.pass_left i entry own own' (abreast.entries i ▸ found) all.swap busy idles'

variable (abreast : Abreast e e' idle idle' q M R S S')
include abreast

private theorem accumulate (matched : Matched M e.tape.size ps ps') (inside : v < e.tape.size)
    {x : Series B} {x' : Series B'} (share : R v x x') :
    Both (Matched M e.tape.size) (e.accumulate ps v x) (e'.accumulate ps' v x') := by
  obtain ⟨entry, found⟩ := Tape.exists_entry inside
  obtain ⟨p, p', there, there', related⟩ := matched.exists_partials inside
  rw [accumulate_eq found there, accumulate_eq ((abreast.entries v).trans found) there']
  by_cases const : entry = .const
  · rw [if_pos const, if_pos const]
    exact .ok matched
  · rw [if_neg const, if_neg const]
    have other : e.tape.entry v ≠ .ok .const := fun still =>
      const (Except.ok.inj (found.symm.trans still))
    apply (abreast.gather v inside other p p' x x' related share).bind
    intro r r' related
    exact matched.store inside related

private theorem accumulate_right (matched : Matched M e.tape.size ps ps') (inside : v < e.tape.size)
    {x' : Series B'} (share : S' v x') :
    ∃ next, e'.accumulate ps' v x' = .ok next ∧ Matched M e.tape.size ps next := by
  obtain ⟨entry, found⟩ := Tape.exists_entry inside
  obtain ⟨p, p', there, there', related⟩ := matched.exists_partials inside
  rw [accumulate_eq ((abreast.entries v).trans found) there']
  by_cases const : entry = .const
  · exact ⟨ps', if_pos const, matched⟩
  · rw [if_neg const]
    have other : e.tape.entry v ≠ .ok .const := fun still =>
      const (Except.ok.inj (found.symm.trans still))
    obtain ⟨r, done, related⟩ := abreast.gather_right v inside other p p' x' related share
    rw [done, ok_bind]
    exact matched.store_right inside there related

/-- Both sweeps add what they pass on to some variables. -/
theorem foldlM_accumulate (matched : Matched M e.tape.size ps ps') {targets : List Nat}
    {xs : List (Series B)} {xs' : List (Series B')} (inside : ∀ v ∈ targets, v < e.tape.size)
    (all : AllThree R targets xs xs') :
    Both (Matched M e.tape.size) ((targets.zip xs).foldlM (fun ps (v, x) => e.accumulate ps v x) ps)
      ((targets.zip xs').foldlM (fun ps (v, x) => e'.accumulate ps v x) ps') := by
  induction all generalizing ps ps' with
  | nil => exact .ok matched
  | cons head _ ih =>
    rw [List.zip_cons_cons, List.zip_cons_cons, List.foldlM_cons, List.foldlM_cons]
    apply (abreast.accumulate matched (inside _ List.mem_cons_self) head).bind
    intro next next' matched
    exact ih matched fun v member => inside v (List.mem_cons_of_mem _ member)

/-- The second sweep adds shares for which the first adds nothing. -/
theorem foldlM_accumulate_right (matched : Matched M e.tape.size ps ps') {targets : List Nat}
    {xs' : List (Series B')} (inside : ∀ v ∈ targets, v < e.tape.size)
    (all : List.Forall₂ S' targets xs') :
    ∃ next, (targets.zip xs').foldlM (fun ps (v, x) => e'.accumulate ps v x) ps' = .ok next ∧
      Matched M e.tape.size ps next := by
  induction all generalizing ps' with
  | nil => exact ⟨ps', rfl, matched⟩
  | cons head _ ih =>
    obtain ⟨mid, done, matched⟩ :=
      abreast.accumulate_right matched (inside _ List.mem_cons_self) head
    obtain ⟨next, done', matched⟩ :=
      ih matched fun v member => inside v (List.mem_cons_of_mem _ member)
    refine ⟨next, ?_, matched⟩
    rw [List.zip_cons_cons, List.foldlM_cons]
    exact bind_eq_ok.2 ⟨mid, done, done'⟩

private theorem retreat_right (matched : Matched M e.tape.size ps ps') (inside : i < e.tape.size)
    {entry : Entry} {own : List (Series B)} {own' : List (Series B')}
    (found : e.tape.entry i = .ok entry)
    (all : AllThree M (List.range' i entry.span) own own') (idles : own.all (·.all idle) = true)
    (busy : own'.all (·.all idle') = false) :
    ∃ next, (e'.passed q i entry own' >>= fun xs =>
        (entry.operands.zip xs).foldlM (fun ps (v, x) => e'.accumulate ps v x) ps') = .ok next ∧
      Matched M e.tape.size ps next := by
  obtain ⟨xs, done, shares⟩ := abreast.pass_right i entry own own' found all idles busy
  obtain ⟨next, added, matched⟩ := abreast.foldlM_accumulate_right matched
    (fun a reads => (abreast.wellFormed.operands i entry found a reads).trans inside) shares
  exact ⟨next, bind_eq_ok.2 ⟨xs, done, added⟩, matched⟩

private theorem retreat (matched : Matched M e.tape.size ps ps') (inside : i < e.tape.size) :
    Both (Matched M e.tape.size) (e.retreat idle q ps i) (e'.retreat idle' q ps' i) := by
  obtain ⟨entry, found⟩ := Tape.exists_entry inside
  have found' := (abreast.entries i).trans found
  obtain ⟨own, own', read, read', all⟩ := matched.exists_own (abreast.wellFormed.span_le found)
  rw [retreat_eq found read, retreat_eq found' read']
  cases idles : own.all (·.all idle) with
  | true =>
    cases idles' : own'.all (·.all idle') with
    | true => exact .ok matched
    | false =>
      obtain ⟨next, done, matched⟩ := abreast.retreat_right matched inside found all idles idles'
      exact ⟨ps, next, rfl, done, matched⟩
  | false =>
    cases idles' : own'.all (·.all idle') with
    | true =>
      have matched' := matched.symm
      rw [← abreast.size] at inside matched'
      obtain ⟨next, done, matched⟩ :=
        abreast.symm.retreat_right matched' inside found' all.swap idles' idles
      rw [abreast.size] at matched
      exact ⟨next, ps', done, rfl, matched.symm⟩
    | false =>
      apply (abreast.pass i entry own own' found all idles idles').bind
      intro xs xs' shares
      exact abreast.foldlM_accumulate matched
        (fun a reads => (abreast.wellFormed.operands i entry found a reads).trans inside) shares

variable {O : Nat → List B → List B' → Prop}

/-- What the inputs receive in both sweeps. -/
theorem received (matched : Matched M e.tape.size ps ps') (inputs : e'.numInputs = e.numInputs)
    (deliver : ∀ j < e.numInputs, ∀ p p', M j p p' →
      Both (O j) (e.delivered j p) (e'.delivered j p')) :
    Both (AllThree O (List.range e.numInputs)) (e.received ps) (e'.received ps') := by
  have : Nonempty (List B) := ⟨[]⟩
  have : Nonempty (List B') := ⟨[]⟩
  have each : ∀ j, j ∈ List.range e.numInputs → ∃ p p' row row', ps[j]? = some p ∧
      ps'[j]? = some p' ∧ e.delivered j p = .ok row ∧ e'.delivered j p' = .ok row' ∧ O j row row' :=
    fun j member => by
      have input := List.mem_range.1 member
      obtain ⟨p, p', there, there', related⟩ :=
        matched.exists_partials (input.trans_le abreast.wellFormed.inputs_le)
      obtain ⟨row, row', done, done', out⟩ := deliver j input p p' related
      exact ⟨p, p', row, row', there, there', done, done', out⟩
  have : Nonempty (Series B) := ⟨#[]⟩
  have : Nonempty (Series B') := ⟨#[]⟩
  choose! p p' row row' there there' done done' out using each
  have all := allThree_map (R := O) (f := id) out
  rw [List.map_id] at all
  refine ⟨_, (List.range e.numInputs).map row', mapM_eq_map fun j member => ?_, ?_, all⟩
  · exact (received_entry (there j member)).trans (done j member)
  · rw [Evaluator.received, inputs]
    exact mapM_eq_map fun j member => (received_entry (there' j member)).trans (done' j member)

omit abreast in
private theorem matched_zeros (zeros : ∀ v < n, M v (Series.zeros q) (Series.zeros q)) :
    Matched M n (Array.replicate n (Series.zeros q)) (Array.replicate n (Series.zeros q)) := by
  refine ⟨Array.size_replicate, Array.size_replicate, fun v p p' here here' => ?_⟩
  obtain ⟨room, rfl⟩ := Array.getElem?_eq_some_iff.1 here
  obtain ⟨_, rfl⟩ := Array.getElem?_eq_some_iff.1 here'
  rw [Array.getElem_replicate, Array.getElem_replicate]
  exact zeros v (room.trans_eq Array.size_replicate)

/-- Walks from weights that match, whose steps keep what matches, end with what matches. -/
theorem swept (step : Array (Series B) → Nat → Except Error (Array (Series B)))
    (step' : Array (Series B') → Nat → Except Error (Array (Series B')))
    (outputs : e'.outputs = e.outputs) (inside : ∀ y ∈ e.outputs, y < e.tape.size)
    {weights : List (List B)} {weights' : List (List B')}
    (shares : AllThree R e.outputs (weights.map List.toArray) (weights'.map List.toArray))
    (steps : ∀ i < e.tape.size, ∀ ps ps', Matched M e.tape.size ps ps' →
      Both (Matched M e.tape.size) (step ps i) (step' ps' i)) :
    Both (Matched M e.tape.size) (e.swept step q weights) (e'.swept step' q weights') := by
  unfold Evaluator.swept
  rw [outputs, Evaluator.size, Evaluator.size, abreast.size]
  apply (abreast.foldlM_accumulate (matched_zeros abreast.zeros) inside shares).bind
  intro ps ps' matched
  rw [List.range_eq_range']
  apply Both.down (I := fun _ => Matched M e.tape.size)
  · intro i t t' low high matched
    exact steps i (by rwa [Nat.zero_add] at high) t t' matched
  · exact matched

/-- Sweeps from weights that match give what matches. -/
theorem reverseWith (outputs : e'.outputs = e.outputs)
    (inside : ∀ y ∈ e.outputs, y < e.tape.size) (inputs : e'.numInputs = e.numInputs)
    {weights : List (List B)} {weights' : List (List B')} (accepts : e.AcceptsReverse q weights)
    (accepts' : e'.AcceptsReverse q weights')
    (shares : AllThree R e.outputs (weights.map List.toArray) (weights'.map List.toArray))
    (deliver : ∀ j < e.numInputs, ∀ p p', M j p p' →
      Both (O j) (e.delivered j p) (e'.delivered j p')) :
    Both (AllThree O (List.range e.numInputs)) (e.reverseWith idle q weights)
      (e'.reverseWith idle' q weights') := by
  rw [reverseWith_eq, reverseWith_eq, checkReverse_eq_ok.2 accepts, checkReverse_eq_ok.2 accepts',
    ok_bind, ok_bind]
  apply (abreast.swept (e.retreat idle q) (e'.retreat idle' q) outputs inside shares
    fun i below _ _ matched => abreast.retreat matched below).bind
  intro ps ps' matched
  exact abreast.received matched inputs deliver

end Abreast

end Evaluator

end TaylorTape
