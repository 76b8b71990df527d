import TaylorTape.Proofs.Misfits
import TaylorTape.Proofs.Reals
import TaylorTape.Proofs.Tangents
import TaylorTape.Proofs.Abreast
import TaylorTape.Proofs.History

/-!
Weights of a wrong length.

A reverse sweep does not look at the shapes of its weights.  An array of a wrong length goes from
entry to entry, through negations, sums, differences and reversals, until some operation refuses it,
at the latest an input when its partials are given their shape.  It is lost on the way where it comes
to a parameter, where all partials of an entry are zero and the entry is left out, and where each
operand that would take it is a scalar, which takes the sum of its elements.
-/

set_option autoImplicit false
set_option relaxedAutoImplicit false

namespace TaylorTape

open Value Series

namespace Evaluator

variable {F : Type} [Scalar F] {e : Evaluator (Value F)} {q i v u k : Nat}
  {ps next final : Array (Series (Value F))} {idle : Value F → Bool}

/-- The variables at which partials of a wrong length are lost, given the partials that a sweep
leaves with. -/
inductive Lost (e : Evaluator (Value F)) (partials : Array (Series (Value F))) : Nat → Prop where
  | parameter {v : Nat} (found : e.tape.entry v = .ok .const) : e.Lost partials v
  | leftOut {v : Nat} {p : Series (Value F)} (other : e.tape.entry v ≠ .ok .input)
      (there : partials[v]? = some p) (zeros : p.all Base.isAllZero = true) : e.Lost partials v
  | neg {i a : Nat} (found : e.tape.entry i = .ok (.unary .neg a)) (lost : e.Lost partials a) :
      e.Lost partials i
  | term {i a b : Nat} {op : BinaryOp} (found : e.tape.entry i = .ok (.binary op a b))
      (plain : op = .add ∨ op = .sub)
      (left : (e.table.value a 0 0).isScalar = false → e.Lost partials a)
      (right : (e.table.value b 0 0).isScalar = false → e.Lost partials b) : e.Lost partials i
  | flip {i place a n : Nat} {r : Registered (Value F)}
      (found : e.tape.entry i = .ok (.call place [a] n)) (there : e.tape.atomics[place]? = some r)
      (turns : r.op = BuiltIn.flip.atomic) (lost : e.Lost partials a) : e.Lost partials i

/-- The partials of a variable with an order that is an array of a wrong length. -/
def Odd (e : Evaluator (Value F)) (partials : Array (Series (Value F))) (v k : Nat) : Prop :=
  ∃ p, partials[v]? = some p ∧ Series.Misfits (e.table.value v 0 0) k p

section Accumulate

variable {x : Series (Value F)}

private theorem misfits_gathered {s : Value F} {p p' : Series (Value F)}
    (wrong : Series.Misfits s k p) (done : e.gathered v p x = .ok p') : Series.Misfits s k p' := by
  obtain ⟨shape, _, done⟩ := bind_eq_ok.1 done
  refine foldlM_kept (P := Series.Misfits s k) (fun j _ t t' wrong step => ?_) wrong done
  obtain ⟨c, _, added⟩ := bind_eq_ok.1 step
  exact wrong.addAt added

private theorem misfits_of_gathered {s : Value F} {p p' : Series (Value F)}
    (shape : e.table.coeff v 0 0 = .ok s) (wrong : Series.Misfits s k x)
    (done : e.gathered v p x = .ok p') : Series.Misfits s k p' := by
  obtain ⟨s', read, done⟩ := bind_eq_ok.1 done
  obtain rfl := Except.ok.inj (shape.symm.trans read)
  obtain ⟨c, here, misfits⟩ := wrong
  have below : k ∈ List.range x.size := List.mem_range.2 (Array.getElem?_eq_some_iff.1 here).1
  refine foldlM_settled (P := Series.Misfits s k) (fun j _ t t' wrong step => ?_)
    (fun t t' step => ?_) done below
  · obtain ⟨c, _, added⟩ := bind_eq_ok.1 step
    exact wrong.addAt added
  · obtain ⟨c', read, added⟩ := bind_eq_ok.1 step
    obtain rfl := Except.ok.inj ((fetch_eq_ok_iff.2 here).symm.trans read)
    refine misfits_of_addAt ?_ added
    rwa [misfits.reduceLike]

private theorem accumulate_others (done : e.accumulate ps u x = .ok next) :
    next.size = ps.size ∧ ∀ v, v ≠ u → next[v]? = ps[v]? := by
  obtain ⟨entry, _, done⟩ := bind_eq_ok.1 done
  by_cases const : entry = .const
  · rw [if_pos const] at done
    obtain rfl := pure_eq_ok.1 done
    exact ⟨rfl, fun _ _ => rfl⟩
  · rw [if_neg const] at done
    obtain ⟨_, _, done⟩ := bind_eq_ok.1 done
    obtain ⟨_, _, done⟩ := bind_eq_ok.1 done
    obtain ⟨_, _, stored⟩ := bind_eq_ok.1 done
    obtain ⟨room, rfl⟩ := store_eq_ok_iff.1 stored
    exact ⟨Array.size_set .., fun v other => by rw [Array.getElem?_set, if_neg other.symm]⟩

private theorem accumulate_sizes {n : Nat} (done : e.accumulate ps u x = .ok next)
    (sized : ∀ p ∈ ps, p.size = n) : ∀ p ∈ next, p.size = n := by
  obtain ⟨entry, _, done⟩ := bind_eq_ok.1 done
  by_cases const : entry = .const
  · rw [if_pos const] at done
    exact pure_eq_ok.1 done ▸ sized
  · rw [if_neg const] at done
    obtain ⟨shape, _, done⟩ := bind_eq_ok.1 done
    obtain ⟨p, read, done⟩ := bind_eq_ok.1 done
    obtain ⟨p', gathered, stored⟩ := bind_eq_ok.1 done
    have size : p'.size = n := by
      refine foldlM_kept (P := fun t => t.size = n) (fun j _ t t' same step => ?_)
        (sized p (Array.mem_of_getElem? (fetch_eq_ok_iff.1 read))) gathered
      obtain ⟨c, _, added⟩ := bind_eq_ok.1 step
      obtain ⟨old, _, added⟩ := bind_eq_ok.1 added
      obtain ⟨sum, _, put⟩ := bind_eq_ok.1 added
      obtain ⟨inside, rfl⟩ := store_eq_ok_iff.1 put
      rw [Array.size_set, same]
    obtain ⟨room, rfl⟩ := store_eq_ok_iff.1 stored
    intro t member
    rcases Array.mem_or_eq_of_mem_set member with before | rfl
    · exact sized t before
    · exact size

private theorem Odd.accumulate (odd : e.Odd ps v k) (done : e.accumulate ps u x = .ok next) :
    e.Odd next v k := by
  obtain ⟨p, there, wrong⟩ := odd
  by_cases same : v = u
  · subst same
    obtain ⟨entry, found, _⟩ := bind_eq_ok.1 done
    rw [accumulate_eq found there] at done
    by_cases const : entry = .const
    · rw [if_pos const] at done
      obtain rfl := Except.ok.inj done
      exact ⟨p, there, wrong⟩
    · rw [if_neg const] at done
      obtain ⟨p', gathered, stored⟩ := bind_eq_ok.1 done
      obtain ⟨room, rfl⟩ := store_eq_ok_iff.1 stored
      exact ⟨p', Array.getElem?_set_self room, misfits_gathered wrong gathered⟩
  · exact ⟨p, ((accumulate_others done).2 v same).trans there, wrong⟩

private theorem odd_of_accumulate (wf : e.WellFormed) (inside : v < ps.size)
    (size : ps.size = e.tape.size)
    (other : e.tape.entry v ≠ .ok .const) (wrong : Series.Misfits (e.table.value v 0 0) k x)
    (done : e.accumulate ps v x = .ok next) : e.Odd next v k := by
  obtain ⟨entry, found, _⟩ := bind_eq_ok.1 done
  have variable_ : entry ≠ .const := fun const => other (const ▸ found)
  rw [accumulate_eq found (Array.getElem?_eq_getElem inside), if_neg variable_] at done
  obtain ⟨p', gathered, stored⟩ := bind_eq_ok.1 done
  obtain ⟨room, rfl⟩ := store_eq_ok_iff.1 stored
  exact ⟨p', Array.getElem?_set_self room,
    misfits_of_gathered (wf.coeff (size ▸ inside)) wrong gathered⟩

private theorem foldlM_accumulate_sizes {parts : List (Nat × Series (Value F))} {n : Nat}
    (done : parts.foldlM (fun ps (v, x) => e.accumulate ps v x) ps = .ok next)
    (sized : ∀ p ∈ ps, p.size = n) : ∀ p ∈ next, p.size = n :=
  foldlM_kept (P := fun t => ∀ p ∈ t, p.size = n)
    (fun _ _ _ _ sized step => accumulate_sizes step sized) sized done

private theorem foldlM_accumulate_kept {parts : List (Nat × Series (Value F))}
    (done : parts.foldlM (fun ps (v, x) => e.accumulate ps v x) ps = .ok next) :
    next.size = ps.size ∧ (∀ v, (∀ part ∈ parts, v ≠ part.1) → next[v]? = ps[v]?) ∧
      ∀ v k, e.Odd ps v k → e.Odd next v k := by
  refine foldlM_kept (P := fun t => t.size = ps.size ∧
    (∀ v, (∀ part ∈ parts, v ≠ part.1) → t[v]? = ps[v]?) ∧ ∀ v k, e.Odd ps v k → e.Odd t v k)
    ?_ ⟨rfl, fun _ _ => rfl, fun _ _ => id⟩ done
  rintro ⟨u, x⟩ member t t' ⟨size, others, kept⟩ step
  obtain ⟨size', others'⟩ := accumulate_others step
  exact ⟨size'.trans size, fun v apart => (others' v (apart _ member)).trans (others v apart),
    fun v k odd => (kept v k odd).accumulate step⟩

end Accumulate

section Steps

/-- What a step of a walk back has to do with the partials: it changes those in front of its entry
only, and mends none. -/
structure MendsNone (e : Evaluator (Value F)) (i : Nat) (ps next : Array (Series (Value F))) : Prop where
  size : next.size = ps.size
  sizes : ∀ n, (∀ p ∈ ps, p.size = n) → ∀ p ∈ next, p.size = n
  above : ∀ v, i ≤ v → next[v]? = ps[v]?
  odd : ∀ v k, e.Odd ps v k → e.Odd next v k

omit [Scalar F] in
private theorem exists_own (wf : e.WellFormed) (size : ps.size = e.tape.size) {entry : Entry}
    (found : e.tape.entry i = .ok entry) :
    ∃ own, (List.range' i entry.span).mapM (fetch ps) = .ok own :=
  exists_mapM fun v member => by
    have room := wf.tape.span_le found
    have := List.mem_range'_1.1 member
    exact ⟨_, fetch_eq_ok_iff.2 (Array.getElem?_eq_getElem (show v < ps.size by omega))⟩

private theorem mendsNone_of_retreat (wf : e.WellFormed) (size : ps.size = e.tape.size)
    (done : e.retreat idle q ps i = .ok next) : e.MendsNone i ps next := by
  obtain ⟨entry, found, _⟩ := bind_eq_ok.1 done
  obtain ⟨own, read⟩ := exists_own wf size found
  rw [retreat_eq found read] at done
  by_cases idles : own.all (·.all idle) = true
  · rw [if_pos idles] at done
    obtain rfl := Except.ok.inj done
    exact ⟨rfl, fun _ => id, fun _ _ => rfl, fun _ _ => id⟩
  · rw [if_neg idles] at done
    obtain ⟨shares, _, added⟩ := bind_eq_ok.1 done
    obtain ⟨size', others, kept⟩ := foldlM_accumulate_kept added
    refine ⟨size', fun n => foldlM_accumulate_sizes added,
      fun v above => others v fun part member same => ?_, kept⟩
    have reads := (List.of_mem_zip member).1
    have := wf.tape.operands i entry found part.1 reads
    omega

private theorem exists_passed (wf : e.WellFormed) (size : ps.size = e.tape.size) {entry : Entry}
    (found : e.tape.entry i = .ok entry) {own : List (Series (Value F))}
    (read : (List.range' i entry.span).mapM (fetch ps) = .ok own)
    (busy : own.all (·.all idle) = false) (done : e.retreat idle q ps i = .ok next) :
    ∃ shares, e.passed q i entry own = .ok shares ∧
      ∀ a x k, (a, x) ∈ entry.operands.zip shares → e.tape.entry a ≠ .ok .const →
        Series.Misfits (e.table.value a 0 0) k x → e.Odd next a k := by
  rw [retreat_eq found read, busy, if_neg Bool.false_ne_true] at done
  obtain ⟨shares, passed, added⟩ := bind_eq_ok.1 done
  refine ⟨shares, passed, fun a x k member other wrong => ?_⟩
  obtain ⟨before, after, t, t', _, first, step, rest⟩ := exists_of_foldlM added member
  have size' := (foldlM_accumulate_kept first).1.trans size
  have inside : a < t.size :=
    size' ▸ wf.tape.operand_lt found (List.of_mem_zip member).1
  exact (foldlM_accumulate_kept rest).2.2 a k
    (odd_of_accumulate wf inside size' other wrong step)

private theorem foldlM_retreat_kept (wf : e.WellFormed) {positions : List Nat}
    (below : ∀ j ∈ positions, j ≤ i) (size : ps.size = e.tape.size)
    (done : positions.foldlM (e.retreat idle q) ps = .ok next) : e.MendsNone i ps next := by
  refine (foldlM_kept (P := fun t => t.size = e.tape.size ∧ e.MendsNone i ps t) ?_
    ⟨size, rfl, fun _ => id, fun _ _ => rfl, fun _ _ => id⟩ done).2
  rintro j member t t' ⟨sized, passes⟩ step
  have next := mendsNone_of_retreat wf sized step
  exact ⟨next.size.trans sized, next.size.trans passes.size,
    fun n sizes => next.sizes n (passes.sizes n sizes),
    fun v high => (next.above v ((below j member).trans high)).trans (passes.above v high),
    fun v k odd => next.odd v k (passes.odd v k odd)⟩

variable {weights : List (List (Value F))}

private theorem exists_weighted (wf : e.WellFormed)
    (done : e.swept (e.retreat idle q) q weights = .ok final) :
    ∃ weighted, (e.outputs.zip (weights.map List.toArray)).foldlM
        (fun ps (v, x) => e.accumulate ps v x) (Array.replicate e.size (Series.zeros q)) =
          .ok weighted ∧
      (List.range e.size).reverse.foldlM (e.retreat idle q) weighted = .ok final ∧
      weighted.size = e.tape.size ∧ (∀ p ∈ weighted, p.size = q) ∧
      e.MendsNone e.size weighted final := by
  obtain ⟨weighted, first, walked⟩ := bind_eq_ok.1 done
  have size : weighted.size = e.tape.size :=
    (foldlM_accumulate_kept first).1.trans Array.size_replicate
  have sizes : ∀ p ∈ weighted, p.size = q := foldlM_accumulate_sizes first fun p member => by
    rw [Array.eq_of_mem_replicate member]
    exact Array.size_replicate
  exact ⟨weighted, first, walked, size, sizes, foldlM_retreat_kept wf
    (fun j member => (List.mem_range.1 (List.mem_reverse.1 member)).le) size walked⟩

private theorem odd_of_weight (wf : e.WellFormed)
    (done : e.swept (e.retreat idle q) q weights = .ok final)
    {y : Nat} {x : Series (Value F)} (weighted : (y, x) ∈ e.outputs.zip (weights.map List.toArray))
    (other : e.tape.entry y ≠ .ok .const) (wrong : Series.Misfits (e.table.value y 0 0) k x) :
    e.Odd final y k := by
  obtain ⟨_, first, _, _, _, passes⟩ := exists_weighted wf done
  obtain ⟨before, after, t, t', _, early, step, late⟩ := exists_of_foldlM first weighted
  have size := (foldlM_accumulate_kept early).1.trans Array.size_replicate
  have inside : y < t.size := size ▸ wf.outputs y (List.of_mem_zip weighted).1
  exact passes.odd y k ((foldlM_accumulate_kept late).2.2 y k
    (odd_of_accumulate wf inside size other wrong step))

private theorem exists_step (wf : e.WellFormed)
    (done : e.swept (e.retreat idle q) q weights = .ok final) (inside : i < e.tape.size) :
    ∃ ps next, ps.size = e.tape.size ∧ (∀ p ∈ ps, p.size = q) ∧ e.retreat idle q ps i = .ok next ∧
      (∀ v, i ≤ v → final[v]? = ps[v]?) ∧ ∀ v k, e.Odd next v k → e.Odd final v k := by
  obtain ⟨weighted, _, walked, size, sizes, _⟩ := exists_weighted wf done
  obtain ⟨before, after, ps, next, split, early, step, late⟩ :=
    exists_of_foldlM walked (List.mem_reverse.2 (List.mem_range.2 inside))
  have sorted : (List.range e.size).reverse.Pairwise (· > ·) :=
    List.pairwise_reverse.2 List.pairwise_lt_range
  rw [split] at sorted
  have lower : ∀ j ∈ after, j ≤ i := fun j member =>
    Nat.le_of_lt ((List.pairwise_cons.1 (List.pairwise_append.1 sorted).2.1).1 j member)
  have upper : ∀ j ∈ before, j ≤ e.size := fun j member => by
    have among : j ∈ (List.range e.size).reverse := split ▸ List.mem_append_left _ member
    exact (List.mem_range.1 (List.mem_reverse.1 among)).le
  have start := foldlM_retreat_kept wf upper size early
  have size' := start.size.trans size
  have passes := mendsNone_of_retreat wf size' step
  have rest := foldlM_retreat_kept wf lower (passes.size.trans size') late
  exact ⟨ps, next, size', start.sizes q sizes, step,
    fun v high => (rest.above v high).trans (passes.above v high), rest.odd⟩

end Steps

section Hands

variable {x : List (Value F)} {p : Series (Value F)} {shares : List (Series (Value F))}
  (wf : e.WellFormed) (orders : q ≤ e.numOrders)
  (solves : e.tape.Solves x fun v => e.table.value v 0 0) (below : k < q)
  (wrong : Series.Misfits (e.table.value i 0 0) k p)
include wf orders solves below wrong

private theorem unary_hands {op : UnaryOp} {a : Nat} (found : e.tape.entry i = .ok (.unary op a))
    (done : e.passed q i (.unary op a) [p] = .ok shares) :
    op = .neg ∧ ∃ share, shares = [share] ∧ Series.Misfits (e.table.value a 0 0) k share := by
  have inside := wf.tape.operand_lt found (List.mem_singleton_self a)
  simp only [passed, wf.series inside orders, wf.series (Tape.lt_size_of_entry found) orders, ok_bind,
    bind_eq_ok, mapError_eq_ok, pure_eq_ok] at done
  obtain ⟨share, pulled, rfl⟩ := done
  have shape : (e.table.along 0 a 0).SameShape (e.table.value i 0 0) :=
    (solves.unary found).symm ▸ (SameShape.map _ _).symm
  have own : (e.table.along 0 i 0).SameShape (e.table.value i 0 0) := .refl _
  obtain ⟨negates, handed⟩ := UnaryOp.misfits_pullback shape own below wrong pulled
  exact ⟨negates, share, rfl, handed.congr shape.symm⟩

private theorem binary_hands {op : BinaryOp} {a b : Nat}
    (found : e.tape.entry i = .ok (.binary op a b))
    (done : e.passed q i (.binary op a b) [p] = .ok shares) :
    (op = .add ∨ op = .sub) ∧ ∃ share share', shares = [share, share'] ∧
      ((e.table.value a 0 0).isScalar = false → Series.Misfits (e.table.value a 0 0) k share) ∧
      ((e.table.value b 0 0).isScalar = false → Series.Misfits (e.table.value b 0 0) k share') := by
  have inside := wf.tape.operand_lt found (List.mem_cons_self (a := a))
  have inside' := wf.tape.operand_lt found (List.mem_cons_of_mem a (List.mem_singleton_self b))
  simp only [passed, wf.series inside orders, wf.series inside' orders,
    wf.series (Tape.lt_size_of_entry found) orders, ok_bind, bind_eq_ok, mapError_eq_ok,
    pure_eq_ok] at done
  obtain ⟨⟨share, share'⟩, pulled, rfl⟩ := done
  have made : op.eval (e.table.along 0 a 0) (e.table.along 0 b 0) = .ok (e.table.along 0 i 0) :=
    solves.binary found
  obtain ⟨left, right⟩ := BinaryOp.fits_of_eval made
  obtain ⟨plain, handed, handed'⟩ := BinaryOp.misfits_pullback (BinaryOp.sameShape_of_eval made)
    (SameShape.refl _) below wrong pulled
  refine ⟨plain, share, share', rfl, fun array => handed.congr ?_, fun array => handed'.congr ?_⟩
  · exact (left.sameShape_of_array array).symm
  · exact (right.sameShape_of_array array).symm

private theorem call_hands (builtIns : e.tape.OnlyBuiltIns) {place n : Nat} {args : List Nat}
    {rest : List (Series (Value F))} (found : e.tape.entry i = .ok (.call place args n))
    (count : (p :: rest).length = n) (sizes : ∀ p' ∈ p :: rest, p'.size = q)
    (done : e.passed q i (.call place args n) (p :: rest) = .ok shares) :
    ∃ a r share, args = [a] ∧ e.tape.atomics[place]? = some r ∧ r.op = BuiltIn.flip.atomic ∧
      shares = [share] ∧ Series.Misfits (e.table.value a 0 0) k share := by
  obtain ⟨r, there, builtIn⟩ := builtIns i place args n found
  obtain ⟨b, op, stepped⟩ := solves.call found there builtIn
  obtain ⟨r', there', many⟩ := wf.tape.atomics i place args n found
  obtain rfl : r = r' := Option.some.inj (there.symm.trans there')
  obtain ⟨m, rfl⟩ : ∃ m, n = m + 1 :=
    ⟨n - 1, (Nat.sub_add_cancel (wf.tape.calls i place args n found).1).symm⟩
  obtain ⟨t, rfl⟩ : ∃ t, q = t + 1 := ⟨q - 1, by omega⟩
  have known : ∀ vs : List Nat, (∀ v ∈ vs, v < e.tape.size) →
      vs.mapM (fun v => e.table.series v (t + 1) 0) =
        .ok ((vs.map (e.table.along 0)).map (Series.of · (t + 1))) := fun vs inside => by
    rw [List.map_map]
    exact mapM_eq_map fun v member => wf.series (inside v member) orders
  have results : ∀ j ∈ List.range' i (m + 1), j < e.tape.size := fun j member => by
    have room : i + (m + 1) ≤ e.tape.size := wf.tape.span_le found
    have := List.mem_range'_1.1 member
    omega
  simp only [passed, fetch_eq_ok_iff.2 there, known args fun a reads => wf.tape.operand_lt found reads,
    known _ results, ok_bind, Tape.answered_eq_ok, op] at done
  rw [List.range'_succ, List.map_cons] at stepped
  have stepped : ∃ ss, b.step ((args.map (e.table.along 0)).map (· 0))
      ((args.map (e.table.along 0)).map (· 0)) = .ok (e.table.value i 0 0 :: ss) := by
    rw [List.map_map]
    exact ⟨_, stepped⟩
  obtain ⟨ss, stepped⟩ := stepped
  have results' : m + 1 = b.count := by
    rw [← BuiltIn.numResults_atomic (B := Value F) b args.length, ← op, many]
  obtain ⟨rfl, f, share, single, rfl, handed⟩ :=
    BuiltIn.misfits_reverse stepped below ⟨count.trans results', sizes⟩ wrong done
  obtain ⟨a, _, rfl, rfl, none⟩ := List.map_eq_cons_iff.1 single
  obtain rfl := List.map_eq_nil_iff.1 none
  refine ⟨a, r, share, rfl, there, op, rfl, handed.congr ?_⟩
  obtain ⟨_, y, w, _, same, turned, made⟩ := BuiltIn.step_flip_eq_ok.1 stepped
  obtain rfl := (List.cons.inj same).1
  obtain rfl := (List.cons.inj made).1
  exact BuiltIn.sameShape_flipped turned

end Hands

private theorem Odd.not_received (wf : e.WellFormed) {px : List (List (Value F))}
    (odd : e.Odd final v k) (input : v < e.numInputs) : e.received final ≠ .ok px := by
  intro done
  obtain ⟨p, there, u, here, wrong⟩ := odd
  obtain ⟨row, _, delivered⟩ := getElem?_of_mapM done (List.getElem?_range input)
  obtain ⟨s, shape, delivered⟩ := bind_eq_ok.1 delivered
  obtain ⟨p', read, delivered⟩ := bind_eq_ok.1 delivered
  obtain rfl := Option.some.inj (there.symm.trans (fetch_eq_ok_iff.1 read))
  obtain rfl :=
    Except.ok.inj ((wf.coeff (input.trans_le wf.tape.inputs_le)).symm.trans shape)
  obtain ⟨w, _, spread⟩ := getElem?_of_mapM delivered ((Array.getElem?_toList ..).trans here)
  rw [wrong.reduceLike] at spread
  exact wrong.not_broadcastLike spread

private theorem isScalar_of_result (wf : e.WellFormed) (builtIns : e.tape.OnlyBuiltIns)
    {x : List (Value F)} (solves : e.tape.Solves x fun v => e.table.value v 0 0) {owner : Nat}
    (found : e.tape.entry v = .ok (.result owner)) : (e.table.value v 0 0).isScalar = true := by
  obtain ⟨place, args, n, call, low, high⟩ := wf.tape.results v owner found
  obtain ⟨r, there, builtIn⟩ := builtIns owner place args n call
  obtain ⟨b, op, stepped⟩ := solves.call call there builtIn
  have count := BuiltIn.length_step stepped
  rw [List.length_map, List.length_range'] at count
  cases b with
  | unpack m =>
    obtain ⟨_, _, row, _, _, _, _, same⟩ := BuiltIn.step_unpack_eq_ok.1 stepped
    have member : e.table.value v 0 0 ∈ row.map Base.ofElem :=
      same ▸ List.mem_map_of_mem (List.mem_range'_1.2 ⟨low.le, high⟩)
    obtain ⟨y, _, made⟩ := List.mem_map.1 member
    rw [← made]
    rfl
  | sum | concat | flip | pack | make =>
    have : n = 1 := count
    omega

/-- Partials of a wrong length that a sweep leaves with have been lost, if its result is delivered. -/
private theorem Odd.lost (wf : e.WellFormed) (orders : q ≤ e.numOrders)
    (builtIns : e.tape.OnlyBuiltIns)
    {x : List (Value F)} (solves : e.tape.Solves x fun v => e.table.value v 0 0)
    {weights px : List (List (Value F))}
    (done : e.swept (e.retreat Base.isAllZero q) q weights = .ok final)
    (delivered : e.received final = .ok px) (below : k < q) (odd : e.Odd final v k) :
    e.Lost final v := by
  induction v using Nat.strongRecOn with
  | ind v ih =>
    obtain ⟨p, there, wrong⟩ := odd
    obtain ⟨_, _, _, size, _, passes⟩ := exists_weighted wf done
    have inside : v < e.tape.size :=
      (Array.getElem?_eq_some_iff.1 there).1.trans_eq (passes.size.trans size)
    obtain ⟨entry, found⟩ := Tape.exists_entry inside
    obtain ⟨ps, next, size, sizes, step, same, kept⟩ := exists_step wf done inside
    have here : ps[v]? = some p := (same v le_rfl).symm.trans there
    by_cases input : entry = .input
    · have input := (wf.tape.inputs v entry found).1 input
      exact absurd delivered (Odd.not_received wf ⟨p, there, wrong⟩ input)
    have other : e.tape.entry v ≠ .ok .input := fun same =>
      input (Except.ok.inj (found.symm.trans same))
    by_cases zeros : p.all Base.isAllZero = true
    · exact .leftOut other there zeros
    obtain ⟨own, read⟩ := exists_own wf size found
    have first : ∀ m, entry.span = m + 1 → ∃ rest, own = p :: rest ∧ rest.length = m := by
      intro m span
      rw [span, List.range'_succ, List.mapM_cons, fetch_eq_ok_iff.2 here, ok_bind] at read
      obtain ⟨rest, more, made⟩ := bind_eq_ok.1 read
      exact ⟨rest, (pure_eq_ok.1 made).symm, (length_of_mapM more).trans List.length_range'⟩
    have busy : p ∈ own → own.all (·.all Base.isAllZero) = false := fun member =>
      List.all_eq_false.2 ⟨p, member, zeros⟩
    -- what is handed on to an operand is lost there
    have collected : ∀ {a : Nat}, a ∈ entry.operands →
        (e.tape.entry a ≠ .ok .const → e.Odd next a k) → e.Lost final a := by
      intro a reads brings
      by_cases const : e.tape.entry a = .ok .const
      · exact .parameter const
      · exact ih a (wf.tape.operands v entry found a reads) (kept a k (brings const))
    cases entry with
    | input => exact absurd rfl input
    | const => exact .parameter found
    | result owner =>
      have scalar := isScalar_of_result wf builtIns solves found
      obtain ⟨u, _, wrong⟩ := wrong
      rw [wrong.isScalar_shape] at scalar
      cases scalar
    | unary op a =>
      obtain ⟨rest, rfl, none⟩ := first 0 rfl
      obtain rfl := List.length_eq_zero_iff.1 none
      obtain ⟨shares, passed, brings⟩ :=
        exists_passed wf size found read (busy List.mem_cons_self) step
      obtain ⟨rfl, share, rfl, handed⟩ := unary_hands wf orders solves below wrong found passed
      exact .neg found (collected (by simp [Entry.operands]) fun other =>
        brings a share k (by simp [Entry.operands]) other handed)
    | binary op a b =>
      obtain ⟨rest, rfl, none⟩ := first 0 rfl
      obtain rfl := List.length_eq_zero_iff.1 none
      obtain ⟨shares, passed, brings⟩ :=
        exists_passed wf size found read (busy List.mem_cons_self) step
      obtain ⟨plain, share, share', rfl, left, right⟩ :=
        binary_hands wf orders solves below wrong found passed
      refine .term found plain (fun array => ?_) fun array => ?_
      · exact collected (by simp [Entry.operands]) fun other =>
          brings a share k (by simp [Entry.operands]) other (left array)
      · exact collected (by simp [Entry.operands]) fun other =>
          brings b share' k (by simp [Entry.operands]) other (right array)
    | call place args n =>
      obtain ⟨rest, rfl, _⟩ := first (n - 1) (Nat.sub_add_cancel (wf.tape.calls v _ _ _ found).1).symm
      have orders' : ∀ p' ∈ p :: rest, p'.size = q := fun p' member => by
        obtain ⟨j, _, there⟩ := exists_of_mem_mapM read member
        exact sizes p' (Array.mem_of_getElem? (fetch_eq_ok_iff.1 there))
      obtain ⟨shares, passed, brings⟩ :=
        exists_passed wf size found read (busy List.mem_cons_self) step
      obtain ⟨a, r, share, rfl, there, turns, rfl, handed⟩ :=
        call_hands wf orders solves below wrong builtIns found
          ((length_of_mapM read).trans List.length_range') orders' passed
      exact .flip found there turns (collected (by simp [Entry.operands]) fun other =>
        brings a share k (by simp [Entry.operands]) other handed)

/-- A weight that is an array of a length other than that of its output is rejected, unless it is
lost on its way: at a parameter, at an entry whose partials are all zero, or at a scalar that a sum
or a difference has spread. -/
theorem wrong_length_rejected (recorded : e.RecordedOfBuiltIns) {weights : List (List (Value F))}
    {y : Nat} {w : List (Value F)} {us xs : List F} (weighted : (y, w) ∈ e.outputs.zip weights)
    (given : .array us ∈ w) (shape : e.table.value y 0 0 = .array xs)
    (odd : us.length ≠ xs.length)
    (kept : ∀ partials, e.swept (e.retreat Base.isAllZero q) q weights = .ok partials →
      ¬ e.Lost partials y) : ∃ err, e.reverse q weights = .error err := by
  cases answer : e.reverse q weights with
  | error err => exact ⟨err, rfl⟩
  | ok px =>
    exfalso
    have accepts := acceptsReverse_of_ok answer
    have done : e.reverseWith Base.isAllZero q weights = .ok px := answer
    rw [reverseWith_eq, checkReverse_eq_ok.2 accepts, ok_bind] at done
    obtain ⟨final, swept, delivered⟩ := bind_eq_ok.1 done
    refine kept final swept ?_
    have wf := recorded.recorded.wellFormed
    obtain ⟨rows, count, _, holds⟩ := recorded.exists_seeds
    have solves : e.tape.Solves ((rows[0]?).getD []) fun v => e.table.value v 0 0 :=
      Tape.solves_of_holds (c := e.table.along 0) (fun k => (rows[k]?).getD []) wf.tape
        (Nat.pos_of_ne_zero accepts.positive)
        fun k below => holds k (by have := accepts.orders; omega)
    by_cases const : e.tape.entry y = .ok .const
    · exact .parameter const
    obtain ⟨k, below, here⟩ := List.mem_iff_getElem.1 given
    have wrong : Series.Misfits (e.table.value y 0 0) k w.toArray :=
      ⟨.array us, by rw [List.getElem?_toArray, List.getElem?_eq_getElem below, here],
        shape ▸ .array odd⟩
    have among : (y, w.toArray) ∈ e.outputs.zip (weights.map List.toArray) := by
      rw [List.zip_map_right]
      exact List.mem_map_of_mem (f := Prod.map id List.toArray) weighted
    have count : w.length = q := accepts.lengths w (List.of_mem_zip weighted).2
    exact (odd_of_weight wf swept among const wrong).lost wf accepts.orders recorded.onlyBuiltIns
      solves swept delivered (count ▸ below)

/-- An output that is an input refuses a weight with an element too many. -/
theorem wrong_length_rejected_input :
    ∃ (f : Program.Frozen (Value ℝ)) (ys : List (Value ℝ)) (e' : Evaluator (Value ℝ)) (err : Error),
      Program.freeze Registry.builtins 7 [.array [1, 2]] [.unary .exp 0] [1, 0] = .ok f ∧
      forwardZero [.array [1, 2]] f.evaluator = (.ok ys, e') ∧
      e'.reverse 1 [[.scalar 1], [.array [1, 1, 1]]] = .error err := by
  let tape : Tape (Value ℝ) := {
    id := 7
    nodes := #[⟨.input, .array [1, 2]⟩, ⟨.unary .exp 0, .array [Real.exp 1, Real.exp 2]⟩]
    numInputs := 1
    atomics := #[] }
  let table : Coefficients (Value ℝ) := {
    cells := #[.array [1, 2], .array [Real.exp 1, Real.exp 2]]
    numVariables := 2
    capacity := 1
    numOrders := 1
    numDirections := 1 }
  have frozen : Program.freeze Registry.builtins 7 [.array [1, 2]] [.unary .exp 0] [1, 0] =
      .ok ⟨[.array [Real.exp 1, Real.exp 2], .array [1, 2]], [.unary .exp 0],
        .ofTape tape [1, 0]⟩ := rfl
  have start : (Evaluator.ofTape tape [1, 0]).RecordedOfBuiltIns :=
    ⟨_, 7, _, _, [1, 0], _, Registry.builtins_faithful, by simp [Step.Foreign],
      by simp [Step.CallsBuiltIns], frozen, .refl⟩
  have point : forwardZero [.array [1, 2]] (.ofTape tape [1, 0]) =
      (.ok [.array [Real.exp 1, Real.exp 2], .array [1, 2]], ⟨tape, [1, 0], table⟩) := rfl
  have kept : ∀ partials, ¬ (⟨tape, [1, 0], table⟩ : Evaluator (Value ℝ)).Lost partials 0 := by
    intro partials lost
    cases lost with
    | parameter found => cases found
    | leftOut other => exact other rfl
    | neg found => cases found
    | term found => cases found
    | flip found => cases found
  have weighted : ((0 : Nat), [Value.array [(1 : ℝ), 1, 1]]) ∈
      [1, 0].zip [[.scalar 1], [.array [1, 1, 1]]] := List.mem_cons_of_mem _ List.mem_cons_self
  have shape : table.value 0 0 0 = .array [1, 2] := rfl
  obtain ⟨err, rejected⟩ := wrong_length_rejected (q := 1) (start.forwardZero point) weighted
    List.mem_cons_self shape (by decide) fun partials _ => kept partials
  exact ⟨_, _, _, err, frozen, point, rejected⟩

/-- A function of one array-shaped output, evaluated at a point, takes an array of another length for
the weight of its output. -/
def TakesWrongLength (x : List (Value F)) (steps : List (Step (Value F))) (y : Nat) (us : List F) :
    Prop :=
  ∃ (f : Program.Frozen (Value F)) (e' : Evaluator (Value F)) (xs : List F)
    (px : List (List (Value F))),
    Program.freeze Registry.builtins 7 x steps [y] = .ok f ∧
    forwardZero x f.evaluator = (.ok [.array xs], e') ∧ us.length ≠ xs.length ∧
    e'.reverse 1 [[.array us]] = .ok px

/-- Weights of a wrong length that are lost: at a parameter, in a negation that is left out, and in a
sum with a scalar variable. -/
theorem wrong_length_taken :
    TakesWrongLength (F := ℝ) [.scalar 3] [.bring (.parameter (.array [1, 2]))] 1 [1, 1, 1] ∧
    TakesWrongLength (F := ℝ) [.array [1, 2]] [.unary .neg 0] 1 [0, 0, 0] ∧
    TakesWrongLength (F := ℝ) [.scalar 3]
      [.bring (.parameter (.array [1, 2])), .binary .add 1 0] 2 [1, 1, 1] := by
  refine ⟨?_, ?_, ?_⟩
  · let tape : Tape (Value ℝ) := {
      id := 7
      nodes := #[⟨.input, .scalar 3⟩, ⟨.const, .array [1, 2]⟩]
      numInputs := 1
      atomics := #[] }
    let table : Coefficients (Value ℝ) := {
      cells := #[.scalar 3, .array [1, 2]]
      numVariables := 2
      capacity := 1
      numOrders := 1
      numDirections := 1 }
    exact ⟨⟨[.array [1, 2]], [.bring (.parameter (.array [1, 2]))], .ofTape tape [1]⟩,
      ⟨tape, [1], table⟩, [1, 2], [[.scalar 0]], rfl, rfl, by decide, rfl⟩
  · let tape : Tape (Value ℝ) := {
      id := 7
      nodes := #[⟨.input, .array [1, 2]⟩, ⟨.unary .neg 0, .array [-1, -2]⟩]
      numInputs := 1
      atomics := #[] }
    let table : Coefficients (Value ℝ) := {
      cells := #[.array [1, 2], .array [-1, -2]]
      numVariables := 2
      capacity := 1
      numOrders := 1
      numDirections := 1 }
    let pz : Series (Value ℝ) := #[.array [0 + 0, 0 + 0, 0 + 0]]
    have idle : [pz].all (·.all Base.isAllZero) = true := by
      simp [pz, Base.isAllZero, Base.toList, Value.toList, ExactScalar.beq_iff]
    have read : (List.range' 1 1).mapM (fetch #[Series.zeros 1, pz]) = .ok [pz] := rfl
    have step : retreat ⟨tape, [1], table⟩ Base.isAllZero 1 #[Series.zeros 1, pz] 1 =
        .ok #[Series.zeros 1, pz] := (retreat_eq rfl read).trans (if_pos idle)
    have taken : reverse ⟨tape, [1], table⟩ 1 [[.array [0, 0, 0]]] = .ok [[.array [0, 0]]] :=
      (reverseWith_eq ..).trans (bind_eq_ok.2 ⟨(), rfl, bind_eq_ok.2
        ⟨_, bind_eq_ok.2 ⟨_, rfl, bind_eq_ok.2 ⟨_, step, rfl⟩⟩, rfl⟩⟩)
    exact ⟨⟨[.array [-1, -2]], [.unary .neg 0], .ofTape tape [1]⟩, ⟨tape, [1], table⟩, [-1, -2],
      [[.array [0, 0]]], rfl, rfl, by decide, taken⟩
  · let tape : Tape (Value ℝ) := {
      id := 7
      nodes := #[⟨.input, .scalar 3⟩, ⟨.const, .array [1, 2]⟩,
        ⟨.binary .add 1 0, .array [1 + 3, 2 + 3]⟩]
      numInputs := 1
      atomics := #[] }
    let table : Coefficients (Value ℝ) := {
      cells := #[.scalar 3, .array [1, 2], .array [1 + 3, 2 + 3]]
      numVariables := 3
      capacity := 1
      numOrders := 1
      numDirections := 1 }
    let pz : Series (Value ℝ) := #[.array [0 + 1, 0 + 1, 0 + 1]]
    have busy : ¬ [pz].all (·.all Base.isAllZero) = true := by
      simp [pz, Base.isAllZero, Base.toList, Value.toList, ExactScalar.beq_iff]
    let ps : Array (Series (Value ℝ)) := #[Series.zeros 1, Series.zeros 1, pz]
    have read : (List.range' 2 1).mapM (fetch ps) = .ok [pz] := rfl
    have step : retreat ⟨tape, [2], table⟩ Base.isAllZero 1 ps 2 =
        .ok #[#[.scalar (0 + (0 + (0 + (0 + 1)) + (0 + (0 + 1)) + (0 + (0 + 1))))], Series.zeros 1,
          pz] :=
      (retreat_eq rfl read).trans ((if_neg busy).trans rfl)
    have taken : ∃ px, reverse ⟨tape, [2], table⟩ 1 [[.array [1, 1, 1]]] = .ok px :=
      ⟨_, (reverseWith_eq ..).trans (bind_eq_ok.2 ⟨(), rfl, bind_eq_ok.2
        ⟨_, bind_eq_ok.2 ⟨_, rfl, bind_eq_ok.2 ⟨_, step, rfl⟩⟩, rfl⟩⟩)⟩
    obtain ⟨px, taken⟩ := taken
    exact ⟨⟨[.array [1 + 3, 2 + 3]], [.bring (.parameter (.array [1, 2])), .binary .add 1 0],
      .ofTape tape [2]⟩, ⟨tape, [2], table⟩, [1 + 3, 2 + 3], px, rfl, rfl, by decide, taken⟩

end Evaluator

end TaylorTape
