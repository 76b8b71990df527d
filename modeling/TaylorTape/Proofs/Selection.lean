import TaylorTape.Proofs.Pruning

/-!
A walk over a tape beside one over a selection of its entries.

The second walk makes the steps of the first at the positions that are selected, and none at the
others.  If the steps that both make keep a relation between the states, and so does a step that only
the first one makes, then the states at the end are related.  A computation concurs with another one
if both succeed, with related outcomes, or both fail.
-/

set_option autoImplicit false
set_option relaxedAutoImplicit false

namespace TaylorTape

section Outcomes

variable {ε α α' β β' : Type} {R : α → α' → Prop} {S : β → β' → Prop} {total : Prop}

/-- Two computations that both succeed, with outcomes that are related, or both fail.  It may be
known that they succeed. -/
inductive Concur (total : Prop) (R : α → α' → Prop) : Except ε α → Except ε α' → Prop where
  | ok {a : α} {a' : α'} (related : R a a') : Concur total R (.ok a) (.ok a')
  | error {err err' : ε} (fallible : ¬ total) : Concur total R (.error err) (.error err')

namespace Concur

variable {x : Except ε α} {x' : Except ε α'}

theorem bind {f : α → Except ε β} {f' : α' → Except ε β'} (first : Concur total R x x')
    (next : ∀ a a', R a a' → Concur total S (f a) (f' a')) :
    Concur total S (x >>= f) (x' >>= f') := by
  cases first with
  | ok related => exact next _ _ related
  | error fallible => exact .error fallible

theorem eq_bind {x x' : Except ε α} {f : α → Except ε β} {f' : α → Except ε β'}
    (first : Concur total (· = ·) x x')
    (next : ∀ a, Concur total S (f a) (f' a)) : Concur total S (x >>= f) (x' >>= f') :=
  first.bind fun a _ same => same ▸ next a

theorem mapError {ε' : Type} (concur : Concur total R x x') (f f' : ε → ε') :
    Concur total R (x.mapError f) (x'.mapError f') := by
  cases concur with
  | ok related => exact .ok related
  | error fallible => exact .error fallible

theorem refl (x : Except ε α) : Concur False (· = ·) x x := by
  cases x with
  | ok a => exact .ok rfl
  | error err => exact .error not_false

theorem of_eq {x x' : Except ε α} (same : x = x') : Concur False (· = ·) x x' :=
  same ▸ refl x

theorem exists_ok (concur : Concur total R x x') {a : α} (done : x = .ok a) :
    ∃ a', x' = .ok a' ∧ R a a' := by
  cases concur with
  | ok related =>
    obtain rfl := Except.ok.inj done
    exact ⟨_, rfl, related⟩
  | error => cases done

theorem exists_same {x x' : Except ε α} (concur : Concur True (· = ·) x x') :
    ∃ a, x = .ok a ∧ x' = .ok a := by
  cases concur with
  | ok related => exact ⟨_, rfl, congrArg _ related.symm⟩
  | error fallible => exact absurd trivial fallible

theorem ok_iff {x x' : Except ε α} (concur : Concur total (· = ·) x x') {a : α} :
    x = .ok a ↔ x' = .ok a := by
  cases concur with
  | ok related => rw [related]
  | error => exact iff_of_false nofun nofun

theorem foldlM {σ σ' : Type} {T : σ → σ' → Prop} {f : σ → α → Except ε σ}
    {f' : σ' → α' → Except ε σ'} {xs : List α} {xs' : List α'} (all : List.Forall₂ R xs xs')
    (step : ∀ a a', R a a' → ∀ s s', T s s' → Concur total T (f s a) (f' s' a')) {s : σ} {s' : σ'}
    (start : T s s') : Concur total T (xs.foldlM f s) (xs'.foldlM f' s') := by
  induction all generalizing s s' with
  | nil => exact .ok start
  | cons head _ ih =>
    rw [List.foldlM_cons, List.foldlM_cons]
    exact (step _ _ head s s' start).bind fun t t' => ih

end Concur

end Outcomes

/-- The first positions of a walk beside the first ones of a selection.  Each position is one that has
been selected, or it has been left out. -/
inductive Picks (g : Nat → Nat) (out : Nat → Prop) : Nat → Nat → Prop where
  | start : Picks g out 0 0
  | keep {n r : Nat} (before : Picks g out n r) (here : g r = n) : Picks g out (n + 1) (r + 1)
  | skip {n r : Nat} (before : Picks g out n r) (left : out n) : Picks g out (n + 1) r

namespace Picks

variable {ε σ σ' : Type} {g : Nat → Nat} {out : Nat → Prop} {n r : Nat} {total : Prop}
  {R : σ → σ' → Prop}

section Folds

variable {f : σ → Nat → Except ε σ} {f' : σ' → Nat → Except ε σ'}

/-- Walks upwards. -/
theorem up (picks : Picks g out n r)
    (keep : ∀ j < r, ∀ s s', R s s' → Concur total R (f s (g j)) (f' s' j))
    (skip : ∀ i < n, out i → ∀ s s', R s s' → ∃ t, f s i = .ok t ∧ R t s') {s : σ} {s' : σ'}
    (start : R s s') : Concur total R ((List.range n).foldlM f s) ((List.range r).foldlM f' s') := by
  induction picks with
  | start => exact .ok start
  | @keep n r _ here ih =>
    rw [List.range_succ, List.range_succ, List.foldlM_append, List.foldlM_append]
    refine (ih (fun j low => keep j (low.trans r.lt_succ_self)) fun i low =>
      skip i (low.trans n.lt_succ_self)).bind fun t t' related => ?_
    rw [List.foldlM_cons, List.foldlM_cons, ← here]
    exact (keep r r.lt_succ_self t t' related).bind fun u u' => .ok
  | @skip n r _ left ih =>
    rw [List.range_succ, List.foldlM_append, ← bind_pure (List.foldlM f' s' (List.range r))]
    refine (ih keep fun i low => skip i (low.trans n.lt_succ_self)).bind fun t t' related => ?_
    obtain ⟨u, done, related'⟩ := skip n n.lt_succ_self left t t' related
    rw [List.foldlM_cons, done]
    exact .ok related'

/-- Walks downwards. -/
theorem down (picks : Picks g out n r)
    (keep : ∀ j < r, ∀ s s', R s s' → Concur total R (f s (g j)) (f' s' j))
    (skip : ∀ i < n, out i → ∀ s s', R s s' → ∃ t, f s i = .ok t ∧ R t s') {s : σ} {s' : σ'}
    (start : R s s') :
    Concur total R ((List.range n).reverse.foldlM f s) ((List.range r).reverse.foldlM f' s') := by
  induction picks generalizing s s' with
  | start => exact .ok start
  | @keep n r _ here ih =>
    rw [List.range_succ, List.range_succ, List.reverse_append, List.reverse_append]
    refine (here ▸ keep r r.lt_succ_self s s' start : Concur total R (f s n) (f' s' r)).bind
      fun t t' related => ?_
    exact ih (fun j low => keep j (low.trans r.lt_succ_self))
      (fun i low => skip i (low.trans n.lt_succ_self)) related
  | @skip n r _ left ih =>
    obtain ⟨t, done, related⟩ := skip n n.lt_succ_self left s s' start
    rw [List.range_succ, List.reverse_append, List.reverse_singleton, List.singleton_append,
      List.foldlM_cons, done]
    exact ih keep (fun i low => skip i (low.trans n.lt_succ_self)) related

end Folds

/-- Traversals upwards, of which the first succeeds. -/
theorem forM {f : Nat → ExceptT ε (StateM σ) PUnit} {f' : Nat → ExceptT ε (StateM σ') PUnit}
    (picks : Picks g out n r)
    (keep : ∀ j < r, ∀ s s' t, R s s' → f (g j) s = (.ok ⟨⟩, t) →
      ∃ t', f' j s' = (.ok ⟨⟩, t') ∧ R t t')
    (skip : ∀ i < n, out i → ∀ s s' t, R s s' → f i s = (.ok ⟨⟩, t) → R t s') {s t : σ} {s' : σ'}
    (start : R s s') (done : (List.range n).forM f s = (.ok ⟨⟩, t)) :
    ∃ t', (List.range r).forM f' s' = (.ok ⟨⟩, t') ∧ R t t' := by
  induction picks generalizing t with
  | start =>
    obtain rfl : s = t := congrArg Prod.snd done
    exact ⟨s', rfl, start⟩
  | @keep n r _ here ih =>
    rw [List.range_succ, forM_concat, run_bind_eq_ok] at done
    obtain ⟨_, u, before, last⟩ := done
    obtain ⟨u', before', related⟩ := ih (fun j low => keep j (low.trans r.lt_succ_self))
      (fun i low => skip i (low.trans n.lt_succ_self)) before
    obtain ⟨t', last', related'⟩ := keep r r.lt_succ_self u u' t related (here ▸ last)
    exact ⟨t', by rw [List.range_succ, forM_concat, run_bind_ok before', last'], related'⟩
  | @skip n r _ left ih =>
    rw [List.range_succ, forM_concat, run_bind_eq_ok] at done
    obtain ⟨_, u, before, last⟩ := done
    obtain ⟨u', before', related⟩ :=
      ih keep (fun i low => skip i (low.trans n.lt_succ_self)) before
    exact ⟨u', before', skip n n.lt_succ_self left u u' t related last⟩

end Picks

namespace Tape

variable {B : Type} {tape small : Tape B} {g : Nat → Nat}

/-- The positions at which there is no entry that has been kept. -/
def LeftOut (small : Tape B) (g : Nat → Nat) (i : Nat) : Prop :=
  ∀ r < small.size, g r ≠ i

namespace Embeds

variable (embeds : small.Embeds tape g)
include embeds

/-- A walk over the tape goes beside one over what is embedded into it. -/
theorem picks : Picks g (small.LeftOut g) tape.size small.size := by
  -- up to each position of the tape some of the first entries have been met
  have upTo : ∀ n ≤ tape.size, ∃ r ≤ small.size, Picks g (small.LeftOut g) n r ∧
      ∀ j < small.size, g j < n ↔ j < r := by
    intro n
    induction n with
    | zero => exact fun _ => ⟨0, Nat.zero_le _, .start, fun j _ => by simp⟩
    | succ n ih =>
      intro room
      obtain ⟨r, low, picks, below⟩ := ih (Nat.le_of_succ_le room)
      by_cases here : r < small.size ∧ g r = n
      · refine ⟨r + 1, here.1, picks.keep here.2, fun j inside => ?_⟩
        have same : g j = n ↔ j = r := ⟨fun same =>
          embeds.injective inside here.1 (same.trans here.2.symm), fun same => same ▸ here.2⟩
        rw [Nat.lt_succ_iff_lt_or_eq, Nat.lt_succ_iff_lt_or_eq, below j inside, same]
      · have left : small.LeftOut g n := by
          intro j inside same
          have late : r ≤ j := Nat.le_of_not_lt fun early => by
            have := (below j inside).2 early
            omega
          rcases Nat.lt_or_eq_of_le late with later | rfl
          · have := embeds.increasing r j later inside
            have := (below r (later.trans inside)).1 (by omega)
            omega
          · exact here ⟨inside, same⟩
        refine ⟨r, low, picks.skip left, fun j inside => ?_⟩
        rw [← below j inside, Nat.lt_succ_iff_lt_or_eq]
        exact or_iff_left (left j inside)
  obtain ⟨r, low, picks, below⟩ := upTo tape.size le_rfl
  have all : r = small.size := by
    by_contra less
    have := (below r (by omega)).1 (embeds.inside (by omega))
    omega
  exact all ▸ picks

theorem follows {i k : Nat} {e : Entry} (found : small.entry i = .ok e) (low : k < e.span) :
    i + k < small.size ∧ g (i + k) = g i + k := by
  cases e with
  | call place args n => exact embeds.results i place args n found k low
  | result => exact absurd low (Nat.not_lt_zero k)
  | input | const | unary | binary =>
    obtain rfl : k = 0 := Nat.lt_one_iff.1 low
    exact ⟨lt_size_of_entry found, rfl⟩

theorem own_iff {i v : Nat} {e : Entry} (found : small.entry i = .ok e) (inside : v < small.size) :
    (g i ≤ g v ∧ g v < g i + e.span) ↔ i ≤ v ∧ v < i + e.span := by
  constructor
  · rintro ⟨low, high⟩
    obtain ⟨room, follows⟩ := embeds.follows found (k := g v - g i) (by omega)
    have same := embeds.injective inside room (by omega)
    omega
  · rintro ⟨low, high⟩
    have := (embeds.follows found (k := v - i) (by omega)).2
    rw [Nat.add_sub_cancel' low] at this
    omega

theorem mapM_own {ε α : Type} {f f' : Nat → Except ε α} {i : Nat} {e : Entry}
    (found : small.entry i = .ok e) (same : ∀ v < small.size, f' v = f (g v)) :
    (List.range' i e.span).mapM f' = (List.range' (g i) e.span).mapM f := by
  rw [List.range'_eq_map_range, List.range'_eq_map_range, List.mapM_map, List.mapM_map]
  refine mapM_congr fun k low => ?_
  obtain ⟨room, follows⟩ := embeds.follows found (List.mem_range.1 low)
  rw [Function.comp_apply, Function.comp_apply, same _ room, follows]

/-- What an entry that is left out produces is left out. -/
theorem leftOut_of_produced (wf : tape.WellFormed) {i j : Nat} {e : Entry}
    (left : small.LeftOut g i) (found : tape.entry i = .ok e) (low : i ≤ j) (high : j < i + e.span) :
    small.LeftOut g j := by
  rcases Nat.lt_or_eq_of_le low with later | rfl
  · intro r inside same
    cases e with
    | call place args n =>
      have result := (wf.calls i place args n found).2 j later high
      obtain ⟨e', found'⟩ := exists_entry inside
      have old := embeds.entry found'
      rw [same, result] at old
      obtain ⟨o, rfl, owner⟩ := Entry.exists_owner (Except.ok.inj old).symm
      exact left o (embeds.names r _ found' o List.mem_cons_self) owner
    | result owner =>
      have : j < i + 0 := high
      omega
    | input | const | unary | binary =>
      have : j < i + 1 := high
      omega
  · exact left

end Embeds

/-- An array with a place for each entry of the tape beside one with a place for each entry of what is
embedded into it.  Something is known of what the places of entries that are left out hold. -/
structure Selects {α : Type} (tape small : Tape B) (g : Nat → Nat) (rest : α → Prop)
    (xs xs' : Array α) : Prop where
  size : xs.size = tape.size
  size' : xs'.size = small.size
  shown : ∀ v < small.size, xs'[v]? = xs[g v]?
  left : ∀ (i : Nat) x, small.LeftOut g i → xs[i]? = some x → rest x

namespace Selects

variable {α : Type} {rest : α → Prop} {xs xs' : Array α} {total : Prop}

theorem replicate (embeds : small.Embeds tape g) {x : α} (start : rest x) :
    Selects tape small g rest (Array.replicate tape.size x) (Array.replicate small.size x) where
  size := Array.size_replicate
  size' := Array.size_replicate
  shown v below := by
    rw [Array.getElem?_replicate, Array.getElem?_replicate, if_pos below,
      if_pos (embeds.inside below)]
  left i y _ there := by
    rw [Array.getElem?_replicate] at there
    split at there
    · exact Option.some.inj there ▸ start
    · cases there

variable (selects : Selects tape small g rest xs xs')
include selects

theorem exists_fetch {v : Nat} (below : v < small.size) :
    ∃ x, fetch xs (g v) = .ok x ∧ fetch xs' v = .ok x := by
  have there := Array.getElem?_eq_getElem (selects.size'.symm ▸ below)
  exact ⟨_, fetch_eq_ok_iff.2 ((selects.shown v below).symm.trans there), fetch_eq_ok_iff.2 there⟩

theorem exists_fetch_old {v : Nat} (inside : v < tape.size) : ∃ x, fetch xs v = .ok x :=
  ⟨_, fetch_eq_ok_iff.2 (Array.getElem?_eq_getElem (selects.size.symm ▸ inside))⟩

theorem fetch_concur {v : Nat} (below : v < small.size) :
    Concur total (· = ·) (fetch xs (g v)) (fetch xs' v) := by
  obtain ⟨x, found, found'⟩ := selects.exists_fetch below
  rw [found, found']
  exact .ok rfl

/-- What the places of an entry's variables hold. -/
theorem exists_own (embeds : small.Embeds tape g) {i : Nat} {e : Entry}
    (found : small.entry i = .ok e) :
    ∃ own, (List.range' (g i) e.span).mapM (fetch xs) = .ok own ∧
      (List.range' i e.span).mapM (fetch xs') = .ok own := by
  have inside : ∀ v ∈ List.range' i e.span, v < small.size := by
    intro v member
    obtain ⟨low, high⟩ := List.mem_range'_1.1 member
    have room := (embeds.follows found (k := v - i) (by omega)).1
    omega
  obtain ⟨own, read'⟩ := exists_mapM fun v member =>
    (selects.exists_fetch (inside v member)).imp fun _ => And.right
  refine ⟨own, ?_, read'⟩
  rw [← embeds.mapM_own found fun v below => ?_, read']
  obtain ⟨x, there, there'⟩ := selects.exists_fetch below
  rw [there, there']

theorem store_concur (embeds : small.Embeds tape g) {v : Nat} (below : v < small.size) (x : α) :
    Concur total (Selects tape small g rest) (store xs (g v) x) (store xs' v x) := by
  have inside := selects.size.symm ▸ embeds.inside below
  have inside' := selects.size'.symm ▸ below
  rw [store_eq_ok_iff.2 ⟨inside, rfl⟩, store_eq_ok_iff.2 ⟨inside', rfl⟩]
  refine .ok ⟨(Array.size_set inside).trans selects.size,
    (Array.size_set inside').trans selects.size', fun w low => ?_, fun i y left there => ?_⟩
  · rw [Array.getElem?_set, Array.getElem?_set, selects.shown w low]
    by_cases same : v = w
    · rw [if_pos same, if_pos (congrArg g same)]
    · rw [if_neg same, if_neg fun met => same (embeds.injective below low met)]
  · rw [Array.getElem?_set, if_neg (left v below)] at there
    exact selects.left i y left there

theorem fetch_leftOut {i : Nat} (inside : i < tape.size) (left : small.LeftOut g i) :
    ∃ x, fetch xs i = .ok x ∧ rest x := by
  obtain ⟨x, there⟩ := selects.exists_fetch_old inside
  exact ⟨x, there, selects.left i x left (fetch_eq_ok_iff.1 there)⟩

theorem store_leftOut {i : Nat} (inside : i < tape.size) (left : small.LeftOut g i) {x : α}
    (kept : rest x) : ∃ ys, store xs i x = .ok ys ∧ Selects tape small g rest ys xs' := by
  have inside' := selects.size.symm ▸ inside
  refine ⟨_, store_eq_ok_iff.2 ⟨inside', rfl⟩, (Array.size_set inside').trans selects.size,
    selects.size', fun v low => ?_, fun j y left' there => ?_⟩
  · rw [Array.getElem?_set, if_neg fun met => left v low met.symm, selects.shown v low]
  · rw [Array.getElem?_set] at there
    split at there
    · exact Option.some.inj there ▸ kept
    · exact selects.left j y left' there

omit selects in
/-- What the places of an entry's variables hold if the entry is left out. -/
theorem own_leftOut {x : α} (selects : Selects tape small g (· = x) xs xs')
    (embeds : small.Embeds tape g) (wf : tape.WellFormed) {i : Nat} {e : Entry}
    (found : tape.entry i = .ok e) (left : small.LeftOut g i) :
    (List.range' i e.span).mapM (fetch xs) = .ok (List.replicate e.span x) := by
  have each : ∀ v ∈ List.range' i e.span, fetch xs v = .ok x := by
    intro v member
    obtain ⟨low, high⟩ := List.mem_range'_1.1 member
    have room := wf.span_le found
    obtain ⟨y, there, rfl⟩ := selects.fetch_leftOut (i := v) (by omega)
      (embeds.leftOut_of_produced wf left found low high)
    exact there
  rw [mapM_eq_map each, List.map_const', List.length_range']

end Selects

end Tape

end TaylorTape
