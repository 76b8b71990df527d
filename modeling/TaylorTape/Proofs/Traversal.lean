import TaylorTape.Error
import Mathlib.Data.List.Forall2

/-!
Rules for the walks that recording, pruning and sweeping are made of.

A walk that may fail is a fold in `Except`, or a traversal that also keeps a state.  Each kind has
one rule that says the walk succeeds, given that no step fails from where the walk can stand, and
one that says what a walk that did succeed has kept.  The invariant names the position that comes
next.
-/

set_option autoImplicit false
set_option relaxedAutoImplicit false

namespace TaylorTape

section Outcomes

variable {ε α β : Type}

theorem bind_eq_ok {x : Except ε α} {f : α → Except ε β} {b : β} :
    x >>= f = .ok b ↔ ∃ a, x = .ok a ∧ f a = .ok b := by
  cases x with
  | error e => simp [bind, Except.bind]
  | ok a => simp [bind, Except.bind]

theorem map_eq_ok {x : Except ε α} {f : α → β} {b : β} :
    f <$> x = .ok b ↔ ∃ a, x = .ok a ∧ f a = b := by
  cases x with
  | error e => simp [Functor.map, Except.map]
  | ok a => simp [Functor.map, Except.map]

@[simp] theorem pure_eq_ok {a b : α} : (pure a : Except ε α) = .ok b ↔ a = b := by
  simp [pure, Except.pure]

theorem ok_bind (a : α) (f : α → Except ε β) : (Except.ok a : Except ε α) >>= f = f a := rfl

theorem bind_congr_ok {x : Except ε α} {f g : α → Except ε β}
    (same : ∀ a, x = .ok a → f a = g a) : x >>= f = x >>= g := by
  cases x with
  | error e => rfl
  | ok a => exact same a rfl

theorem exists_bind {x : Except ε α} {f : α → Except ε β} {P : α → Prop} {Q : β → Prop}
    (first : ∃ a, x = .ok a ∧ P a) (next : ∀ a, P a → ∃ b, f a = .ok b ∧ Q b) :
    ∃ b, x >>= f = .ok b ∧ Q b := by
  obtain ⟨a, rfl, held⟩ := first
  exact next a held

theorem mapError_eq_ok {ε' : Type} {x : Except ε α} {f : ε → ε'} {a : α} :
    x.mapError f = .ok a ↔ x = .ok a := by
  cases x with
  | error e => simp [Except.mapError]
  | ok a => simp [Except.mapError]

theorem refuse_eq_ok {p : Prop} [Decidable p] {e : ε} {f : α → Except ε β} {x : Except ε β} {b : β} :
    (if p then (throw e : Except ε α) >>= f else x) = .ok b ↔ ¬ p ∧ x = .ok b := by
  by_cases holds : p
  · simp [holds, throw, throwThe, MonadExceptOf.throw, bind, Except.bind]
  · simp [holds]

theorem throw_eq_ok {p : Prop} [Decidable p] {e : ε} {x : Except ε β} {b : β} :
    (if p then throw e else x) = .ok b ↔ ¬ p ∧ x = .ok b := by
  by_cases holds : p
  · simp [holds, throw, throwThe, MonadExceptOf.throw]
  · simp [holds]

theorem refuse_eq_error {p : Prop} [Decidable p] {e : ε} {f : α → Except ε β} {x : Except ε β}
    {err : ε} : (if p then (throw e : Except ε α) >>= f else x) = .error err ↔
      p ∧ e = err ∨ ¬ p ∧ x = .error err := by
  by_cases holds : p
  · simp [holds, throw, throwThe, MonadExceptOf.throw, bind, Except.bind]
  · simp [holds]

theorem throw_eq_error {p : Prop} [Decidable p] {e : ε} {x : Except ε β} {err : ε} :
    (if p then throw e else x) = .error err ↔ p ∧ e = err ∨ ¬ p ∧ x = .error err := by
  by_cases holds : p
  · simp [holds, throw, throwThe, MonadExceptOf.throw]
  · simp [holds]

end Outcomes

section Lists

variable {ε α β : Type}

theorem mapM_eq_ok {f : α → Except ε β} {xs : List α} {ys : List β} :
    xs.mapM f = .ok ys ↔ List.Forall₂ (fun x y => f x = .ok y) xs ys := by
  induction xs generalizing ys with
  | nil => simp [pure, Except.pure, eq_comm]
  | cons x xs ih =>
    simp only [List.mapM_cons, bind_eq_ok, pure_eq_ok, ih]
    constructor
    · rintro ⟨y, head, zs, tail, rfl⟩
      exact .cons head tail
    · intro all
      cases all with
      | cons head tail => exact ⟨_, head, _, tail, rfl⟩

theorem exists_mapM {f : α → Except ε β} {xs : List α} (each : ∀ x ∈ xs, ∃ y, f x = .ok y) :
    ∃ ys, xs.mapM f = .ok ys := by
  induction xs with
  | nil => exact ⟨[], rfl⟩
  | cons x xs ih =>
    obtain ⟨⟨y, head⟩, rest⟩ := List.forall_mem_cons.1 each
    obtain ⟨ys, tail⟩ := ih rest
    exact ⟨y :: ys, mapM_eq_ok.2 (.cons head (mapM_eq_ok.1 tail))⟩

theorem mapM_congr {f g : α → Except ε β} {xs : List α} (same : ∀ x ∈ xs, f x = g x) :
    xs.mapM f = xs.mapM g := by
  induction xs with
  | nil => rfl
  | cons x xs ih =>
    have rest := ih fun y member => same y (List.mem_cons_of_mem x member)
    rw [List.mapM_cons, List.mapM_cons, same x List.mem_cons_self, rest]

theorem mapM_forall₂ {α' : Type} {f : α → Except ε β} {g : α' → Except ε β} {xs : List α}
    {ys : List α'} (same : List.Forall₂ (fun x y => f x = g y) xs ys) : xs.mapM f = ys.mapM g := by
  induction same with
  | nil => rfl
  | cons head _ ih => rw [List.mapM_cons, List.mapM_cons, head, ih]

theorem mapM_bind {γ : Type} {f : α → Except ε β} {xs : List α} {ys : List β}
    (done : xs.mapM f = .ok ys) (g : β → Except ε γ) : (xs.mapM fun x => f x >>= g) = ys.mapM g :=
  mapM_forall₂ ((mapM_eq_ok.1 done).imp fun x y same => by rw [same, ok_bind])

theorem mapM_eq_map {f : α → Except ε β} {g : α → β} {xs : List α}
    (each : ∀ x ∈ xs, f x = .ok (g x)) : xs.mapM f = .ok (xs.map g) := by
  rw [mapM_eq_ok, List.forall₂_map_right_iff, List.forall₂_same]
  exact each

/-- A traversal that fails has the error of one of its steps. -/
theorem exists_of_mapM_error {f : α → Except ε β} {xs : List α} {err : ε}
    (failed : xs.mapM f = .error err) : ∃ x ∈ xs, f x = .error err := by
  induction xs with
  | nil => cases failed
  | cons x xs ih =>
    rw [List.mapM_cons] at failed
    cases head : f x with
    | error err' =>
      rw [head] at failed
      obtain rfl := Except.error.inj failed
      exact ⟨x, List.mem_cons_self, head⟩
    | ok y =>
      rw [head, ok_bind] at failed
      cases tail : xs.mapM f with
      | error err' =>
        rw [tail] at failed
        obtain rfl := Except.error.inj failed
        obtain ⟨z, member, found⟩ := ih tail
        exact ⟨z, List.mem_cons_of_mem x member, found⟩
      | ok ys =>
        rw [tail] at failed
        cases failed

theorem mapM_range_take {k q : Nat} {rule rule' : Nat → Except ε α} {xs : List α} (low : k ≤ q)
    (same : ∀ j ≤ k, rule' j = rule j) (done : (List.range (q + 1)).mapM rule = .ok xs) :
    (List.range (k + 1)).mapM rule' = .ok (xs.take (k + 1)) := by
  have first : (List.range (q + 1)).take (k + 1) = List.range (k + 1) := by
    rw [List.take_range, Nat.min_eq_left (by omega)]
  rw [mapM_congr fun j member => same j (by have := List.mem_range.1 member; omega), ← first]
  exact mapM_eq_ok.2 (List.forall₂_take _ (mapM_eq_ok.1 done))

theorem length_of_mapM {f : α → Except ε β} {xs : List α} {ys : List β}
    (done : xs.mapM f = .ok ys) : ys.length = xs.length :=
  (mapM_eq_ok.1 done).length_eq.symm

/-- A list is known by what it has at each place. -/
theorem eq_map_range {xs : List α} {f : Nat → α} {n : Nat} (count : xs.length = n)
    (each : ∀ j < n, xs[j]? = some (f j)) : xs = (List.range n).map f := by
  refine List.ext_getElem? fun j => ?_
  by_cases below : j < n
  · rw [each j below, List.getElem?_map, List.getElem?_range below]
    rfl
  · rw [List.getElem?_eq_none (by omega), List.getElem?_eq_none (by simpa using below)]

theorem exists_of_forall₂_single {R : α → β → Prop} {xs : List α} {y : β}
    (all : List.Forall₂ R xs [y]) : ∃ x, xs = [x] ∧ R x y := by
  obtain ⟨x, _, related, nothing, rfl⟩ := List.forall₂_cons_right_iff.1 all
  obtain rfl := List.forall₂_nil_right_iff.1 nothing
  exact ⟨x, rfl, related⟩

/-- A member of the second of two related lists has a partner in the first. -/
theorem exists_of_mem_forall₂ {R : α → β → Prop} {xs : List α} {ys : List β}
    (all : List.Forall₂ R xs ys) {y : β} (member : y ∈ ys) : ∃ x ∈ xs, R x y := by
  induction all with
  | nil => cases member
  | cons head _ ih =>
    rcases List.mem_cons.1 member with rfl | later
    · exact ⟨_, List.mem_cons_self, head⟩
    · obtain ⟨x, inside, related⟩ := ih later
      exact ⟨x, List.mem_cons_of_mem _ inside, related⟩

theorem exists_of_mem_mapM {f : α → Except ε β} {xs : List α} {ys : List β}
    (done : xs.mapM f = .ok ys) {y : β} (member : y ∈ ys) : ∃ x ∈ xs, f x = .ok y :=
  exists_of_mem_forall₂ (mapM_eq_ok.1 done) member

theorem getElem?_of_mapM {f : α → Except ε β} {xs : List α} {ys : List β}
    (done : xs.mapM f = .ok ys) {i : Nat} {x : α} (found : xs[i]? = some x) :
    ∃ y, ys[i]? = some y ∧ f x = .ok y := by
  have all := mapM_eq_ok.1 done
  induction all generalizing i with
  | nil => simp at found
  | cons head _ ih =>
    cases i with
    | zero =>
      obtain rfl : _ = x := by simpa using found
      exact ⟨_, rfl, head⟩
    | succ i =>
      rename_i rest _ tail
      exact ih (mapM_eq_ok.2 tail) (by simpa using found)

theorem foldlM_congr {σ : Type} {f g : σ → α → Except ε σ} {xs : List α}
    (same : ∀ x ∈ xs, ∀ s, f s x = g s x) (s : σ) : xs.foldlM f s = xs.foldlM g s := by
  induction xs generalizing s with
  | nil => rfl
  | cons x xs ih =>
    rw [List.foldlM_cons, List.foldlM_cons, same x List.mem_cons_self]
    refine congrArg (g s x >>= ·) (funext fun t => ih (fun y member => ?_) t)
    exact same y (List.mem_cons_of_mem x member)

theorem foldlM_total {σ : Type} {f : σ → α → Except ε σ} {P : σ → Prop} {xs : List α} {s : σ}
    (step : ∀ x ∈ xs, ∀ s, P s → ∃ t, f s x = .ok t ∧ P t) (start : P s) :
    ∃ t, xs.foldlM f s = .ok t ∧ P t := by
  induction xs generalizing s with
  | nil => exact ⟨s, rfl, start⟩
  | cons x xs ih =>
    obtain ⟨t, first, held⟩ := step x List.mem_cons_self s start
    obtain ⟨u, rest, last⟩ := ih (fun y member => step y (List.mem_cons_of_mem _ member)) held
    exact ⟨u, by rw [List.foldlM_cons, first, ok_bind, rest], last⟩

/-- A fold that succeeds keeps what its steps keep. -/
theorem foldlM_kept {σ : Type} {f : σ → α → Except ε σ} {P : σ → Prop} {xs : List α} {s t : σ}
    (keep : ∀ x ∈ xs, ∀ s t, P s → f s x = .ok t → P t) (start : P s)
    (done : xs.foldlM f s = .ok t) : P t := by
  induction xs generalizing s with
  | nil =>
    obtain rfl : s = t := by simpa using done
    exact start
  | cons x xs ih =>
    rw [List.foldlM_cons, bind_eq_ok] at done
    obtain ⟨u, first, rest⟩ := done
    exact ih (fun y member => keep y (List.mem_cons_of_mem x member))
      (keep x List.mem_cons_self s u start first) rest

theorem exists_of_foldlM {σ : Type} {f : σ → α → Except ε σ} {xs : List α} {s t : σ} {x : α}
    (done : xs.foldlM f s = .ok t) (member : x ∈ xs) :
    ∃ before after u v, xs = before ++ x :: after ∧ before.foldlM f s = .ok u ∧ f u x = .ok v ∧
      after.foldlM f v = .ok t := by
  obtain ⟨before, after, rfl⟩ := List.append_of_mem member
  rw [List.foldlM_append, bind_eq_ok] at done
  obtain ⟨u, first, rest⟩ := done
  rw [List.foldlM_cons, bind_eq_ok] at rest
  obtain ⟨v, step, rest⟩ := rest
  exact ⟨before, after, u, v, rfl, first, step, rest⟩

theorem foldlM_reached {σ : Type} {f : σ → α → Except ε σ} {P : σ → Prop} {xs : List α} {s t : σ}
    (keep : ∀ x ∈ xs, ∀ s t, P s → f s x = .ok t → P t) (start : P s)
    (done : xs.foldlM f s = .ok t) : P t ∧ ∀ x ∈ xs, ∃ u v, P u ∧ f u x = .ok v := by
  refine ⟨foldlM_kept keep start done, fun x member => ?_⟩
  obtain ⟨before, after, u, v, rfl, first, step, _⟩ := exists_of_foldlM done member
  exact ⟨u, v, foldlM_kept (fun y among => keep y (List.mem_append_left _ among)) start first, step⟩

theorem foldlM_settled {σ : Type} {f : σ → α → Except ε σ} {P : σ → Prop} {xs : List α} {s t : σ}
    {x : α} (keep : ∀ x ∈ xs, ∀ s t, P s → f s x = .ok t → P t) (bring : ∀ s t, f s x = .ok t → P t)
    (done : xs.foldlM f s = .ok t) (member : x ∈ xs) : P t := by
  obtain ⟨before, after, u, v, rfl, _, step, rest⟩ := exists_of_foldlM done member
  exact foldlM_kept (fun y among => keep y (List.mem_append_right _ (List.mem_cons_of_mem x among)))
    (bring u v step) rest

end Lists

section Folds

variable {ε σ : Type} {f : σ → Nat → Except ε σ} {P : Nat → σ → Prop}

/-- A fold upwards succeeds if every step does from where the invariant holds. -/
theorem foldlM_up {a n : Nat} {s : σ}
    (step : ∀ i s, a ≤ i → i < a + n → P i s → ∃ t, f s i = .ok t ∧ P (i + 1) t) (start : P a s) :
    ∃ t, (List.range' a n).foldlM f s = .ok t ∧ P (a + n) t := by
  induction n generalizing a s with
  | zero => exact ⟨s, rfl, start⟩
  | succ n ih =>
    obtain ⟨t, first, held⟩ := step a s (Nat.le_refl a) (by omega) start
    obtain ⟨u, rest, last⟩ :=
      ih (fun i s low high => step i s (by omega) (by omega)) held
    refine ⟨u, ?_, by rwa [Nat.add_right_comm, Nat.add_assoc] at last⟩
    rw [List.range'_succ, List.foldlM_cons, first]
    exact rest

/-- What a fold upwards that succeeded has kept. -/
theorem foldlM_up_kept {a n : Nat} {s t : σ}
    (step : ∀ i s t, a ≤ i → i < a + n → P i s → f s i = .ok t → P (i + 1) t) (start : P a s)
    (done : (List.range' a n).foldlM f s = .ok t) : P (a + n) t := by
  induction n generalizing a s with
  | zero =>
    obtain rfl : s = t := by simpa using done
    exact start
  | succ n ih =>
    rw [List.range'_succ, List.foldlM_cons, bind_eq_ok] at done
    obtain ⟨u, first, rest⟩ := done
    have last := ih (fun i s t low high => step i s t (by omega) (by omega))
      (step _ _ _ (Nat.le_refl a) (by omega) start first) rest
    rwa [Nat.add_right_comm, Nat.add_assoc] at last

/-- A fold upwards whose state at every position is known. -/
theorem foldlM_eq {a n : Nat} {s t : σ} (g : Nat → σ) (start : s = g a)
    (step : ∀ i, a ≤ i → i < a + n → f (g i) i = .ok (g (i + 1))) (last : g (a + n) = t) :
    (List.range' a n).foldlM f s = .ok t := by
  obtain ⟨u, done, same⟩ := foldlM_up (f := f) (P := fun i s => s = g i)
    (fun i s low high same => ⟨_, by rw [same, step i low high], rfl⟩) start
  rw [done, same, last]

/-- A fold downwards succeeds if every step does from where the invariant holds. -/
theorem foldlM_down {a n : Nat} {s : σ}
    (step : ∀ i s, a ≤ i → i < a + n → P (i + 1) s → ∃ t, f s i = .ok t ∧ P i t)
    (start : P (a + n) s) :
    ∃ t, (List.range' a n).reverse.foldlM f s = .ok t ∧ P a t := by
  induction n generalizing s with
  | zero => exact ⟨s, rfl, start⟩
  | succ n ih =>
    obtain ⟨t, first, held⟩ := step (a + n) s (by omega) (by omega) start
    obtain ⟨u, rest, last⟩ := ih (fun i s low high => step i s low (by omega)) held
    refine ⟨u, ?_, last⟩
    rw [List.range'_concat, List.reverse_append, List.reverse_singleton, List.singleton_append,
      List.foldlM_cons, Nat.one_mul, first]
    exact rest

/-- What a fold downwards that succeeded has kept. -/
theorem foldlM_down_kept {a n : Nat} {s t : σ}
    (step : ∀ i s t, a ≤ i → i < a + n → P (i + 1) s → f s i = .ok t → P i t)
    (start : P (a + n) s) (done : (List.range' a n).reverse.foldlM f s = .ok t) : P a t := by
  induction n generalizing s with
  | zero =>
    obtain rfl : s = t := by simpa using done
    exact start
  | succ n ih =>
    rw [List.range'_concat, List.reverse_append, List.reverse_singleton, List.singleton_append,
      List.foldlM_cons, Nat.one_mul, bind_eq_ok] at done
    obtain ⟨u, first, rest⟩ := done
    exact ih (fun i s t low high => step i s t low (by omega))
      (step _ _ _ (by omega) (by omega) start first) rest

end Folds

section States

variable {ε σ α β : Type}

theorem run_bind (x : ExceptT ε (StateM σ) α) (f : α → ExceptT ε (StateM σ) β) (s : σ) :
    (x >>= f) s = match x s with
      | (.ok a, t) => f a t
      | (.error e, t) => (.error e, t) := by
  show (match x s with | (a, t) => ExceptT.bindCont f a t) = _
  rcases x s with ⟨_ | _, _⟩ <;> rfl

theorem run_bind_ok {x : ExceptT ε (StateM σ) α} {f : α → ExceptT ε (StateM σ) β} {s t : σ} {a : α}
    (first : x s = (.ok a, t)) : (x >>= f) s = f a t := by
  rw [run_bind, first]

theorem run_bind_eq_ok {x : ExceptT ε (StateM σ) α} {f : α → ExceptT ε (StateM σ) β} {s u : σ}
    {b : β} : (x >>= f) s = (.ok b, u) ↔ ∃ a t, x s = (.ok a, t) ∧ f a t = (.ok b, u) := by
  constructor
  · intro done
    rw [run_bind] at done
    split at done
    · exact ⟨_, _, ‹_›, done⟩
    · cases done
  · rintro ⟨a, t, first, rest⟩
    rw [run_bind_ok first, rest]

theorem run_get (s : σ) : (get : ExceptT ε (StateM σ) σ) s = (.ok s, s) := rfl

theorem run_set (s t : σ) : (set t : ExceptT ε (StateM σ) PUnit) s = (.ok ⟨⟩, t) := rfl

theorem run_modify (f : σ → σ) (s : σ) :
    (modify f : ExceptT ε (StateM σ) PUnit) s = (.ok ⟨⟩, f s) := rfl

theorem run_lift (x : Except ε α) (s : σ) :
    (liftM x : ExceptT ε (StateM σ) α) s = (x, s) := by
  cases x <;> rfl

theorem run_lift_bind_ok {x : Except ε α} {f : α → ExceptT ε (StateM σ) β} {s : σ} {a : α}
    (first : x = .ok a) : ((liftM x : ExceptT ε (StateM σ) α) >>= f) s = f a s :=
  run_bind_ok (first ▸ run_lift x s)

theorem run_lift_bind_error {x : Except ε α} {f : α → ExceptT ε (StateM σ) β} {s : σ} {e : ε}
    (first : x = .error e) : ((liftM x : ExceptT ε (StateM σ) α) >>= f) s = (.error e, s) := by
  rw [run_bind, run_lift, first]

theorem run_lift_bind_eq_ok {x : Except ε α} {f : α → ExceptT ε (StateM σ) β} {s u : σ} {b : β} :
    ((liftM x : ExceptT ε (StateM σ) α) >>= f) s = (.ok b, u) ↔
      ∃ a, x = .ok a ∧ f a s = (.ok b, u) := by
  rw [run_bind, run_lift]
  cases x with
  | error e => exact iff_of_false nofun nofun
  | ok a => simp

theorem forM_cons (f : α → ExceptT ε (StateM σ) PUnit) (x : α) (xs : List α) :
    (x :: xs).forM f = f x >>= fun _ => xs.forM f := rfl

theorem forM_concat (f : α → ExceptT ε (StateM σ) PUnit) (xs : List α) (x : α) :
    (xs ++ [x]).forM f = xs.forM f >>= fun _ => f x := by
  induction xs with
  | nil =>
    rw [List.nil_append, forM_cons]
    exact bind_pure (f x)
  | cons y ys ih => rw [List.cons_append, forM_cons, forM_cons, ih, bind_assoc]

/-- A traversal that fails has gone through some elements and fails at the next one. -/
theorem exists_of_forM_error {f : α → ExceptT ε (StateM σ) PUnit} {xs : List α} {s t : σ} {err : ε}
    (failed : xs.forM f s = (.error err, t)) :
    ∃ i x u, xs[i]? = some x ∧ (xs.take i).forM f s = (.ok ⟨⟩, u) ∧ f x u = (.error err, t) := by
  induction xs generalizing s with
  | nil => cases failed
  | cons y xs ih =>
    rw [forM_cons, run_bind] at failed
    cases first : f y s with
    | mk outcome s' =>
      rw [first] at failed
      cases outcome with
      | error err' =>
        obtain ⟨same, rfl⟩ := Prod.mk.inj failed
        obtain rfl := Except.error.inj same
        exact ⟨0, y, s, rfl, rfl, first⟩
      | ok _ =>
        obtain ⟨i, x, u, there, passed, refused⟩ := ih failed
        refine ⟨i + 1, x, u, there, ?_, refused⟩
        rw [List.take_succ_cons, forM_cons, run_bind_ok first]
        exact passed

/-- What every step of a traversal keeps, whatever its outcome, the traversal keeps. -/
theorem forM_preserves {f : α → ExceptT ε (StateM σ) PUnit} {P : σ → Prop} {xs : List α} {s : σ}
    (step : ∀ x ∈ xs, ∀ s, P s → P (f x s).2) (start : P s) : P (xs.forM f s).2 := by
  induction xs generalizing s with
  | nil => exact start
  | cons x xs ih =>
    have first := step x List.mem_cons_self s start
    rw [forM_cons, run_bind]
    split
    · rename_i _ t ran
      rw [ran] at first
      exact ih (fun y member => step y (List.mem_cons_of_mem x member)) first
    · rename_i _ t ran
      rwa [ran] at first

variable {f : Nat → ExceptT ε (StateM σ) PUnit} {P : Nat → σ → Prop}

/-- A traversal upwards succeeds if every step does from where the invariant holds. -/
theorem forM_up {a n : Nat} {s : σ}
    (step : ∀ i s, a ≤ i → i < a + n → P i s → ∃ t, f i s = (.ok ⟨⟩, t) ∧ P (i + 1) t)
    (start : P a s) : ∃ t, (List.range' a n).forM f s = (.ok ⟨⟩, t) ∧ P (a + n) t := by
  induction n generalizing a s with
  | zero => exact ⟨s, rfl, start⟩
  | succ n ih =>
    obtain ⟨t, first, held⟩ := step a s (Nat.le_refl a) (by omega) start
    obtain ⟨u, rest, last⟩ :=
      ih (fun i s low high => step i s (by omega) (by omega)) held
    refine ⟨u, ?_, by rwa [Nat.add_right_comm, Nat.add_assoc] at last⟩
    rw [List.range'_succ, forM_cons, run_bind_ok first]
    exact rest

/-- What a traversal upwards that succeeded has kept. -/
theorem forM_up_kept {a n : Nat} {s t : σ}
    (step : ∀ i s t, a ≤ i → i < a + n → P i s → f i s = (.ok ⟨⟩, t) → P (i + 1) t)
    (start : P a s) (done : (List.range' a n).forM f s = (.ok ⟨⟩, t)) : P (a + n) t := by
  induction n generalizing a s with
  | zero =>
    obtain rfl : s = t := congrArg Prod.snd done
    exact start
  | succ n ih =>
    rw [List.range'_succ, forM_cons, run_bind_eq_ok] at done
    obtain ⟨_, u, first, rest⟩ := done
    have last := ih (fun i s t low high => step i s t (by omega) (by omega))
      (step _ _ _ (Nat.le_refl a) (by omega) start first) rest
    rwa [Nat.add_right_comm, Nat.add_assoc] at last

/-- Two runs of one traversal have the same outcome if every step has, from where they agree. -/
theorem forM_agree {R : Nat → σ → σ → Prop} {a n : Nat} {s s' : σ}
    (step : ∀ i s s', a ≤ i → i < a + n → R i s s' →
      (f i s).1 = (f i s').1 ∧ ((f i s).1 = .ok ⟨⟩ → R (i + 1) (f i s).2 (f i s').2))
    (start : R a s s') :
    ((List.range' a n).forM f s).1 = ((List.range' a n).forM f s').1 ∧
      (((List.range' a n).forM f s).1 = .ok ⟨⟩ →
        R (a + n) ((List.range' a n).forM f s).2 ((List.range' a n).forM f s').2) := by
  induction n generalizing a s s' with
  | zero => exact ⟨rfl, fun _ => start⟩
  | succ n ih =>
    obtain ⟨same, held⟩ := step a s s' (Nat.le_refl a) (by omega) start
    rw [List.range'_succ, forM_cons, run_bind, run_bind]
    cases first : f a s with
    | mk outcome t =>
      cases first' : f a s' with
      | mk outcome' t' =>
        rw [first, first'] at same held
        obtain rfl : outcome = outcome' := same
        cases outcome with
        | error e => exact ⟨rfl, nofun⟩
        | ok _ =>
          have rest := ih (fun i s s' low high => step i s s' (by omega) (by omega)) (held rfl)
          rwa [Nat.add_right_comm, Nat.add_assoc] at rest

end States

end TaylorTape
