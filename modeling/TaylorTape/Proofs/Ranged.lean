import Mathlib.Data.List.Forall2
import TaylorTape.Proofs.Traversal
import TaylorTape.Series.Reverse

/-!
Outcomes that no access out of range has brought about.

An error of an operation or of an atomic carries its source, so the position that was missing may
lie deep inside of it.  The rules for series read and write only orders that are there: this depends
on the lengths of the series and on nothing that stands in them.
-/

set_option autoImplicit false
set_option relaxedAutoImplicit false

namespace TaylorTape

/-- No access out of range is the cause of an error. -/
def Error.InRange : Error → Prop
  | .indexOutOfRange _ _ => False
  | .op _ _ source | .atomic _ _ source => source.InRange
  | .shapeMismatch _ _ _ | .state _ | .unsupportedOrder _ _ => True

/-- An outcome whose error, if it is one, no access out of range has caused, and whose result, if it
is one, has a property. -/
def Ranged {α : Type} (P : α → Prop) : Except Error α → Prop
  | .ok a => P a
  | .error err => err.InRange

/-- The same, whatever the result. -/
abbrev InRange {α : Type} (x : Except Error α) : Prop :=
  Ranged (fun _ => True) x

section Outcomes

variable {α β σ : Type} {P Q : α → Prop} {x : Except Error α}

theorem ranged_iff : Ranged P x ↔ (∀ a, x = .ok a → P a) ∧ ∀ err, x = .error err → err.InRange := by
  cases x with
  | ok a => simp [Ranged]
  | error err => simp [Ranged]

theorem ranged_of_ok {a : α} (done : x = .ok a) (holds : P a) : Ranged P x :=
  done ▸ holds

theorem Ranged.mono (ranged : Ranged P x) (weaker : ∀ a, P a → Q a) : Ranged Q x := by
  cases x with
  | ok a => exact weaker a ranged
  | error err => exact ranged

theorem Ranged.inRange (ranged : Ranged P x) : InRange x :=
  ranged.mono fun _ _ => trivial

theorem Ranged.bind {f : α → Except Error β} {R : β → Prop} (first : Ranged P x)
    (next : ∀ a, P a → Ranged R (f a)) : Ranged R (x >>= f) := by
  cases x with
  | ok a => exact next a first
  | error err => exact first

theorem Ranged.map {f : α → β} {R : β → Prop} (ranged : Ranged P x) (each : ∀ a, P a → R (f a)) :
    Ranged R (f <$> x) := by
  cases x with
  | ok a => exact each a ranged
  | error err => exact ranged

theorem Ranged.mapError {f : Error → Error} (ranged : Ranged P x)
    (keep : ∀ err, err.InRange → (f err).InRange) : Ranged P (x.mapError f) := by
  cases x with
  | ok a => exact ranged
  | error err => exact keep err ranged

theorem Ranged.mapM {f : α → Except Error β} {R : α → β → Prop} {xs : List α}
    (each : ∀ x ∈ xs, Ranged (R x) (f x)) : Ranged (List.Forall₂ R xs) (xs.mapM f) := by
  induction xs with
  | nil => exact .nil
  | cons x xs ih =>
    rw [List.mapM_cons]
    refine (each x (by simp)).bind fun y first => ?_
    exact (ih fun x member => each x (by simp [member])).bind fun ys rest => .cons first rest

theorem InRange.mapM {f : α → Except Error β} {xs : List α} (each : ∀ x ∈ xs, InRange (f x)) :
    InRange (xs.mapM f) :=
  (Ranged.mapM each).inRange

section Folds

variable {f : σ → Nat → Except Error σ} {s : σ}

theorem Ranged.foldlM {f : σ → α → Except Error σ} {I : σ → Prop} {xs : List α}
    (each : ∀ x ∈ xs, ∀ s, I s → Ranged I (f s x)) (start : I s) : Ranged I (xs.foldlM f s) := by
  induction xs generalizing s with
  | nil => exact start
  | cons x xs ih =>
    rw [List.foldlM_cons]
    exact (each x (by simp) s start).bind fun t kept =>
      ih (fun x member => each x (by simp [member])) kept

private theorem Ranged.up {I : Nat → σ → Prop} {a n : Nat}
    (step : ∀ i s, a ≤ i → i < a + n → I i s → Ranged (I (i + 1)) (f s i)) (start : I a s) :
    Ranged (I (a + n)) ((List.range' a n).foldlM f s) := by
  induction n generalizing a s with
  | zero => exact start
  | succ n ih =>
    rw [List.range'_succ, List.foldlM_cons]
    refine (step a s (Nat.le_refl a) (by omega) start).bind fun t kept => ?_
    rw [Nat.add_left_comm, Nat.add_comm]
    exact ih (fun i s low high => step i s (by omega) (by omega)) kept

end Folds

end Outcomes

section Access

variable {α : Type} {P : α → Prop} {xs : Array α} {i : Nat}

theorem ranged_fetch (all : ∀ x ∈ xs, P x) (inside : i < xs.size) : Ranged P (fetch xs i) :=
  ranged_of_ok (fetch_eq_ok_iff.2 (Array.getElem?_eq_getElem inside))
    (all _ (Array.getElem_mem inside))

theorem ranged_pick {xs : List α} (all : ∀ x ∈ xs, P x) (inside : i < xs.length) :
    Ranged P (pick xs i) :=
  ranged_of_ok (pick_eq_ok_iff.2 (List.getElem?_eq_getElem inside))
    (all _ (List.getElem_mem inside))

theorem ranged_store (all : ∀ x ∈ xs, P x) (inside : i < xs.size) {x : α} (holds : P x) :
    Ranged (fun ys => ys.size = xs.size ∧ ∀ y ∈ ys, P y) (store xs i x) := by
  refine ranged_of_ok (store_eq_ok_iff.2 ⟨inside, rfl⟩) ⟨Array.size_set inside, fun y member => ?_⟩
  rcases Array.mem_or_eq_of_mem_set member with before | rfl
  · exact all y before
  · exact holds

end Access

/-- Bases that refuse values for their shapes only. -/
class CheckedBase (B : Type) {F : Type} [Scalar F] [Base B F] : Prop where
  zipWith : ∀ context (f : F → F → F) (a b : B), InRange (Base.zipWith context f a b)
  ofList : ∀ xs : List F, InRange (Base.ofList xs : Except Error B)
  broadcastLike : ∀ v shape : B, InRange (Base.broadcastLike v shape)

instance {F : Type} [Scalar F] : CheckedBase F where
  zipWith _ _ _ _ := trivial
  ofList xs := by
    show InRange (Base.ofList xs : Except Error F)
    cases xs with
    | nil => trivial
    | cons x xs => cases xs <;> trivial
  broadcastLike _ _ := trivial

instance {F : Type} [Scalar F] : CheckedBase (Value F) where
  zipWith context f a b := by
    show InRange (Value.zipWith context f a b)
    cases a <;> cases b <;> simp only [Value.zipWith] <;> try split
    all_goals trivial
  ofList _ := trivial
  broadcastLike v shape := by
    show InRange (Value.broadcastLike v shape)
    cases shape <;> cases v <;> simp only [Value.broadcastLike, Value.broadcastTo] <;> try split
    all_goals trivial

variable {B F : Type} [Scalar F] [Base B F]

section Shapes

variable [CheckedBase B]

private theorem inRange_add (a b : B) : InRange (Base.add a b) :=
  CheckedBase.zipWith "add" _ a b

private theorem inRange_sub (a b : B) : InRange (Base.sub a b) :=
  CheckedBase.zipWith "sub" _ a b

private theorem inRange_mul (a b : B) : InRange (Base.mul a b) :=
  CheckedBase.zipWith "mul" _ a b

private theorem inRange_div (a b : B) : InRange (Base.div a b) :=
  CheckedBase.zipWith "div" _ a b

private theorem BinaryOp.inRange_eval (op : BinaryOp) (a b : B) : InRange (op.eval a b) := by
  cases op with
  | add => exact inRange_add a b
  | sub => exact inRange_sub a b
  | mul => exact inRange_mul a b
  | div => exact inRange_div a b

end Shapes

namespace Series

variable {s a ps pc pa : Series B} {k n : Nat}

omit [Scalar F] [Base B F] in
theorem inRange_coeff (sized : s.size = n) (below : k < n) : InRange (s.coeff k) :=
  ranged_fetch (fun _ _ => trivial) (sized ▸ below)

omit [Scalar F] [Base B F] in
private theorem ranged_store_size (sized : s.size = n) (below : k < n) (v : B) :
    Ranged (fun t => t.size = n) (store s k v) :=
  (ranged_store (P := fun _ => True) (fun _ _ => trivial) (sized ▸ below) trivial).mono
    fun _ kept => kept.1.trans sized

variable [CheckedBase B]

theorem ranged_addAt (sized : s.size = n) (below : k < n) (v : B) :
    Ranged (fun t => t.size = n) (s.addAt k v) :=
  (inRange_coeff sized below).bind fun old _ => (inRange_add old v).bind fun x _ =>
    ranged_store_size sized below x

private theorem ranged_subAt (sized : s.size = n) (below : k < n) (v : B) :
    Ranged (fun t => t.size = n) (s.subAt k v) :=
  (inRange_coeff sized below).bind fun old _ => (inRange_sub old v).bind fun x _ =>
    ranged_store_size sized below x

private theorem ranged_divAt (sized : s.size = n) (below : k < n) (v : B) :
    Ranged (fun t => t.size = n) (s.divAt k v) :=
  (inRange_coeff sized below).bind fun old _ => (inRange_div old v).bind fun x _ =>
    ranged_store_size sized below x

private theorem ranged_sinCos (there : n < a.size) :
    Ranged (fun pair => pair.1.size = n + 1 ∧ pair.2.size = n + 1) (a.sinCos n) := by
  refine (inRange_coeff rfl (by omega)).bind fun a0 _ => ?_
  rw [Nat.add_comm]
  refine Ranged.up (I := fun k (pair : Series B × Series B) => pair.1.size = k ∧ pair.2.size = k)
    (fun k pair low high sizes => ?_) ⟨rfl, rfl⟩
  refine Ranged.bind (P := fun _ => True)
    (Ranged.foldlM (I := fun _ => True) (fun j member next _ => ?_) trivial) fun next _ => ?_
  · have below := List.mem_range'_1.1 member
    refine (inRange_coeff rfl (by omega)).bind fun x _ => ?_
    refine (inRange_coeff rfl (by omega)).bind fun c _ => ?_
    refine (inRange_mul _ c).bind fun t _ => (inRange_add _ t).bind fun sine _ => ?_
    refine (inRange_coeff rfl (by omega)).bind fun s _ => ?_
    exact (inRange_mul _ s).bind fun t _ => (inRange_sub _ t).bind fun cosine _ => trivial
  · show (pair.1.push next.1).size = k + 1 ∧ (pair.2.push next.2).size = k + 1
    simp [sizes.1, sizes.2]

end Series

section Forward

variable [CheckedBase B] {a b z : Series B} {k : Nat}

open Series

private theorem UnaryOp.inRange_recurrence (op : UnaryOp) (positive : 0 < k) (long : k < a.size)
    (known : k ≤ z.size) : InRange (op.recurrence a z k) := by
  cases op with
  | neg => exact (inRange_coeff rfl long).bind fun x _ => trivial
  | abs =>
    exact (inRange_coeff rfl (by omega)).bind fun x0 _ => (inRange_coeff rfl long).bind fun x _ =>
      inRange_mul _ x
  | exp =>
    refine Ranged.foldlM (fun j member sum _ => ?_) trivial
    have below := List.mem_range'_1.1 member
    refine (inRange_coeff rfl (by omega)).bind fun x _ => ?_
    refine (inRange_coeff rfl (by omega)).bind fun y _ => ?_
    exact (inRange_mul x y).bind fun t _ => inRange_add sum _
  | ln =>
    refine (inRange_coeff rfl long).bind fun x _ => ?_
    refine Ranged.bind (P := fun _ => True)
      (Ranged.foldlM (fun j member sum _ => ?_) trivial) fun sum _ => ?_
    · have below := List.mem_range'_1.1 member
      refine (inRange_coeff rfl (by omega)).bind fun y _ => ?_
      refine (inRange_coeff rfl (by omega)).bind fun x _ => ?_
      exact (inRange_mul y x).bind fun t _ => inRange_sub sum _
    · exact (inRange_coeff rfl (by omega)).bind fun x0 _ => inRange_div sum x0
  | sqrt =>
    refine (inRange_coeff rfl long).bind fun x _ => ?_
    refine Ranged.bind (P := fun _ => True)
      (Ranged.foldlM (fun j member sum _ => ?_) trivial) fun sum _ => ?_
    · have below := List.mem_range'_1.1 member
      refine (inRange_coeff rfl (by omega)).bind fun y _ => ?_
      refine (inRange_coeff rfl (by omega)).bind fun y' _ => ?_
      exact (inRange_mul y y').bind fun t _ => inRange_sub sum t
    · exact (inRange_coeff rfl (by omega)).bind fun z0 _ => inRange_div sum _
  | sin =>
    exact (ranged_sinCos long).bind fun pair sizes => inRange_coeff sizes.1 k.lt_succ_self
  | cos =>
    exact (ranged_sinCos long).bind fun pair sizes => inRange_coeff sizes.2 k.lt_succ_self

private theorem BinaryOp.inRange_recurrence (op : BinaryOp) (left : k < a.size) (right : k < b.size)
    (known : k ≤ z.size) : InRange (op.recurrence a b z k) := by
  cases op with
  | add =>
    exact (inRange_coeff rfl left).bind fun x _ => (inRange_coeff rfl right).bind fun y _ =>
      inRange_add x y
  | sub =>
    exact (inRange_coeff rfl left).bind fun x _ => (inRange_coeff rfl right).bind fun y _ =>
      inRange_sub x y
  | mul =>
    refine Ranged.foldlM (fun j member sum _ => ?_) trivial
    have below := List.mem_range.1 member
    refine (inRange_coeff rfl (by omega)).bind fun x _ => ?_
    refine (inRange_coeff rfl (by omega)).bind fun y _ => ?_
    exact (inRange_mul x y).bind fun t _ => inRange_add sum t
  | div =>
    refine (inRange_coeff rfl left).bind fun x _ => ?_
    refine Ranged.bind (P := fun _ => True)
      (Ranged.foldlM (fun j member sum _ => ?_) trivial) fun sum _ => ?_
    · have below := List.mem_range'_1.1 member
      refine (inRange_coeff rfl (by omega)).bind fun y _ => ?_
      refine (inRange_coeff rfl (by omega)).bind fun t _ => ?_
      exact (inRange_mul y t).bind fun t _ => inRange_sub sum t
    · exact (inRange_coeff rfl (by omega)).bind fun y0 _ => inRange_div sum y0

theorem UnaryOp.inRange_next (op : UnaryOp) (long : z.size < a.size) : InRange (op.next a z) := by
  unfold UnaryOp.next
  split
  · exact (inRange_coeff rfl (by omega)).bind fun x _ => trivial
  · exact op.inRange_recurrence (by omega) long (Nat.le_refl _)

theorem BinaryOp.inRange_next (op : BinaryOp) (left : z.size < a.size) (right : z.size < b.size) :
    InRange (op.next a b z) := by
  unfold BinaryOp.next
  split
  · refine (inRange_coeff rfl (by omega)).bind fun x _ => ?_
    exact (inRange_coeff rfl (by omega)).bind fun y _ => op.inRange_eval x y
  · exact op.inRange_recurrence left right (Nat.le_refl _)

end Forward

section Backward

variable [CheckedBase B] {a b z pz ps pc pa pb : Series B} {n k : Nat}

open Series

/-- Two series that have as many orders as is said. -/
def BothSized (n : Nat) (walk : Series B × Series B) : Prop :=
  walk.1.size = n ∧ walk.2.size = n

/-- Three such series. -/
def AllSized (n : Nat) (walk : Series B × Series B × Series B) : Prop :=
  walk.1.size = n ∧ BothSized n walk.2

private theorem mem_descending {q : Nat} : k ∈ descending q ↔ 1 ≤ k ∧ k ≤ q := by
  simp only [descending, List.mem_reverse, List.mem_range'_1]
  omega

private theorem order_below (long : a.size = n) (positive : 0 < n)
    (outer : k ∈ descending (a.size - 1)) :
    k < n := by
  have top := mem_descending.1 outer
  omega

private theorem orders_upTo {j : Nat} (top : k < n) (low : j ≤ k) : j < n ∧ k - j < n :=
  ⟨Nat.lt_of_le_of_lt low top, Nat.lt_of_le_of_lt (Nat.sub_le k j) top⟩

private theorem orders_below {j : Nat} (long : a.size = n) (positive : 0 < n)
    (outer : k ∈ descending (a.size - 1)) (inner : j ∈ List.range' 1 k) :
    k < n ∧ j < n ∧ k - j < n := by
  have top := order_below long positive outer
  have below := List.mem_range'_1.1 inner
  exact ⟨top, orders_upTo top (by omega)⟩

private theorem orders_between {j : Nat} (top : k < n) (inner : j ∈ List.range' 1 (k - 1)) :
    j < n ∧ k - j < n := by
  have below := List.mem_range'_1.1 inner
  exact orders_upTo top (by omega)

private theorem Series.ranged_sinCosPullback (long : a.size = n) (positive : 0 < n)
    (sines : ps.size = n) (cosines : pc.size = n) (own : pa.size = n) :
    Ranged (fun t => t.size = n) (Series.sinCosPullback a ps pc pa) := by
  have last : a.size - 1 + 1 = n := by omega
  refine (ranged_sinCos (by omega)).bind fun pair sizes => ?_
  rw [last] at sizes
  obtain ⟨sine, cosine⟩ := sizes
  refine Ranged.bind (P := AllSized n) (Ranged.foldlM (fun k outer walk sized => ?_)
    ⟨sines, cosines, own⟩) ?_
  · refine Ranged.foldlM (fun j inner walk sized => ?_) sized
    obtain ⟨ps, pc, pa⟩ := walk
    obtain ⟨sines, cosines, own⟩ : ps.size = n ∧ pc.size = n ∧ pa.size = n := sized
    obtain ⟨top, at_j, rest⟩ := orders_below long positive outer inner
    refine (inRange_coeff sines top).bind fun x _ => (inRange_coeff cosines top).bind fun y _ => ?_
    refine (inRange_coeff cosine rest).bind fun c _ => (inRange_mul _ c).bind fun t _ => ?_
    refine (ranged_addAt own at_j t).bind fun pa own => ?_
    refine (inRange_coeff sine rest).bind fun s _ => (inRange_mul _ s).bind fun t _ => ?_
    refine (ranged_subAt own at_j t).bind fun pa own => ?_
    refine (inRange_coeff long at_j).bind fun x _ => (inRange_mul _ x).bind fun t _ => ?_
    refine (ranged_addAt cosines rest t).bind fun pc cosines => ?_
    refine (inRange_coeff long at_j).bind fun x _ => (inRange_mul _ x).bind fun t _ => ?_
    exact (ranged_subAt sines rest t).bind fun ps sines => ⟨sines, cosines, own⟩
  · rintro ⟨ps, pc, pa⟩ ⟨sines, cosines, own⟩
    refine (inRange_coeff sines positive).bind fun x _ => ?_
    refine (inRange_coeff cosine positive).bind fun c _ => (inRange_mul _ c).bind fun t _ => ?_
    refine (ranged_addAt own positive t).bind fun pa own => ?_
    refine (inRange_coeff cosines positive).bind fun x _ => ?_
    refine (inRange_coeff sine positive).bind fun s _ => (inRange_mul _ s).bind fun t _ => ?_
    exact ranged_subAt own positive t

theorem UnaryOp.ranged_pullback (op : UnaryOp) (long : a.size = n) (positive : 0 < n)
    (known : z.size = n) (result : pz.size = n) (own : pa.size = n) :
    Ranged (fun t => t.size = n) (op.pullback a z pz pa) := by
  have zeros_ : (zeros (a.size - 1 + 1) : Series B).size = n := by
    rw [Series.zeros, Array.size_replicate]
    omega
  cases op with
  | neg =>
    refine Ranged.foldlM (fun k member pa own => ?_) own
    have top : k < n := by
      have := List.mem_range.1 member
      omega
    exact (inRange_coeff result top).bind fun x _ => ranged_subAt own top x
  | abs =>
    refine (inRange_coeff long positive).bind fun x _ => ?_
    refine Ranged.foldlM (fun k member pa own => ?_) own
    have top : k < n := by
      have := List.mem_range.1 member
      omega
    exact (inRange_coeff result top).bind fun x _ => (inRange_mul _ x).bind fun t _ =>
      ranged_addAt own top t
  | exp =>
    refine Ranged.bind (P := BothSized n) (Ranged.foldlM (fun k outer walk sized => ?_)
      ⟨result, own⟩) ?_
    · refine Ranged.foldlM (fun j inner walk sized => ?_) sized
      obtain ⟨pz, pa⟩ := walk
      obtain ⟨result, own⟩ : pz.size = n ∧ pa.size = n := sized
      obtain ⟨top, at_j, rest⟩ := orders_below long positive outer inner
      refine (inRange_coeff result top).bind fun w _ => ?_
      refine (inRange_coeff known rest).bind fun y _ => (inRange_mul _ y).bind fun t _ => ?_
      refine (ranged_addAt own at_j t).bind fun pa own => ?_
      refine (inRange_coeff long at_j).bind fun x _ => (inRange_mul _ x).bind fun t _ => ?_
      exact (ranged_addAt result rest t).bind fun pz result => ⟨result, own⟩
    · rintro ⟨pz, pa⟩ ⟨result, own⟩
      refine (inRange_coeff result positive).bind fun w _ => ?_
      exact (inRange_coeff known positive).bind fun y _ => (inRange_mul w y).bind fun t _ =>
        ranged_addAt own positive t
  | ln =>
    refine Ranged.bind (P := BothSized n) (Ranged.foldlM (fun k outer walk sized => ?_)
      ⟨result, own⟩) ?_
    · have top := order_below long positive outer
      obtain ⟨pz, pa⟩ := walk
      obtain ⟨result, own⟩ : pz.size = n ∧ pa.size = n := sized
      refine (inRange_coeff long positive).bind fun x0 _ => ?_
      refine (ranged_divAt result top x0).bind fun pz result => ?_
      refine (inRange_coeff result top).bind fun w _ => ?_
      refine (inRange_coeff known top).bind fun y _ => (inRange_mul w y).bind fun t _ => ?_
      refine (ranged_subAt own positive t).bind fun pa own => ?_
      refine (inRange_coeff result top).bind fun w _ => ?_
      refine (ranged_addAt own top w).bind fun pa own => ?_
      refine Ranged.foldlM (fun j inner walk sized => ?_) ⟨result, own⟩
      obtain ⟨pz, pa⟩ := walk
      obtain ⟨result, own⟩ : pz.size = n ∧ pa.size = n := sized
      obtain ⟨at_j, rest⟩ := orders_between top inner
      refine (inRange_coeff result top).bind fun w _ => ?_
      refine (inRange_coeff long rest).bind fun x _ => (inRange_mul _ x).bind fun t _ => ?_
      refine (ranged_subAt result at_j t).bind fun pz result => ?_
      refine (inRange_coeff known at_j).bind fun y _ => (inRange_mul _ y).bind fun t _ => ?_
      exact (ranged_subAt own rest t).bind fun pa own => ⟨result, own⟩
    · rintro ⟨pz, pa⟩ ⟨result, own⟩
      refine (inRange_coeff result positive).bind fun w _ => ?_
      exact (inRange_coeff long positive).bind fun x0 _ => (inRange_div w x0).bind fun t _ =>
        ranged_addAt own positive t
  | sqrt =>
    refine Ranged.bind (P := BothSized n) (Ranged.foldlM (fun k outer walk sized => ?_)
      ⟨result, own⟩) ?_
    · have top := order_below long positive outer
      obtain ⟨pz, pa⟩ := walk
      obtain ⟨result, own⟩ : pz.size = n ∧ pa.size = n := sized
      refine (inRange_coeff known positive).bind fun z0 _ => ?_
      refine (ranged_divAt result top z0).bind fun pz result => ?_
      refine (inRange_coeff result top).bind fun w _ => ?_
      refine (inRange_coeff known top).bind fun y _ => (inRange_mul w y).bind fun t _ => ?_
      refine (ranged_subAt result positive t).bind fun pz result => ?_
      refine (inRange_coeff result top).bind fun w _ => ?_
      refine (ranged_addAt own top _).bind fun pa own => ?_
      refine Ranged.bind (P := fun t => t.size = n) (Ranged.foldlM (fun j inner pz result => ?_)
        result) fun pz result => ⟨result, own⟩
      obtain ⟨at_j, rest⟩ := orders_between top inner
      refine (inRange_coeff result top).bind fun w _ => ?_
      exact (inRange_coeff known rest).bind fun y _ => (inRange_mul w y).bind fun t _ =>
        ranged_subAt result at_j t
    · rintro ⟨pz, pa⟩ ⟨result, own⟩
      refine (inRange_coeff result positive).bind fun w _ => ?_
      exact (inRange_coeff known positive).bind fun z0 _ => (inRange_div w z0).bind fun t _ =>
        ranged_addAt own positive _
  | sin => exact ranged_sinCosPullback long positive result zeros_ own
  | cos => exact ranged_sinCosPullback long positive zeros_ result own

theorem BinaryOp.ranged_pullback (op : BinaryOp) (left : a.size = n) (positive : 0 < n)
    (right : b.size = n) (known : z.size = n) (result : pz.size = n) (lefts : pa.size = n)
    (rights : pb.size = n) : Ranged (BothSized n) (op.pullback a b z pz pa pb) := by
  have last : a.size - 1 + 1 = n := left ▸ Nat.sub_add_cancel (left.symm ▸ positive)
  cases op with
  | add =>
    refine Ranged.foldlM (fun k member walk sized => ?_) ⟨lefts, rights⟩
    obtain ⟨pa, pb⟩ := walk
    obtain ⟨lefts, rights⟩ : pa.size = n ∧ pb.size = n := sized
    have top : k < n := last ▸ List.mem_range.1 member
    refine (inRange_coeff result top).bind fun w _ => ?_
    refine (ranged_addAt lefts top w).bind fun pa lefts => ?_
    refine (inRange_coeff result top).bind fun w _ => ?_
    exact (ranged_addAt rights top w).bind fun pb rights => ⟨lefts, rights⟩
  | sub =>
    refine Ranged.foldlM (fun k member walk sized => ?_) ⟨lefts, rights⟩
    obtain ⟨pa, pb⟩ := walk
    obtain ⟨lefts, rights⟩ : pa.size = n ∧ pb.size = n := sized
    have top : k < n := last ▸ List.mem_range.1 member
    refine (inRange_coeff result top).bind fun w _ => ?_
    refine (ranged_addAt lefts top w).bind fun pa lefts => ?_
    refine (inRange_coeff result top).bind fun w _ => ?_
    exact (ranged_subAt rights top w).bind fun pb rights => ⟨lefts, rights⟩
  | mul =>
    refine Ranged.foldlM (fun k member walk sized => ?_) ⟨lefts, rights⟩
    have top : k < n := last ▸ List.mem_range.1 member
    refine Ranged.foldlM (fun j inner walk sized => ?_) sized
    obtain ⟨pa, pb⟩ := walk
    obtain ⟨lefts, rights⟩ : pa.size = n ∧ pb.size = n := sized
    obtain ⟨at_j, rest⟩ := orders_upTo top (Nat.le_of_lt_succ (List.mem_range.1 inner))
    refine (inRange_coeff result top).bind fun w _ => ?_
    refine (inRange_coeff right rest).bind fun y _ => (inRange_mul w y).bind fun t _ => ?_
    refine (ranged_addAt lefts at_j t).bind fun pa lefts => ?_
    refine (inRange_coeff result top).bind fun w _ => ?_
    refine (inRange_coeff left at_j).bind fun x _ => (inRange_mul w x).bind fun t _ => ?_
    exact (ranged_addAt rights rest t).bind fun pb rights => ⟨lefts, rights⟩
  | div =>
    refine Ranged.bind (P := AllSized n) (Ranged.foldlM (fun k member walk sized => ?_)
      ⟨result, lefts, rights⟩) fun walk sized => sized.2
    have top : k < n := last ▸ List.mem_range.1 (List.mem_reverse.1 member)
    obtain ⟨pz, pa, pb⟩ := walk
    obtain ⟨result, lefts, rights⟩ : pz.size = n ∧ pa.size = n ∧ pb.size = n := sized
    refine (inRange_coeff right positive).bind fun y0 _ => ?_
    refine (ranged_divAt result top y0).bind fun pz result => ?_
    refine (inRange_coeff result top).bind fun w _ => ?_
    refine (ranged_addAt lefts top w).bind fun pa lefts => ?_
    refine Ranged.bind (P := BothSized n) (Ranged.foldlM (fun j inner walk sized => ?_)
      ⟨result, rights⟩) ?_
    · obtain ⟨pz, pb⟩ := walk
      obtain ⟨result, rights⟩ : pz.size = n ∧ pb.size = n := sized
      have low : j < k + 1 := Nat.add_comm 1 k ▸ (List.mem_range'_1.1 inner).2
      obtain ⟨at_j, rest⟩ := orders_upTo top (Nat.le_of_lt_succ low)
      refine (inRange_coeff result top).bind fun w _ => ?_
      refine (inRange_coeff right at_j).bind fun y _ => (inRange_mul w y).bind fun t _ => ?_
      refine (ranged_subAt result rest t).bind fun pz result => ?_
      refine (inRange_coeff result top).bind fun w _ => ?_
      refine (inRange_coeff known rest).bind fun t _ => (inRange_mul w t).bind fun t _ => ?_
      exact (ranged_subAt rights at_j t).bind fun pb rights => ⟨result, rights⟩
    · rintro ⟨pz, pb⟩ ⟨result, rights⟩
      refine (inRange_coeff result top).bind fun w _ => ?_
      refine (inRange_coeff known top).bind fun t _ => (inRange_mul w t).bind fun t _ => ?_
      exact (ranged_subAt rights positive t).bind fun pb rights => ⟨result, lefts, rights⟩

end Backward

end TaylorTape
