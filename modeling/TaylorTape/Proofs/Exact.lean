import TaylorTape.Proofs.Sweep
import Mathlib.Algebra.BigOperators.Fin
import Mathlib.Algebra.BigOperators.Intervals
import Mathlib.Algebra.CharZero.Defs
import Mathlib.Algebra.Field.Basic
import Mathlib.Tactic.Ring

/-!
Elements that keep the laws of arithmetic, and the forward recurrences over them.

Over a commutative ring of elements the folds of the recurrences are sums.  The coefficient that
follows the known ones is then a plain expression in the coefficients of the arguments and of the
result, for every operation and every order.
-/

set_option autoImplicit false
set_option relaxedAutoImplicit false

namespace TaylorTape

/-- Elements whose sums and products keep the laws of a commutative ring. -/
class RingScalar (F : Type) extends Scalar F, CommRing F

/-- The elements of an exact field of characteristic zero, with any elementary functions. -/
class ExactScalar (F : Type) extends RingScalar F, Field F, CharZero F where
  ofNat_eq : ∀ n : Nat, (Scalar.ofNat n : F) = (n : F)
  beq_iff : ∀ a b : F, Scalar.beq a b = true ↔ a = b

variable {F : Type} [ExactScalar F] in
theorem ratio_eq (j k : Nat) : (Scalar.ratio j k : F) = j / k := by
  unfold Scalar.ratio
  rw [ExactScalar.ofNat_eq, ExactScalar.ofNat_eq]

section Folds

variable {F : Type} [AddCommGroup F]

private theorem foldlM_add {f : F → Nat → Except Error F} {t : Nat → F} {a n : Nat} {s : F}
    (step : ∀ s j, a ≤ j → j < a + n → f s j = .ok (s + t j)) :
    (List.range' a n).foldlM f s = .ok (s + ∑ j ∈ Finset.Ico a (a + n), t j) := by
  refine foldlM_eq (fun i => s + ∑ j ∈ Finset.Ico a i, t j) (by simp) (fun i low high => ?_) rfl
  rw [step _ i low high, Finset.sum_Ico_succ_top low, add_assoc]

private theorem foldlM_sub {f : F → Nat → Except Error F} {t : Nat → F} {a n : Nat} {s : F}
    (step : ∀ s j, a ≤ j → j < a + n → f s j = .ok (s - t j)) :
    (List.range' a n).foldlM f s = .ok (s - ∑ j ∈ Finset.Ico a (a + n), t j) := by
  have sum := foldlM_add (f := f) (t := fun j => -t j) (a := a) (n := n) (s := s)
    fun s j low high => by rw [step s j low high, sub_eq_add_neg]
  rw [sum, Finset.sum_neg_distrib, sub_eq_add_neg]

end Folds

namespace BuiltIn

variable {F : Type} [Scalar F]

/-- The built-ins that take one element to itself. -/
def Passes : BuiltIn → Prop
  | .sum | .flip | .pack => True
  | .concat => False
  | .make n | .unpack n => n = 1

/-- Where there are no arrays a built-in takes one element only, and gives it back. -/
theorem step_scalar {b : BuiltIn} {x0 xk ys : List F} (done : b.step x0 xk = .ok ys) :
    b.Passes ∧ ∃ y, xk = [y] ∧ ys = [y] := by
  cases b with
  | sum | flip =>
    simp only [step] at done
    split at done
    · obtain rfl := Except.ok.inj done
      exact ⟨trivial, _, rfl, rfl⟩
    · cases done
  | concat =>
    simp only [step] at done
    split at done
    · cases done
    · cases done
  | pack =>
    obtain ⟨elems, read, done⟩ := bind_eq_ok.1 done
    obtain ⟨y, packed, last⟩ := bind_eq_ok.1 done
    obtain rfl := pure_eq_ok.1 last
    have same : xk = elems := by
      rw [← List.forall₂_eq_eq_eq]
      exact (mapM_eq_ok.1 read).imp fun a c => Except.ok.inj
    obtain rfl : elems = [y] := by
      rcases elems with _ | ⟨z, _ | ⟨w, rest⟩⟩
      · cases packed
      · exact congrArg (fun y => [y]) (Except.ok.inj packed)
      · cases packed
    exact ⟨trivial, y, same, rfl⟩
  | make n =>
    simp only [step] at done
    split at done
    · rename_i y
      rcases n with _ | _ | n
      · cases done
      · obtain rfl := Except.ok.inj done
        exact ⟨rfl, y, rfl, rfl⟩
      · cases done
    · cases done
  | unpack n =>
    simp only [step] at done
    split at done
    · rename_i y
      split at done
      · rename_i single
        obtain rfl : 1 = n := single
        obtain rfl := Except.ok.inj done
        exact ⟨rfl, y, rfl, rfl⟩
      · cases done
    · cases done

theorem step_of_passes {b : BuiltIn} (passes : b.Passes) (x y : F) :
    b.step [x] [y] = .ok [y] := by
  cases b with
  | sum | flip | pack => rfl
  | concat => cases passes
  | make n | unpack n =>
    obtain rfl : n = 1 := passes
    rfl

end BuiltIn

section Scalars

variable {F : Type} [RingScalar F]

@[simp] theorem add_scalar (a b : F) : Base.add a b = .ok (a + b) := rfl

@[simp] theorem sub_scalar (a b : F) : Base.sub a b = .ok (a - b) := rfl

@[simp] theorem mul_scalar (a b : F) : Base.mul a b = .ok (a * b) := rfl

@[simp] theorem div_scalar (a b : F) : Base.div a b = .ok (a / b) := rfl

@[simp] theorem scale_scalar (a s : F) : Base.scale a s = a * s := rfl

@[simp] theorem negate_scalar (a : F) : Base.negate a = -a := rfl

@[simp] theorem zero_scalar : (Base.zero : F) = 0 := rfl

@[simp] theorem map_scalar (f : F → F) (a : F) : Base.map f a = f a := rfl

@[simp] theorem eval_unary_scalar (op : UnaryOp) (a : F) : op.eval a = op.onElem a := rfl

/-- The coefficients of the sine and the cosine of a series. -/
def sinCosTerm (a : Nat → F) : Nat → F × F
  | 0 => (Scalar.sin (a 0), Scalar.cos (a 0))
  | k + 1 =>
    (∑ j : Fin (k + 1), a (j + 1) * Scalar.ratio (j + 1) (k + 1) * (sinCosTerm a (k - j)).2,
      -∑ j : Fin (k + 1), a (j + 1) * Scalar.ratio (j + 1) (k + 1) * (sinCosTerm a (k - j)).1)

theorem sinCosTerm_of_pos (a : Nat → F) {k : Nat} (positive : 0 < k) :
    sinCosTerm a k =
      (∑ j ∈ Finset.Ico 1 (k + 1), a j * Scalar.ratio j k * (sinCosTerm a (k - j)).2,
        -∑ j ∈ Finset.Ico 1 (k + 1), a j * Scalar.ratio j k * (sinCosTerm a (k - j)).1) := by
  obtain ⟨k, rfl⟩ := Nat.exists_eq_add_of_lt positive
  rw [Nat.zero_add, sinCosTerm]
  simp only [Finset.sum_Ico_eq_sum_range, Finset.sum_range, Nat.add_sub_cancel, Nat.add_comm 1,
    Nat.add_sub_add_right]

/-- The coefficient that follows the known ones of an operation of one argument. -/
def UnaryOp.coefficient (op : UnaryOp) (a z : Nat → F) (k : Nat) : F :=
  if k = 0 then op.onElem (a 0)
  else match op with
    | .neg => -a k
    | .abs => Scalar.sign (a 0) * a k
    | .exp => ∑ j ∈ Finset.Ico 1 (k + 1), a j * z (k - j) * Scalar.ratio j k
    | .ln => (a k - ∑ j ∈ Finset.Ico 1 k, z j * a (k - j) * Scalar.ratio j k) / a 0
    | .sqrt => (a k - ∑ j ∈ Finset.Ico 1 k, z j * z (k - j)) / (z 0 * Scalar.ratio 2 1)
    | .sin => (sinCosTerm a k).1
    | .cos => (sinCosTerm a k).2

theorem UnaryOp.coefficient_sin (a z : Nat → F) (k : Nat) :
    UnaryOp.sin.coefficient a z k = (sinCosTerm a k).1 := by
  cases k with
  | zero => simp [coefficient, sinCosTerm, onElem]
  | succ k => simp [coefficient]

theorem UnaryOp.coefficient_cos (a z : Nat → F) (k : Nat) :
    UnaryOp.cos.coefficient a z k = (sinCosTerm a k).2 := by
  cases k with
  | zero => simp [coefficient, sinCosTerm, onElem]
  | succ k => simp [coefficient]

/-- The coefficient that follows the known ones of an operation of two arguments. -/
def BinaryOp.coefficient (op : BinaryOp) (a b z : Nat → F) (k : Nat) : F :=
  match op with
  | .add => a k + b k
  | .sub => a k - b k
  | .mul => ∑ j ∈ Finset.range (k + 1), a j * b (k - j)
  | .div => (a k - ∑ j ∈ Finset.Ico 1 (k + 1), b j * z (k - j)) / b 0

private theorem sinCos_next (a : Nat → F) {n i : Nat} (positive : 0 < i) (room : i < n) :
    ((List.range' 1 i).foldlM
      (fun (next : F × F) j => do
        let weighted := Base.scale (← (Series.of a n).coeff j) (Scalar.ratio j i)
        let sine ← Base.add next.1
          (← Base.mul weighted (← (Series.of (fun j => (sinCosTerm a j).2) i).coeff (i - j)))
        let cosine ← Base.sub next.2
          (← Base.mul weighted (← (Series.of (fun j => (sinCosTerm a j).1) i).coeff (i - j)))
        return (sine, cosine))
      (Base.zero, Base.zero) : Except Error (F × F)) = .ok (sinCosTerm a i) := by
  refine foldlM_eq (fun m =>
    (∑ j ∈ Finset.Ico 1 m, a j * Scalar.ratio j i * (sinCosTerm a (i - j)).2,
      -∑ j ∈ Finset.Ico 1 m, a j * Scalar.ratio j i * (sinCosTerm a (i - j)).1))
    (by simp) (fun m low high => ?_) ?_
  · rw [Series.coeff_of (by omega), ok_bind, Series.coeff_of (by omega), ok_bind,
      Series.coeff_of (by omega), Finset.sum_Ico_succ_top low, Finset.sum_Ico_succ_top low,
      neg_add, ← sub_eq_add_neg]
    rfl
  · rw [sinCosTerm_of_pos a positive, Nat.add_comm i 1]

/-- The series of the sine and the cosine are made of their terms. -/
theorem sinCos_of (a : Nat → F) {n k : Nat} (room : k < n) :
    (Series.of a n).sinCos k =
      .ok (.of (fun j => (sinCosTerm a j).1) (k + 1), .of (fun j => (sinCosTerm a j).2) (k + 1)) := by
  have start : ((#[UnaryOp.sin.eval (a 0)], #[UnaryOp.cos.eval (a 0)]) : Series F × Series F) =
      (.of (fun j => (sinCosTerm a j).1) 1, .of (fun j => (sinCosTerm a j).2) 1) := by
    simp [Series.of, sinCosTerm, UnaryOp.onElem]
  unfold Series.sinCos
  rw [Series.coeff_of (by omega), ok_bind, start]
  refine foldlM_eq (fun i =>
    (.of (fun j => (sinCosTerm a j).1) i, .of (fun j => (sinCosTerm a j).2) i)) rfl
    (fun i low high => ?_) (by rw [Nat.add_comm])
  rw [Series.of_succ, Series.of_succ]
  exact bind_eq_ok.2 ⟨_, sinCos_next a (by omega) (by omega), rfl⟩

/-- The rule of an operation of one argument, over series whose coefficients are given. -/
theorem next_unary_of (op : UnaryOp) (a z : Nat → F) (k : Nat) :
    op.next (.of a (k + 1)) (.of z k) = .ok (op.coefficient a z k) := by
  unfold UnaryOp.next UnaryOp.coefficient
  rw [Series.size_of]
  by_cases zero : k = 0
  · rw [if_pos zero, if_pos zero, Series.coeff_of (Nat.succ_pos k)]
    rfl
  · rw [if_neg zero, if_neg zero]
    unfold UnaryOp.recurrence
    have fits : k < k + 1 := Nat.lt_succ_self k
    have first : (Series.of a (k + 1)).coeff 0 = .ok (a 0) := Series.coeff_of (Nat.succ_pos k)
    have last : (Series.of a (k + 1)).coeff k = .ok (a k) := Series.coeff_of fits
    cases op with
    | neg =>
      show ((Series.of a (k + 1)).coeff k >>= fun x => pure (Base.negate x)) = _
      rw [last]
      rfl
    | abs =>
      simp only [first, last, ok_bind]
      rfl
    | exp =>
      refine (foldlM_add (t := fun j => a j * z (k - j) * Scalar.ratio j k)
        fun s j low high => ?_).trans ?_
      · rw [Series.coeff_of (by omega), ok_bind, Series.coeff_of (by omega)]
        rfl
      · rw [zero_scalar, zero_add, Nat.add_comm 1 k]
    | ln =>
      refine bind_eq_ok.2 ⟨_, last, bind_eq_ok.2 ⟨_, (foldlM_sub
        (t := fun j => z j * a (k - j) * Scalar.ratio j k) fun s j low high => ?_), ?_⟩⟩
      · rw [Series.coeff_of (by omega), ok_bind, Series.coeff_of (by omega)]
        rfl
      · rw [first, Nat.add_sub_cancel' (Nat.one_le_iff_ne_zero.2 zero)]
        rfl
    | sqrt =>
      have root : (Series.of z k).coeff 0 = .ok (z 0) :=
        Series.coeff_of (Nat.pos_of_ne_zero zero)
      refine bind_eq_ok.2 ⟨_, last, bind_eq_ok.2 ⟨_, (foldlM_sub
        (t := fun j => z j * z (k - j)) fun s j low high => ?_), ?_⟩⟩
      · rw [Series.coeff_of (by omega), ok_bind, Series.coeff_of (by omega)]
        rfl
      · rw [root, Nat.add_sub_cancel' (Nat.one_le_iff_ne_zero.2 zero)]
        rfl
    | sin =>
      simp only [sinCos_of a fits, ok_bind, Series.coeff_of fits]
    | cos =>
      simp only [sinCos_of a fits, ok_bind, Series.coeff_of fits]

/-- The rule of an operation of two arguments, over series whose coefficients are given. -/
theorem next_binary_of (op : BinaryOp) (a b z : Nat → F) (k : Nat) :
    op.next (.of a (k + 1)) (.of b (k + 1)) (.of z k) = .ok (op.coefficient a b z k) := by
  have fits : k < k + 1 := Nat.lt_succ_self k
  have left : (Series.of a (k + 1)).coeff k = .ok (a k) := Series.coeff_of fits
  have right : (Series.of b (k + 1)).coeff k = .ok (b k) := Series.coeff_of fits
  by_cases zero : k = 0
  · subst zero
    unfold BinaryOp.next BinaryOp.coefficient
    rw [if_pos (Series.size_of z 0), left, ok_bind, right, ok_bind]
    cases op with
    | add | sub => rfl
    | mul => simp [BinaryOp.eval]
    | div => simp [BinaryOp.eval]
  · unfold BinaryOp.next
    rw [Series.size_of, if_neg zero]
    cases op with
    | add | sub =>
      simp only [BinaryOp.recurrence, left, right, ok_bind]
      rfl
    | mul =>
      show (List.range (k + 1)).foldlM _ _ = _
      rw [List.range_eq_range']
      refine (foldlM_add (t := fun j => a j * b (k - j)) fun s j low high => ?_).trans ?_
      · rw [Series.coeff_of (by omega), ok_bind, Series.coeff_of (by omega)]
        rfl
      · rw [zero_scalar, zero_add, Nat.zero_add, ← Finset.range_eq_Ico]
        rfl
    | div =>
      have first : (Series.of b (k + 1)).coeff 0 = .ok (b 0) := Series.coeff_of (Nat.succ_pos k)
      refine bind_eq_ok.2 ⟨_, left, bind_eq_ok.2 ⟨_, (foldlM_sub
        (t := fun j => b j * z (k - j)) fun s j low high => ?_), ?_⟩⟩
      · rw [Series.coeff_of (by omega), ok_bind, Series.coeff_of (by omega)]
        rfl
      · rw [first, Nat.add_comm 1 k]
        rfl

/-- A coefficient depends on the argument up to its order, and on the result below it. -/
theorem UnaryOp.coefficient_congr (op : UnaryOp) {a a' z z' : Nat → F} {k : Nat}
    (args : ∀ j ≤ k, a j = a' j) (own : ∀ j < k, z j = z' j) :
    op.coefficient a z k = op.coefficient a' z' k := by
  have next := next_unary_of op a z k
  rw [Series.of_congr fun j low => args j (Nat.le_of_lt_succ low), Series.of_congr own,
    next_unary_of] at next
  exact (Except.ok.inj next).symm

theorem BinaryOp.coefficient_congr (op : BinaryOp) {a a' b b' z z' : Nat → F} {k : Nat}
    (left : ∀ j ≤ k, a j = a' j) (right : ∀ j ≤ k, b j = b' j) (own : ∀ j < k, z j = z' j) :
    op.coefficient a b z k = op.coefficient a' b' z' k := by
  have next := next_binary_of op a b z k
  rw [Series.of_congr fun j low => left j (Nat.le_of_lt_succ low),
    Series.of_congr fun j low => right j (Nat.le_of_lt_succ low), Series.of_congr own,
    next_binary_of] at next
  exact (Except.ok.inj next).symm

end Scalars

namespace Tape

variable {F : Type} {tape : Tape F} {q : Nat} {seed : List F} {c : Nat → Nat → F} {i : Nat}

section Entries

variable [Scalar F]

/-- A call of a built-in takes one element, and gives it back. -/
theorem Holds.call {place n : Nat} {args : List Nat} {r : Registered F}
    (holds : tape.Holds q seed c i) (found : tape.entry i = .ok (.call place args n))
    (there : tape.atomics[place]? = some r) (builtIn : r.IsBuiltIn) :
    ∃ (b : BuiltIn) (a : Nat), r.op = b.atomic ∧ b.Passes ∧ args = [a] ∧ n = 1 ∧ c i q = c a q := by
  obtain ⟨b, op, stepped⟩ := holds.step found there builtIn
  obtain ⟨passes, y, read, same⟩ := BuiltIn.step_scalar stepped
  obtain ⟨a, rfl, value⟩ := List.map_eq_singleton_iff.1 read
  have one : n = 1 := by simpa using congrArg List.length same
  subst one
  exact ⟨b, a, op, passes, rfl, rfl, (List.head_eq_of_cons_eq same).trans value.symm⟩

end Entries

section Elements

variable [RingScalar F]

theorem Holds.unary {op : UnaryOp} {a : Nat} (holds : tape.Holds q seed c i)
    (found : tape.entry i = .ok (.unary op a)) : c i q = op.coefficient (c a) (c i) q :=
  Except.ok.inj ((holds.next_unary found).symm.trans (next_unary_of op (c a) (c i) q))

theorem Holds.binary {op : BinaryOp} {a b : Nat} (holds : tape.Holds q seed c i)
    (found : tape.entry i = .ok (.binary op a b)) :
    c i q = op.coefficient (c a) (c b) (c i) q :=
  Except.ok.inj ((holds.next_binary found).symm.trans (next_binary_of op (c a) (c b) (c i) q))

end Elements

end Tape

end TaylorTape
