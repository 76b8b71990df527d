import TaylorTape.Proofs.Exact
import Mathlib.Algebra.DualNumber

/-!
Differentials by dual numbers.

The differential of a computation on elements is the infinitesimal part of the same computation on
dual numbers.  Arithmetic differentiates by the laws of the ring, and at order zero each elementary
function has the derivative that calculus gives it; the absolute value has the sign.  A tape over
elements has the same entries over dual numbers, with parameters that do not vary, and whatever
orders can be computed over elements can be computed there.
-/

set_option autoImplicit false
set_option relaxedAutoImplicit false

namespace TaylorTape

open TrivSqZeroExt (inl)

section Duals

variable {F : Type} [RingScalar F]

instance : RingScalar (DualNumber F) where
  __ := (inferInstance : CommRing (DualNumber F))
  div x y := (x.fst / y.fst, (x.snd * y.fst - x.fst * y.snd) / (y.fst * y.fst))
  exp x := (Scalar.exp x.fst, Scalar.exp x.fst * x.snd)
  ln x := (Scalar.ln x.fst, x.snd / x.fst)
  sqrt x := (Scalar.sqrt x.fst, x.snd / (Scalar.sqrt x.fst * Scalar.ofNat 2))
  sin x := (Scalar.sin x.fst, Scalar.cos x.fst * x.snd)
  cos x := (Scalar.cos x.fst, -(Scalar.sin x.fst * x.snd))
  abs x := (Scalar.abs x.fst, Scalar.sign x.fst * x.snd)
  lt x y := Scalar.lt x.fst y.fst
  le x y := Scalar.le x.fst y.fst
  beq x y := Scalar.beq x.fst y.fst
  ofNat n := (Scalar.ofNat n, 0)

namespace Duals

/-- An element with a perturbation beside it. -/
def perturb (x dx : F) : DualNumber F :=
  (x, dx)

omit [RingScalar F] in
@[simp] theorem fst_perturb (x dx : F) : (perturb x dx).fst = x := rfl

omit [RingScalar F] in
@[simp] theorem snd_perturb (x dx : F) : (perturb x dx).snd = dx := rfl

@[simp] theorem fst_div (x y : DualNumber F) : (x / y).fst = x.fst / y.fst := rfl

@[simp] theorem snd_div (x y : DualNumber F) :
    (x / y).snd = (x.snd * y.fst - x.fst * y.snd) / (y.fst * y.fst) := rfl

private theorem fst_sum (s : Finset Nat) (f : Nat → DualNumber F) :
    (∑ j ∈ s, f j).fst = ∑ j ∈ s, (f j).fst :=
  map_sum (TrivSqZeroExt.fstHom F F F) f s

theorem snd_sum (s : Finset Nat) (f : Nat → DualNumber F) :
    (∑ j ∈ s, f j).snd = ∑ j ∈ s, (f j).snd :=
  map_sum (TrivSqZeroExt.sndHom F F) f s

@[simp] theorem fst_ratio (j k : Nat) : (Scalar.ratio j k : DualNumber F).fst = Scalar.ratio j k :=
  rfl

@[simp] theorem fst_onElem (op : UnaryOp) (x : DualNumber F) :
    (op.onElem x).fst = op.onElem x.fst := by
  cases op with
  | neg => exact TrivSqZeroExt.fst_neg x
  | exp | ln | sqrt | sin | cos | abs => rfl

theorem sign_eq (x : DualNumber F) : Scalar.sign x = inl (Scalar.sign x.fst) := by
  have above : Scalar.lt 0 x = Scalar.lt 0 x.fst := rfl
  have below : Scalar.lt x 0 = Scalar.lt x.fst 0 := rfl
  unfold Scalar.sign
  rw [above, below]
  split
  · rfl
  · split
    · exact (TrivSqZeroExt.inl_neg F (1 : F)).symm
    · rfl

@[simp] theorem fst_sinCosTerm (a : Nat → DualNumber F) (k : Nat) :
    (sinCosTerm a k).1.fst = (sinCosTerm (fun j => (a j).fst) k).1 ∧
      (sinCosTerm a k).2.fst = (sinCosTerm (fun j => (a j).fst) k).2 := by
  induction k using Nat.strong_induction_on with
  | _ k ih =>
    by_cases zero : k = 0
    · subst zero
      simp only [sinCosTerm]
      exact ⟨rfl, rfl⟩
    · have positive := Nat.pos_of_ne_zero zero
      have lower : ∀ j ∈ Finset.Ico 1 (k + 1), k - j < k := fun j member => by
        have := Finset.mem_Ico.1 member
        omega
      rw [sinCosTerm_of_pos a positive, sinCosTerm_of_pos _ positive]
      constructor
      · rw [fst_sum]
        refine Finset.sum_congr rfl fun j member => ?_
        simp [(ih (k - j) (lower j member)).2]
      · rw [TrivSqZeroExt.fst_neg, fst_sum]
        refine congrArg _ (Finset.sum_congr rfl fun j member => ?_)
        simp [(ih (k - j) (lower j member)).1]

/-- The real part of a recurrence is the recurrence of the real parts. -/
theorem fst_unary (op : UnaryOp) (a z : Nat → DualNumber F) (k : Nat) :
    (op.coefficient a z k).fst = op.coefficient (fun j => (a j).fst) (fun j => (z j).fst) k := by
  unfold UnaryOp.coefficient
  by_cases zero : k = 0
  · rw [if_pos zero, if_pos zero, fst_onElem]
  · rw [if_neg zero, if_neg zero]
    cases op with
    | neg => exact TrivSqZeroExt.fst_neg (a k)
    | abs => simp [sign_eq]
    | exp => simp [fst_sum]
    | ln => simp [fst_sum]
    | sqrt => simp [fst_sum]
    | sin => exact (fst_sinCosTerm a k).1
    | cos => exact (fst_sinCosTerm a k).2

theorem fst_binary (op : BinaryOp) (a b z : Nat → DualNumber F) (k : Nat) :
    (op.coefficient a b z k).fst =
      op.coefficient (fun j => (a j).fst) (fun j => (b j).fst) (fun j => (z j).fst) k := by
  cases op with
  | add | sub => simp [BinaryOp.coefficient]
  | mul | div => simp [BinaryOp.coefficient, fst_sum]

end Duals

end Duals

end TaylorTape
