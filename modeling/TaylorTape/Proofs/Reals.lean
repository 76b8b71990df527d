import TaylorTape.Proofs.Exact
import Mathlib.Analysis.SpecialFunctions.Log.Basic
import Mathlib.Analysis.SpecialFunctions.Trigonometric.Basic
import Mathlib.Analysis.SpecialFunctions.Sqrt

/-!
The real numbers as elements.
-/

set_option autoImplicit false
set_option relaxedAutoImplicit false

namespace TaylorTape

/-- The real numbers with the functions of calculus. -/
noncomputable instance : ExactScalar ℝ where
  __ := (inferInstance : Field ℝ)
  cast_injective := Nat.cast_injective
  exp := Real.exp
  ln := Real.log
  sqrt := Real.sqrt
  sin := Real.sin
  cos := Real.cos
  abs x := |x|
  lt a b := open Classical in decide (a < b)
  le a b := open Classical in decide (a ≤ b)
  beq a b := open Classical in decide (a = b)
  ofNat n := n
  ofNat_eq _ := rfl
  beq_iff _ _ := decide_eq_true_iff

end TaylorTape
