import TaylorTape.Proofs.Exact
import TaylorTape.Base

/-!
Zeros among the elements.

A reverse sweep leaves out what is zero, whatever its sign.  That sums of zeros are zeros again
holds of the machine numbers as it holds of a field, so it holds of both kinds of base: what is
added up, collapsed onto a shape or spread over one stays zero.
-/

set_option autoImplicit false
set_option relaxedAutoImplicit false

namespace TaylorTape

/-- Zero is zero, and so is a sum of zeros. -/
class Scalar.ZerosAdd (F : Type) [Scalar F] : Prop where
  zero : Scalar.beq (0 : F) 0 = true
  add : ∀ x y : F, Scalar.beq x 0 = true → Scalar.beq y 0 = true → Scalar.beq (x + y) 0 = true

instance {F : Type} [ExactScalar F] : Scalar.ZerosAdd F where
  zero := (ExactScalar.beq_iff _ _).2 rfl
  add x y left right := by
    rw [(ExactScalar.beq_iff _ _).1 left, (ExactScalar.beq_iff _ _).1 right, ExactScalar.beq_iff]
    exact add_zero 0

section Machine

open Float.Model

private theorem exists_zero_of_beq {u : UnpackedFloat} {s : UnpackedFloat.Sign}
    (equal : u.beq (.zero s) = true) : ∃ t, u = .zero t := by
  cases u with
  | zero t => exact ⟨t, rfl⟩
  | notANumber => cases equal
  | infinity t => cases t <;> cases equal
  | finite t m e positive => cases t <;> cases equal

private theorem exists_zero_of_add (format : Format) {u v : UnpackedFloat} {s : UnpackedFloat.Sign}
    (left : u.beq (.zero s) = true) (right : v.beq (.zero s) = true) :
    ∃ t, UnpackedFloat.add format u v = .zero t := by
  obtain ⟨r, rfl⟩ := exists_zero_of_beq left
  obtain ⟨t, rfl⟩ := exists_zero_of_beq right
  cases r <;> cases t <;> exact ⟨_, rfl⟩

instance : Scalar.ZerosAdd Float where
  zero := by decide +kernel
  add x y left right := by
    obtain ⟨s, zero⟩ : ∃ s, (0 : Float).toModel.unpack = .zero s :=
      exists_zero_of_beq (s := .positive) (by decide +kernel)
    have left : x.toModel.unpack.beq (0 : Float).toModel.unpack = true := left
    have right : y.toModel.unpack.beq (0 : Float).toModel.unpack = true := right
    obtain ⟨t, sum⟩ := exists_zero_of_add .binary64 (zero ▸ left) (zero ▸ right)
    show (Float.Model.pack (UnpackedFloat.add .binary64 x.toModel.unpack
      y.toModel.unpack)).unpack.beq (0 : Float).toModel.unpack = true
    rw [sum]
    cases t <;> decide +kernel

instance : Scalar.ZerosAdd Float32 where
  zero := by decide +kernel
  add x y left right := by
    obtain ⟨s, zero⟩ : ∃ s, (0 : Float32).toModel.unpack = .zero s :=
      exists_zero_of_beq (s := .positive) (by decide +kernel)
    have left : x.toModel.unpack.beq (0 : Float32).toModel.unpack = true := left
    have right : y.toModel.unpack.beq (0 : Float32).toModel.unpack = true := right
    obtain ⟨t, sum⟩ := exists_zero_of_add .binary32 (zero ▸ left) (zero ▸ right)
    show (Float32.Model.pack (UnpackedFloat.add .binary32 x.toModel.unpack
      y.toModel.unpack)).unpack.beq (0 : Float32).toModel.unpack = true
    rw [sum]
    cases t <;> decide +kernel

end Machine

theorem isAllZero_iff {B F : Type} [Scalar F] [Base B F] {u : B} :
    Base.isAllZero u = true ↔ ∀ x ∈ Base.toList u, Scalar.beq x 0 = true :=
  List.all_eq_true

/-- A base whose zero is zero. -/
class LawfulZero (B : Type) {F : Type} [Scalar F] [Base B F] : Prop where
  zero : Base.isAllZero (Base.zero : B) = true

/-- A base over which sums of zeros stay zero, in whatever shape. -/
class ZeroBase (B : Type) {F : Type} [Scalar F] [Base B F] : Prop extends LawfulZero B where
  add : ∀ u v w : B, Base.isAllZero u = true → Base.isAllZero v = true → Base.add u v = .ok w →
    Base.isAllZero w = true
  reduceLike : ∀ u shape : B, Base.isAllZero u = true →
    Base.isAllZero (Base.reduceLike u shape) = true
  broadcastLike : ∀ u shape v : B, Base.isAllZero u = true → Base.broadcastLike u shape = .ok v →
    Base.isAllZero v = true

namespace Value

variable {F : Type} {u v w : Value F}

/-- What is combined element by element has elements made of those of both values. -/
theorem exists_of_mem_zipWith {context : String} {f : F → F → F}
    (done : zipWith context f u v = .ok w) {z : F} (member : z ∈ w.toList) :
    ∃ x ∈ u.toList, ∃ y ∈ v.toList, z = f x y := by
  cases u with
  | scalar x =>
    cases v with
    | scalar y =>
      obtain rfl := Except.ok.inj done
      exact ⟨x, List.mem_singleton_self x, y, List.mem_singleton_self y,
        List.mem_singleton.1 member⟩
    | array ys =>
      obtain rfl := Except.ok.inj done
      obtain ⟨y, inside, rfl⟩ := List.mem_map.1 member
      exact ⟨x, List.mem_singleton_self x, y, inside, rfl⟩
  | array xs =>
    cases v with
    | scalar y =>
      obtain rfl := Except.ok.inj done
      obtain ⟨x, inside, rfl⟩ := List.mem_map.1 member
      exact ⟨x, inside, y, List.mem_singleton_self y, rfl⟩
    | array ys =>
      rw [zipWith] at done
      split at done
      · obtain rfl := Except.ok.inj done
        have member : z ∈ List.zipWith f xs ys := member
        rw [← List.map_uncurry_zip_eq_zipWith] at member
        obtain ⟨p, inside, rfl⟩ := List.mem_map.1 member
        obtain ⟨first, second⟩ := List.of_mem_zip inside
        exact ⟨p.1, first, p.2, second, rfl⟩
      · cases done

private theorem mem_of_broadcastLike (done : u.broadcastLike v = .ok w) {z : F}
    (member : z ∈ w.toList) :
    z ∈ u.toList := by
  cases v with
  | scalar y =>
    cases u with
    | scalar x =>
      obtain rfl := Except.ok.inj done
      exact member
    | array xs => cases done
  | array ys =>
    cases u with
    | scalar x =>
      obtain rfl := Except.ok.inj done
      exact List.mem_singleton.2 (List.eq_of_mem_replicate member)
    | array xs =>
      simp only [broadcastLike, broadcastTo] at done
      split at done
      · obtain rfl := Except.ok.inj done
        exact member
      · cases done

end Value

section Bases

variable {F : Type} [Scalar F] [Scalar.ZerosAdd F]

private theorem beq_total {xs : List F} (zeros : ∀ x ∈ xs, Scalar.beq x 0 = true) :
    Scalar.beq (Scalar.total xs) 0 = true := by
  have onward (a : F) (start : Scalar.beq a 0 = true) :
      Scalar.beq (xs.foldl (· + ·) a) 0 = true := by
    induction xs generalizing a with
    | nil => exact start
    | cons x xs ih =>
      obtain ⟨first, rest⟩ := List.forall_mem_cons.1 zeros
      exact ih rest (a + x) (Scalar.ZerosAdd.add a x start first)
  exact onward 0 Scalar.ZerosAdd.zero

instance : ZeroBase F where
  zero := isAllZero_iff.2 (List.forall_mem_singleton.2 Scalar.ZerosAdd.zero)
  add u v w left right sum := by
    obtain rfl : u + v = w := Except.ok.inj sum
    have first := isAllZero_iff.1 left u (List.mem_singleton_self u)
    have second := isAllZero_iff.1 right v (List.mem_singleton_self v)
    exact isAllZero_iff.2 (List.forall_mem_singleton.2 (Scalar.ZerosAdd.add u v first second))
  reduceLike _ _ zero := zero
  broadcastLike u _ v zero spread := by
    obtain rfl : u = v := Except.ok.inj spread
    exact zero

instance : ZeroBase (Value F) where
  zero := isAllZero_iff.2 (List.forall_mem_singleton.2 Scalar.ZerosAdd.zero)
  add u v w left right sum := by
    refine isAllZero_iff.2 fun z member => ?_
    obtain ⟨x, inside, y, inside', rfl⟩ := Value.exists_of_mem_zipWith sum member
    exact Scalar.ZerosAdd.add x y (isAllZero_iff.1 left x inside) (isAllZero_iff.1 right y inside')
  reduceLike u shape zero := by
    cases u with
    | scalar x => cases shape <;> exact zero
    | array xs =>
      cases shape with
      | scalar y =>
        exact isAllZero_iff.2 (List.forall_mem_singleton.2 (beq_total (isAllZero_iff.1 zero)))
      | array ys => exact zero
  broadcastLike u shape v zero spread :=
    isAllZero_iff.2 fun z member =>
      isAllZero_iff.1 zero z (Value.mem_of_broadcastLike spread member)

end Bases

end TaylorTape
