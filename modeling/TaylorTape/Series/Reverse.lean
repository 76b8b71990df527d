import TaylorTape.Series.Forward

/-!
The recurrences of `Series.Forward` walked backwards.

Given the partials of an objective with respect to the coefficients of a result, each rule adds to
the partials of the arguments what the result passes on to them.  The orders are taken from the
highest down, because a coefficient also feeds the higher ones of its own series; what it owes to
them is gathered in the result's partials before its own turn comes.
-/

set_option autoImplicit false
set_option relaxedAutoImplicit false

namespace TaylorTape

variable {B F : Type} [Scalar F] [Base B F]

/-- What the sine and cosine pass back, from the partials `ps` and `pc` of the two series. -/
def Series.sinCosPullback (a ps pc pa : Series B) : Except Error (Series B) := do
  let q := a.size - 1
  let pair ← a.sinCos q
  let walk ← (Series.descending q).foldlM
    (fun (walk : Series B × Series B × Series B) k =>
      (List.range' 1 k).foldlM
        (fun (walk : Series B × Series B × Series B) j => do
          let (ps, pc, pa) := walk
          let weight : F := Scalar.ratio j k
          let ws := Base.scale (← ps.coeff k) weight
          let wc := Base.scale (← pc.coeff k) weight
          let pa ← pa.addAt j (← Base.mul ws (← pair.2.coeff (k - j)))
          let pa ← pa.subAt j (← Base.mul wc (← pair.1.coeff (k - j)))
          let pc ← pc.addAt (k - j) (← Base.mul ws (← a.coeff j))
          let ps ← ps.subAt (k - j) (← Base.mul wc (← a.coeff j))
          return (ps, pc, pa))
        walk)
    (ps, pc, pa)
  let (ps, pc, pa) := walk
  let pa ← pa.addAt 0 (← Base.mul (← ps.coeff 0) (← pair.2.coeff 0))
  pa.subAt 0 (← Base.mul (← pc.coeff 0) (← pair.1.coeff 0))

/-- The partials of the argument after those of the result have been passed back. -/
def UnaryOp.pullback (op : UnaryOp) (a z pz pa : Series B) : Except Error (Series B) :=
  let q := a.size - 1
  match op with
  | .neg =>
    (List.range (q + 1)).foldlM (fun pa k => do pa.subAt k (← pz.coeff k)) pa
  | .abs => do
    let sign := Base.map Scalar.sign (← a.coeff 0)
    (List.range (q + 1)).foldlM
      (fun pa k => do pa.addAt k (← Base.mul sign (← pz.coeff k))) pa
  | .exp => do
    let (pz, pa) ← (Series.descending q).foldlM
      (fun (walk : Series B × Series B) k =>
        (List.range' 1 k).foldlM
          (fun (walk : Series B × Series B) j => do
            let (pz, pa) := walk
            let w := Base.scale (← pz.coeff k) (Scalar.ratio j k)
            let pa ← pa.addAt j (← Base.mul w (← z.coeff (k - j)))
            let pz ← pz.addAt (k - j) (← Base.mul w (← a.coeff j))
            return (pz, pa))
          walk)
      (pz, pa)
    pa.addAt 0 (← Base.mul (← pz.coeff 0) (← z.coeff 0))
  | .ln => do
    let (pz, pa) ← (Series.descending q).foldlM
      (fun (walk : Series B × Series B) k => do
        let (pz, pa) := walk
        let pz ← pz.divAt k (← a.coeff 0)
        let pa ← pa.subAt 0 (← Base.mul (← pz.coeff k) (← z.coeff k))
        let pa ← pa.addAt k (← pz.coeff k)
        (List.range' 1 (k - 1)).foldlM
          (fun (walk : Series B × Series B) j => do
            let (pz, pa) := walk
            let w := Base.scale (← pz.coeff k) (Scalar.ratio j k)
            let pz ← pz.subAt j (← Base.mul w (← a.coeff (k - j)))
            let pa ← pa.subAt (k - j) (← Base.mul w (← z.coeff j))
            return (pz, pa))
          (pz, pa))
      (pz, pa)
    pa.addAt 0 (← Base.div (← pz.coeff 0) (← a.coeff 0))
  | .sqrt => do
    let half : F := Scalar.ratio 1 2
    let (pz, pa) ← (Series.descending q).foldlM
      (fun (walk : Series B × Series B) k => do
        let (pz, pa) := walk
        let pz ← pz.divAt k (← z.coeff 0)
        let pz ← pz.subAt 0 (← Base.mul (← pz.coeff k) (← z.coeff k))
        let pa ← pa.addAt k (Base.scale (← pz.coeff k) half)
        let pz ← (List.range' 1 (k - 1)).foldlM
          (fun pz j => do pz.subAt j (← Base.mul (← pz.coeff k) (← z.coeff (k - j)))) pz
        return (pz, pa))
      (pz, pa)
    pa.addAt 0 (Base.scale (← Base.div (← pz.coeff 0) (← z.coeff 0)) half)
  | .sin => a.sinCosPullback pz (Series.zeros (q + 1)) pa
  | .cos => a.sinCosPullback (Series.zeros (q + 1)) pz pa

/-- The partials of both arguments after those of the result have been passed back. -/
def BinaryOp.pullback (op : BinaryOp) (a b z pz pa pb : Series B) :
    Except Error (Series B × Series B) :=
  let q := a.size - 1
  match op with
  | .add =>
    (List.range (q + 1)).foldlM
      (fun (walk : Series B × Series B) k => do
        let (pa, pb) := walk
        let pa ← pa.addAt k (← pz.coeff k)
        let pb ← pb.addAt k (← pz.coeff k)
        return (pa, pb))
      (pa, pb)
  | .sub =>
    (List.range (q + 1)).foldlM
      (fun (walk : Series B × Series B) k => do
        let (pa, pb) := walk
        let pa ← pa.addAt k (← pz.coeff k)
        let pb ← pb.subAt k (← pz.coeff k)
        return (pa, pb))
      (pa, pb)
  | .mul =>
    (List.range (q + 1)).foldlM
      (fun (walk : Series B × Series B) k =>
        (List.range (k + 1)).foldlM
          (fun (walk : Series B × Series B) j => do
            let (pa, pb) := walk
            let pa ← pa.addAt j (← Base.mul (← pz.coeff k) (← b.coeff (k - j)))
            let pb ← pb.addAt (k - j) (← Base.mul (← pz.coeff k) (← a.coeff j))
            return (pa, pb))
          walk)
      (pa, pb)
  | .div => do
    let (_, pa, pb) ← (List.range (q + 1)).reverse.foldlM
      (fun (walk : Series B × Series B × Series B) k => do
        let (pz, pa, pb) := walk
        let pz ← pz.divAt k (← b.coeff 0)
        let pa ← pa.addAt k (← pz.coeff k)
        let (pz, pb) ← (List.range' 1 k).foldlM
          (fun (walk : Series B × Series B) j => do
            let (pz, pb) := walk
            let pz ← pz.subAt (k - j) (← Base.mul (← pz.coeff k) (← b.coeff j))
            let pb ← pb.subAt j (← Base.mul (← pz.coeff k) (← z.coeff (k - j)))
            return (pz, pb))
          (pz, pb)
        let pb ← pb.subAt 0 (← Base.mul (← pz.coeff k) (← z.coeff k))
        return (pz, pa, pb))
      (pz, pa, pb)
    return (pa, pb)

end TaylorTape
