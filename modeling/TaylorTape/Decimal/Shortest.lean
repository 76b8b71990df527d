/-!
The shortest decimal that reads back as a binary number, written without an exponent.

Every finite binary number is the nearest one to all reals of an interval around it.  Among the
decimal grids `10 ^ k` the coarsest with a point in that interval gives the fewest digits, and of
its points there the one nearest to the number is written; the upper one where two are equally
near.  All comparisons are between natural numbers, so nothing is rounded on the way.
-/

set_option autoImplicit false
set_option relaxedAutoImplicit false

namespace TaylorTape.Decimal

/-- A binary number format, given by the widths of its fraction and exponent fields. -/
structure Format where
  /-- Width of the fraction field. -/
  fractionBits : Nat
  /-- Width of the exponent field. -/
  exponentBits : Nat
  deriving DecidableEq

/-- The format of 64 bits. -/
def binary64 : Format := ⟨52, 11⟩

/-- The format of 32 bits. -/
def binary32 : Format := ⟨23, 8⟩

/-- The positive number `mantissa * 2 ^ exponent`; `boundary` marks the least mantissa of full
width, whose lower neighbour is taken to be half as far away as the upper one. -/
structure Magnitude where
  mantissa : Nat
  exponent : Int
  boundary : Bool
  deriving DecidableEq

/-- What a bit pattern stands for, up to its sign. -/
inductive Class where
  | nan
  | infinite
  | zero
  | finite (m : Magnitude)
  deriving DecidableEq

/-- Whether the sign bit of a pattern is set. -/
def Format.isNegative (f : Format) (bits : Nat) : Bool :=
  bits.testBit (f.fractionBits + f.exponentBits)

/-- The class of a pattern, read from its fraction and exponent fields. -/
def Format.classify (f : Format) (bits : Nat) : Class :=
  let fraction := bits % Nat.pow 2 f.fractionBits
  let biased := bits / Nat.pow 2 f.fractionBits % Nat.pow 2 f.exponentBits
  let least : Int := 2 - Nat.pow 2 (f.exponentBits - 1) - f.fractionBits
  if biased = Nat.pow 2 f.exponentBits - 1 then
    if fraction = 0 then .infinite else .nan
  else if biased = 0 then
    if fraction = 0 then .zero else .finite ⟨fraction, least, false⟩
  else
    .finite ⟨Nat.pow 2 f.fractionBits + fraction, least + biased - 1, fraction == 0⟩

/-- A fraction of two natural numbers. -/
structure Ratio where
  num : Nat
  den : Nat

/-- An integer power of a base as a fraction. -/
def Ratio.power (base : Nat) : Int → Ratio
  | .ofNat n => ⟨base.pow n, 1⟩
  | .negSucc n => ⟨1, base.pow (n + 1)⟩

/-- The points of the grid `10 ^ k` next to a number that read back as it, the nearest first. -/
def Magnitude.pointOnGrid? (m : Magnitude) (k : Int) : Option Nat :=
  let unit := Ratio.power 2 (m.exponent - 2)
  let grid := Ratio.power 10 k
  let scaled (x : Nat) := x * unit.num * grid.den
  let step := grid.num * unit.den
  let number := scaled (4 * m.mantissa)
  let lower := scaled (4 * m.mantissa - if m.boundary then 1 else 2)
  let upper := scaled (4 * m.mantissa + 2)
  let closed := m.mantissa % 2 == 0
  let readsBack (c : Nat) :=
    if closed then lower ≤ c * step && c * step ≤ upper
    else lower < c * step && c * step < upper
  let below := number / step
  let above := below + 1
  let nearerAbove := above * step - number ≤ number - below * step
  if readsBack below && !(readsBack above && nearerAbove) then some below
  else if readsBack above then some above
  else none

/-- A decimal `digits * 10 ^ exponent`. -/
structure Numeral where
  digits : Nat
  exponent : Int
  deriving DecidableEq

/-- The first grid with a point, going down from `10 ^ k`; the search has `fuel` steps. -/
def Magnitude.search (m : Magnitude) : Nat → Int → Numeral
  | 0, k => ⟨0, k⟩
  | fuel + 1, k =>
    match m.pointOnGrid? k with
    | some c => ⟨c, k⟩
    | none => m.search fuel (k - 1)

/-- The decimal of fewest digits that reads back as a number, the nearest of those.  A number below
`2 ^ n` is below `10 ^ n`, and one that is a multiple of `2 ^ -n` lies on the grid `10 ^ -n`, which
bounds the search. -/
def Magnitude.shortest (m : Magnitude) : Numeral :=
  let high := (m.exponent + m.mantissa.log2 + 2).toNat
  m.search (high + (-m.exponent).toNat + 1) high

/-- A decimal in positional notation: no exponent, and no point after an integer. -/
def Numeral.text (d : Numeral) : String :=
  let digits := toString d.digits
  match d.exponent with
  | .ofNat n => digits ++ String.ofList (List.replicate n '0')
  | .negSucc n =>
    let places := n + 1
    let padded := List.replicate (places + 1 - digits.length) '0' ++ digits.toList
    let whole := padded.length - places
    String.ofList (padded.take whole) ++ "." ++ String.ofList (padded.drop whole)

/-- The text of a pattern of bits in a format. -/
def Format.text (f : Format) (bits : Nat) : String :=
  let sign := if f.isNegative bits then "-" else ""
  match f.classify bits with
  | .nan => "NaN"
  | .infinite => sign ++ "inf"
  | .zero => sign ++ "0"
  | .finite m => sign ++ m.shortest.text

end TaylorTape.Decimal
