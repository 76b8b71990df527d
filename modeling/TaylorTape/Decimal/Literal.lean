import TaylorTape.Decimal.Shortest
import TaylorTape.Scalar

/-!
Decimal literals, and the binary64 numbers they are read as.

The digits of a literal are gathered into a significand below `2 ^ 64`, and what does not fit is
left out.  The significand is rounded to a binary64 number, which is then multiplied or divided by a
rounded power of ten, and rounded again.  A significand up to `2 ^ 53` and a power up to `10 ^ 22`
are exact, so that the number read is then the nearest one; beyond these it may be a neighbour.
-/

set_option autoImplicit false
set_option relaxedAutoImplicit false

namespace TaylorTape.Decimal

/-- A number as it is written: a sign, the digits before and behind the point, and a power of ten. -/
structure Literal where
  negative : Bool
  whole : List Nat
  /-- The digits behind the point, if there is a point. -/
  fraction : Option (List Nat)
  /-- The power of ten, if one is written. -/
  power : Option Int
  deriving DecidableEq

/-- A run of at least one digit, and what follows it. -/
def digits? (cs : List Char) : Option (List Nat × List Char) :=
  match cs.takeWhile Char.isDigit with
  | [] => none
  | run => some (run.map fun c => c.toNat - '0'.toNat, cs.dropWhile Char.isDigit)

/-- The number that some digits write. -/
def ofDigits (ds : List Nat) : Nat :=
  ds.foldl (fun n d => 10 * n + d) 0

/-- The digits behind a point, if a text starts with a point, and what follows them. -/
def fraction? : List Char → Option (Option (List Nat) × List Char)
  | '.' :: cs => do
    let (ds, rest) ← digits? cs
    return (some ds, rest)
  | cs => some (none, cs)

/-- The power of ten that a text ends with, if it does not end at once. -/
def power? : List Char → Option (Option Int)
  | [] => some none
  | mark :: cs => do
    guard (mark = 'e' ∨ mark = 'E')
    let (ds, rest) ← digits? (if cs.head? = some '-' ∨ cs.head? = some '+' then cs.tail else cs)
    guard rest.isEmpty
    return some (if cs.head? = some '-' then -ofDigits ds else ofDigits ds)

/-- The literal that a text is: the whole part has no needless leading zero, a point has digits on
both sides, and nothing but a power of ten follows. -/
def Literal.ofText? (text : String) : Option Literal := do
  let cs := text.toList
  let negative := cs.head? == some '-'
  let (whole, rest) ← digits? (if negative then cs.tail else cs)
  guard (whole.length = 1 ∨ whole.head? ≠ some 0)
  let (fraction, rest) ← fraction? rest
  return ⟨negative, whole, fraction, ← power? rest⟩

/-- A significand continued by digits for as long as it stays below `2 ^ 64`, and how many digits
went into it. -/
def gather (significand : Nat) : List Nat → Nat × Nat
  | [] => (significand, 0)
  | d :: ds =>
    if 10 * significand + d < Nat.pow 2 64 then
      let (s, taken) := gather (10 * significand + d) ds
      (s, taken + 1)
    else
      (significand, 0)

/-- The decimal that a literal is taken for, up to its sign.  Each digit before the point that did
not fit raises the power of ten by one; behind the point gathering starts anew. -/
def Literal.numeral (l : Literal) : Numeral :=
  let (s, taken) := gather 0 l.whole
  let (s, places) := gather s (l.fraction.getD [])
  ⟨s, (l.whole.length - taken : Nat) - places + l.power.getD 0⟩

/-- The greatest power of ten within binary64. -/
def greatestPower : Nat := 308

/-- A number divided by `10 ^ places`, in steps of at most the greatest power. -/
def lower (x : Float) (places : Nat) : Float :=
  if places ≤ greatestPower then x / Float.ofScientific 1 false places
  else if x == 0 then x
  else lower (x / Float.ofScientific 1 false greatestPower) (places - greatestPower)
termination_by places
decreasing_by simp only [greatestPower] at *; omega

/-- The binary64 number that a decimal of digits below `2 ^ 64` is read as, if it is in range. -/
def Numeral.toBinary64? (d : Numeral) : Option Float :=
  let x : Float := Scalar.ofNat d.digits
  match d.exponent with
  | .ofNat n =>
    if n ≤ greatestPower then
      let y := x * Float.ofScientific 1 false n
      if y.isInf then none else some y
    else if x == 0 then some x
    else none
  | .negSucc n => some (lower x (n + 1))

/-- The binary64 number that a literal is read as, if it is in range. -/
def Literal.toBinary64? (l : Literal) : Option Float :=
  l.numeral.toBinary64?.map fun x => if l.negative then -x else x

/-- The integer that a literal writes with digits alone, if 64 bits hold it: unsigned, or signed and
below zero.  A negative zero is no integer, for it has a sign. -/
def Literal.integer? (l : Literal) : Option Int :=
  let n := ofDigits l.whole
  match l.fraction, l.power, l.negative with
  | none, none, false => if n < Nat.pow 2 64 then some n else none
  | none, none, true => if 0 < n ∧ n ≤ Nat.pow 2 63 then some (-n) else none
  | _, _, _ => none

end TaylorTape.Decimal
