/-
ScriptReduce.Number.Decimal: decimals, and the shortest decimal of a double.

A decimal is a whole number of digits with a power of ten. `magnitude` rounds
it to the grid of doubles; `shortest` goes back. The result of `shortest`
reads back as the magnitude it was made from, no decimal with fewer digits
does, and of those with as many digits it is the one nearest to the double's
exact value.
-/
import ScriptReduce.Number.Binary64

namespace ScriptReduce

/-- The number `digits * 10 ^ exponent`. -/
structure Decimal where
  digits : Nat
  exponent : Int
deriving DecidableEq

namespace Decimal

/- Powers of natural numbers are core's own, whatever else is in scope. -/
attribute [local instance (high)] instPowNat

open Binary64 (units one infinity nearest)

/-! ## 1. From a decimal to a double -/

/-- The magnitude nearest to a decimal. Powers of ten that are far outside
the grid are never computed: from `10 ^ 400` on all is infinity, and as
`digits < 2 ^ (log2 digits + 1)`, below `10 ^ -(400 + log2 digits)` all is
zero. -/
def magnitude (d : Decimal) : Nat :=
  if d.digits = 0 then 0
  else if 400 < d.exponent then infinity
  else if d.exponent < -(400 + d.digits.log2) then 0
  else if 0 ≤ d.exponent then nearest (d.digits * 10 ^ d.exponent.toNat) 1
  else nearest d.digits (10 ^ (-d.exponent).toNat)

/-- The double nearest to a decimal. -/
def toFloat (d : Decimal) : Float := Binary64.ofMagnitude false d.magnitude

/-! ## 2. From a double to a decimal -/

/-- The digits of a natural number, most significant first. -/
def digitsOf (n : Nat) : List Char := Nat.toDigits 10 n

/-- Moves the zeros at the end of the digits into the exponent. -/
def trim (d : Decimal) : Decimal :=
  let zeros := ((digitsOf d.digits).reverse.takeWhile (· == '0')).length
  ⟨d.digits / 10 ^ zeros, d.exponent + zeros⟩

/-- The place of the decimal point of a positive value: the number `p` with
`10 ^ (p - 1) ≤ value < 10 ^ p`. No finite value is below `10 ^ -324`, so
324 places further left it has a digit before the point. -/
def point (units : Nat) : Int :=
  (digitsOf (units * 10 ^ (324 : Nat) / one)).length - 324

/-- The decimal with at most `count` digits that reads back as `magnitude`,
if there is one. Only the two neighbours of the exact value can: the one
below it and the one above. If both do, the nearer is taken, and the one
above if they are equally near. -/
def withDigits (magnitude : Nat) (point : Int) (count : Nat) : Option Decimal :=
  let exponent := point - count
  let numerator := units magnitude * 10 ^ (-exponent).toNat
  let denominator := one * 10 ^ exponent.toNat
  let below := trim ⟨numerator / denominator, exponent⟩
  let above := trim ⟨numerator / denominator + 1, exponent⟩
  let aboveIsNearer := denominator ≤ 2 * (numerator % denominator)
  if below.magnitude = magnitude ∧ ¬(above.magnitude = magnitude ∧ aboveIsNearer) then some below
  else if above.magnitude = magnitude then some above
  else none

/-- All digits of a finite double: a unit is `5 ^ 1074 * 10 ^ -1074`. -/
def exact (magnitude : Nat) : Decimal := ⟨units magnitude * 5 ^ (1074 : Nat), -1074⟩

/-- The shortest decimal that reads back as a finite magnitude. Seventeen
digits are always enough. -/
def shortest (magnitude : Nat) : Decimal :=
  let place := point (units magnitude)
  ((List.range 17).findSome? fun i => withDigits magnitude place (i + 1)).getD (exact magnitude)

end Decimal

end ScriptReduce
