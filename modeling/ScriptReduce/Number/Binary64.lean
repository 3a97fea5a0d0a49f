/-
ScriptReduce.Number.Binary64: the grid of doubles, in exact arithmetic.

A double is a sign and a *magnitude*, the low 63 bits of its pattern. Read as
a natural number, the magnitude puts the non-negative doubles in order: 0 is
zero, each next magnitude is the next larger double, and `infinity` follows
the largest finite one. Every finite magnitude stands for a whole number of
*units*, a unit being the least positive double, 2^-1074. So questions about
doubles become questions about natural numbers: truncation divides units,
a remainder is a remainder of units, and rounding picks the magnitude whose
units are nearest.
-/

namespace ScriptReduce.Binary64

/- Powers of natural numbers are core's own, whatever else is in scope. -/
attribute [local instance (high)] instPowNat

/-! ## 1. Magnitudes -/

/-- The magnitude of infinity; the finite magnitudes are those below it. -/
def infinity : Nat := 2047 * 2 ^ (52 : Nat)

/-- How many units make up one. -/
def one : Nat := 2 ^ (1074 : Nat)

/-- The units a finite magnitude stands for. The top bits are the exponent
and the low 52 bits the fraction; with exponent zero the fraction counts
units, and any other exponent adds the hidden bit and doubles the step. -/
def units (magnitude : Nat) : Nat :=
  let exponent := magnitude / 2 ^ (52 : Nat)
  let fraction := magnitude % 2 ^ (52 : Nat)
  if exponent = 0 then fraction else (2 ^ (52 : Nat) + fraction) * 2 ^ (exponent - 1)

/-- The whole number nearest to a quotient, a half going to the even side. -/
def divideToEven (numerator denominator : Nat) : Nat :=
  let quotient := numerator / denominator
  let rest := numerator % denominator
  if 2 * rest < denominator then quotient
  else if denominator < 2 * rest then quotient + 1
  else quotient + quotient % 2

/-- The magnitude nearest to `numerator / denominator`, a half going to the
even side, and infinity past the last finite one. The step of the grid at
the quotient is `2 ^ step` units; at that step the quotient rounds to at most
`2 ^ 53` steps, and a carry into `2 ^ 53` is the first magnitude with the
next exponent, as it should be. -/
def nearest (numerator denominator : Nat) : Nat :=
  let whole := numerator * one / denominator
  let step := (whole.log2 + 1) - 53
  let rounded := divideToEven (numerator * one) (denominator * 2 ^ step)
  min infinity (step * 2 ^ (52 : Nat) + rounded)

/-! ## 2. Doubles -/

/-- The sign bit, set also for negative zero. -/
def isNegative (x : Float) : Bool := 2 ^ (63 : Nat) ≤ x.toBits.toNat

def magnitude (x : Float) : Nat := x.toBits.toNat % 2 ^ (63 : Nat)

/-- The double with a given sign and magnitude. -/
def ofMagnitude (negative : Bool) (magnitude : Nat) : Float :=
  Float.ofBits (UInt64.ofNat ((if negative then 2 ^ (63 : Nat) else 0) + magnitude))

def positiveInfinity : Float := ofMagnitude false infinity

def notANumber : Float := ofMagnitude false (infinity + 2 ^ (51 : Nat))

/-- The double nearest to a natural number. -/
def ofNat (n : Nat) : Float := ofMagnitude false (nearest n 1)

/-- The double nearest to an integer; zero is positive. -/
def ofInt (i : Int) : Float := ofMagnitude (i < 0) (nearest i.natAbs 1)

/-- The integer part of a finite double: digits behind the point are dropped. -/
def truncate (x : Float) : Int :=
  let whole : Int := units (magnitude x) / one
  if isNegative x then -whole else whole

/-- The remainder of a division that rounds its quotient toward zero. It is
exact, and it has the sign of the dividend, also when it is zero. There is
none of an infinite dividend or by zero, and dividing by infinity leaves the
dividend. -/
def remainder (x y : Float) : Float :=
  if x.isNaN || y.isNaN || x.isInf || y == 0 then notANumber
  else if y.isInf then x
  else
    ofMagnitude (isNegative x)
      (nearest (units (magnitude x) % units (magnitude y)) one)

/-- The integer part of a double as a double, with its sign, also when it is
zero. Infinities and NaN have no other. -/
def integerPart (x : Float) : Float :=
  if x.isFinite then ofMagnitude (isNegative x) (nearest (units (magnitude x) / one) 1) else x

/-- The remainder that is not negative: one that is has the divisor added to
it, without its sign. -/
def modulo (x y : Float) : Float :=
  let rest := remainder x y
  if rest < ofNat 0 then rest + y.abs else rest

end ScriptReduce.Binary64
