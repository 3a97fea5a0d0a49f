/-
ScriptReduce.Number.Int32: numbers as 32-bit integers, the operands of the
bitwise operators.

The conversion stays among the doubles as long as it can: it takes the
integer part modulo `2 ^ 32`, brings it into the range of the signed integers
and only then makes an integer of it.
-/
import ScriptReduce.Number.Binary64

namespace ScriptReduce.Number

/- Powers of natural numbers are core's own, whatever else is in scope. -/
attribute [local instance (high)] instPowNat

/-- How many 32-bit integers there are. -/
def twoPow32 : Float := Binary64.ofNat (2 ^ (32 : Nat))

/-- The first number behind the 32-bit integers. -/
def twoPow31 : Float := Binary64.ofNat (2 ^ (31 : Nat))

/-- The integer part of a double as a 32-bit integer. What lies beyond their
range becomes the nearest bound, and NaN becomes zero. -/
def clampInt32 (x : Float) : Int32 :=
  if x.isNaN then 0 else Int32.ofIntClamp (Binary64.truncate x)

/-- The 32-bit integer that agrees with the integer part of a number modulo
`2 ^ 32`; zero for infinities and NaN. -/
def toInt32 (x : Float) : Int32 :=
  if x.isFinite then
    let rest := Binary64.modulo (Binary64.integerPart x) twoPow32
    clampInt32 (if twoPow31 ≤ rest then rest - twoPow32 else rest)
  else 0

/-- The number of a 32-bit integer. -/
def ofInt32 (n : Int32) : Float := Binary64.ofInt n.toInt

end ScriptReduce.Number
