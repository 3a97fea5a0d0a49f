/-
ScriptReduce.Number.Text: how a number is written.

A number is written with the fewest digits that read back as it. Numbers from
10^-6 up to 10^21 are written out, all others with an exponent. Zero has no
sign.
-/
import ScriptReduce.Number.Decimal

namespace ScriptReduce.Number

/-- The greatest place of the decimal point that is written out. -/
def lastPoint : Int := 21

/-- The places of the decimal point written out all lie right of this one. -/
def firstPoint : Int := -6

/-- The text of an exponent: always signed, with no zeros in front. -/
def exponentText (exponent : Int) : List Char :=
  'e' :: (if exponent < 0 then '-' else '+') :: Decimal.digitsOf exponent.natAbs

/-- Writes digits with the decimal point behind the first `point` of them. A
point right of all digits is reached by zeros and not written; one left of
all digits is followed by zeros. -/
def layout (digits : List Char) (point : Int) : List Char :=
  if digits.length ≤ point ∧ point ≤ lastPoint then
    digits ++ List.replicate (point - digits.length).toNat '0'
  else if 0 < point ∧ point ≤ lastPoint then
    digits.take point.toNat ++ '.' :: digits.drop point.toNat
  else if firstPoint < point ∧ point ≤ 0 then
    '0' :: '.' :: (List.replicate (-point).toNat '0' ++ digits)
  else
    match digits with
    | [] => []
    | [digit] => digit :: exponentText (point - 1)
    | digit :: more => digit :: '.' :: (more ++ exponentText (point - 1))

/-- The text of a positive decimal. -/
def decimalText (d : Decimal) : List Char :=
  let digits := Decimal.digitsOf d.digits
  layout digits (digits.length + d.exponent)

/-- The text of a magnitude. -/
def magnitudeText (magnitude : Nat) : List Char :=
  if magnitude = 0 then ['0']
  else if magnitude = Binary64.infinity then "Infinity".toList
  else decimalText (Decimal.shortest magnitude)

/-- The text of a number. -/
def text (x : Float) : String :=
  if x.isNaN then "NaN"
  else
    let sign := if Binary64.isNegative x && Binary64.magnitude x != 0 then ['-'] else []
    String.ofList (sign ++ magnitudeText (Binary64.magnitude x))

/-! ## Where the notation changes -/

example : text 1e20 = "100000000000000000000" ∧ text 1e21 = "1e+21" := by decide +kernel

example : text 0.000001 = "0.000001" ∧ text 0.00000125 = "0.00000125" ∧
    text 0.000000125 = "1.25e-7" := by decide +kernel

example : text (-0.0) = "0" ∧ text (0.1 + 0.2) = "0.30000000000000004" := by decide +kernel

end ScriptReduce.Number
