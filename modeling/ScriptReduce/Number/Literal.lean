/-
ScriptReduce.Number.Literal: reading numbers.

Two grammars are read here. A *numeric literal* is a number as spelled in a
program: decimal or with a radix in front, with separators between digits. A
*string* that is converted to a number follows the more liberal rules of the
conversion: blanks around it, a sign, leading zeros, and no separators. What
is not a numeric literal has no number at all; a string that is not one
converts to NaN.
-/
import ScriptReduce.Number.Decimal
import ScriptReduce.Text

namespace ScriptReduce.Number

/- Powers of natural numbers are core's own, whatever else is in scope. -/
attribute [local instance (high)] instPowNat

/-! ## 1. Digits -/

/-- The value of a digit, up to `f`, in a radix that has it. -/
def digitValue (radix : Nat) (c : Char) : Option Nat :=
  let n := c.toNat
  let value :=
    if '0'.toNat ≤ n ∧ n ≤ '9'.toNat then some (n - '0'.toNat)
    else if 'a'.toNat ≤ n ∧ n ≤ 'f'.toNat then some (n - 'a'.toNat + 10)
    else if 'A'.toNat ≤ n ∧ n ≤ 'F'.toNat then some (n - 'A'.toNat + 10)
    else none
  value.filter (· < radix)

/-- The values of a sequence of digits; there must be at least one. -/
def digitValues (radix : Nat) (cs : List Char) : Option (List Nat) :=
  if cs.isEmpty then none else cs.mapM (digitValue radix)

/-- The number that a sequence of digit values denotes. -/
def ofDigits (radix : Nat) (values : List Nat) : Nat :=
  values.foldl (fun n digit => n * radix + digit) 0

/-- The whole number that a sequence of decimal digits denotes. -/
def readNat (cs : List Char) : Option Nat := (digitValues 10 cs).map (ofDigits 10)

/-! ## 2. Decimals -/

/-- The number that the digits of an exponent stand for. They are read until
the number has reached `2 ^ 16`; the digits behind that count nothing. Any
such exponent is far beyond the doubles on its own, so what is passed over
shows only in a decimal with tens of thousands of digits to make up for it. -/
def ofExponentDigits (values : List Nat) : Nat :=
  values.foldl (fun n digit => if n < 65536 then n * 10 + digit else n) 0

/-- The digits of an exponent; there must be at least one. -/
def readExponentDigits (cs : List Char) : Option Nat :=
  (digitValues 10 cs).map ofExponentDigits

/-- Reads what follows the digits of a decimal: nothing, or an exponent with
an optional sign. -/
def readExponent : List Char → Option Int
  | [] => some 0
  | c :: cs =>
    if c = 'e' ∨ c = 'E' then
      match cs with
      | '-' :: ds => (readExponentDigits ds).map fun n => -(n : Int)
      | '+' :: ds => (readExponentDigits ds).map fun n => (n : Int)
      | ds => (readExponentDigits ds).map fun n => (n : Int)
    else none

/-- The digits behind a point, if there is one, and what follows them. -/
def readFraction : List Char → List Char × List Char
  | '.' :: cs => (cs.takeWhile Char.isDigit, cs.dropWhile Char.isDigit)
  | cs => ([], cs)

/-- Reads an unsigned decimal: digits with an optional point, at least one
digit, and an optional exponent. -/
def readDecimal (cs : List Char) : Option Decimal := do
  let whole := cs.takeWhile Char.isDigit
  let (fraction, rest) := readFraction (cs.dropWhile Char.isDigit)
  let digits ← readNat (whole ++ fraction)
  let exponent ← readExponent rest
  return ⟨digits, exponent - fraction.length⟩

/-! ## 3. Radix prefixes -/

/-- The radix that a text announces, and the digits behind it. -/
def readRadix : List Char → Option (Nat × List Char)
  | '0' :: 'x' :: ds | '0' :: 'X' :: ds => some (16, ds)
  | '0' :: 'o' :: ds | '0' :: 'O' :: ds => some (8, ds)
  | '0' :: 'b' :: ds | '0' :: 'B' :: ds => some (2, ds)
  | _ => none

/-- The double that digits in a radix stand for. Up to 128 bits the number is
rounded once; a longer one is summed up in doubles, digit by digit, rounding
at each. -/
def ofRadixDigits (radix : Nat) (values : List Nat) : Float :=
  if ofDigits radix values < 2 ^ (128 : Nat) then Binary64.ofNat (ofDigits radix values)
  else
    values.foldl
      (fun sum digit => sum * Binary64.ofNat radix + Binary64.ofNat digit) (Binary64.ofNat 0)

/-! ## 4. Numeric literals -/

/-- A zero followed by a digit: the old way to write octal numbers. -/
def isLegacyOctal : List Char → Bool
  | '0' :: c :: _ => c.isDigit
  | _ => false

/-- Reads a numeric literal without sign or separators. -/
def readUnsigned (cs : List Char) : Option Float :=
  match readRadix cs with
  | some (radix, ds) => (digitValues radix ds).map (ofRadixDigits radix)
  | none => if isLegacyOctal cs then none else (readDecimal cs).map Decimal.toFloat

/-- Reads a numeric literal. A minus sign in front is accepted, as the
literals of negative numbers are spelled with one; separators count nothing. -/
def readLiteral : List Char → Option Float
  | '-' :: cs => (readLiteral cs).map fun x => -x
  | cs => readUnsigned (cs.filter (· != '_'))

/-- The number that a numeric literal stands for, if it is one. -/
def ofLiteral? (s : String) : Option Float := readLiteral s.toList

/-! ## 5. Strings as numbers -/

/-- Splits off a sign; the first component tells whether it is a minus. -/
def readSign : List Char → Bool × List Char
  | '-' :: cs => (true, cs)
  | '+' :: cs => (false, cs)
  | cs => (false, cs)

/-- Reads an unsigned decimal or the word for infinity. -/
def readMagnitude (cs : List Char) : Option Float :=
  if cs = "Infinity".toList then some Binary64.positiveInfinity
  else (readDecimal cs).map Decimal.toFloat

/-- Reads a string, stripped of blanks, that is to become a number. The empty
string is zero, and digits behind a radix take no sign. -/
def readString (cs : List Char) : Option Float :=
  if cs.isEmpty then some (Binary64.ofNat 0)
  else
    match readRadix cs with
    | some (radix, ds) => (digitValues radix ds).map (ofRadixDigits radix)
    | none =>
      let (negative, unsigned) := readSign cs
      (readMagnitude unsigned).map fun x => if negative then -x else x

/-- The number that a string converts to. -/
def ofString (s : String) : Float :=
  (readString (Text.strip s.toList)).getD Binary64.notANumber

example : readExponent "e65535".toList = some 65535 ∧
    readExponent "e-655370".toList = some (-65537) := by
  decide +kernel

example : ofLiteral? "1_000" = some 1000 ∧ ofLiteral? "017" = none ∧ ofLiteral? "1n" = none := by
  decide +kernel

example : ofString " +1e3 " = 1000 ∧ ofString "" = 0 ∧ (ofString "-0x10").isNaN := by
  decide +kernel

end ScriptReduce.Number
