/-
ScriptReduce.Value.Compare: equality and order of values.

Strict equality never converts. Loose equality and order compare two strings
as strings and everything else as numbers; NaN is neither equal to anything
nor before or after it.
-/
import ScriptReduce.Value.Basic
import ScriptReduce.Text

namespace ScriptReduce

/-- The order of two numbers; NaN is not comparable. Both zeros are equal. -/
def Number.compare (a b : Float) : Option Ordering :=
  if a < b then some .lt
  else if b < a then some .gt
  else if a == b then some .eq
  else none

namespace Value

/-- Strict equality, `===`: the same type and the same value. -/
def strictEqual : Value → Value → Bool
  | .boolean a, .boolean b => a == b
  | .number a, .number b => a == b
  | .string a, .string b => a == b
  | _, _ => false

/-- Loose equality, `==`: values of one type as by `===`, others as numbers. -/
def looseEqual : Value → Value → Bool
  | .boolean a, .boolean b => a == b
  | .number a, .number b => a == b
  | .string a, .string b => a == b
  | a, b => a.toNumber == b.toNumber

/-- The order of two values: strings by their units, others as numbers. -/
def compare : Value → Value → Option Ordering
  | .string a, .string b => some (Text.order a b)
  | a, b => Number.compare a.toNumber b.toNumber

end Value

end ScriptReduce
