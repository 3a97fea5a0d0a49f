/-
ScriptReduce.Value.Basic: the primitive values and their conversions.

These are the booleans, the numbers and the strings of ECMAScript. Every
value is true or false where a condition is wanted, and converts to a number,
to a 32-bit integer and to a string. All but the infinities and NaN can be
written as a literal.
-/
import ScriptReduce.Number.Int32
import ScriptReduce.Number.Literal
import ScriptReduce.Number.Text
import ScriptReduce.Text
import ScriptReduce.Tree.Shape

namespace ScriptReduce

inductive Value where
  | boolean (value : Bool)
  | number (value : Float)
  | string (value : String)
deriving DecidableEq

namespace Value

def typeName : Value → String
  | .boolean _ => "boolean"
  | .number _ => "number"
  | .string _ => "string"

/-- Whether a value counts as true. The zeros, NaN and the empty string do
not. -/
def isTruthy : Value → Bool
  | .boolean value => value
  | .number value => !(value == 0 || value.isNaN)
  | .string value => !value.isEmpty

def toNumber : Value → Float
  | .boolean true => Binary64.ofNat 1
  | .boolean false => Binary64.ofNat 0
  | .number value => value
  | .string value => Number.ofString value

def toInt32 (value : Value) : Int32 := Number.toInt32 value.toNumber

/-- The value as a string. -/
def text : Value → String
  | .boolean true => "true"
  | .boolean false => "false"
  | .number value => Number.text value
  | .string value => value

/-- The value as shown to people: a string stands between quotes. -/
def display : Value → String
  | .string value => Text.quoted value
  | value => value.text

/-- The literal that stands for a value, if it has one. -/
def toLiteral? : Value → Option Literal
  | .boolean value => some (.boolean value)
  | .number value => if value.isFinite then some (.numeric (Number.text value)) else none
  | .string value => some (.string value)

/-- The value a literal stands for, if its spelling is one of a number. -/
def ofLiteral? : Literal → Option Value
  | .boolean value => some (.boolean value)
  | .numeric text => (Number.ofLiteral? text).map .number
  | .string text => some (.string text)

end Value

end ScriptReduce
