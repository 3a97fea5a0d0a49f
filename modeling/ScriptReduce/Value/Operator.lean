/-
ScriptReduce.Value.Operator: what the binary operators do to values.

The logical operators are settled by their left operand alone, or else have
the value of the right one. Every other operator needs both. Assignment has
no value that could be known here.
-/
import ScriptReduce.Value.Compare

namespace ScriptReduce

/-- Joins texts if one of the operands is a string, and adds numbers if none
is. -/
def Value.plus : Value → Value → Value
  | .string a, b => .string (a ++ b.text)
  | a, .string b => .string (a.text ++ b)
  | a, b => .number (a.toNumber + b.toNumber)

/-- Combines the 32-bit integers of two values. -/
def Value.bitwise (f : Int32 → Int32 → Int32) (a b : Value) : Value :=
  .number (Number.ofInt32 (f a.toInt32 b.toInt32))

/-- Combines the numbers of two values. -/
def Value.arithmetic (f : Float → Float → Float) (a b : Value) : Value :=
  .number (f a.toNumber b.toNumber)

/-- Asks for the order of two values; the answer is no if they have none. -/
def Value.ordered (f : Ordering → Bool) (a b : Value) : Value :=
  .boolean ((a.compare b).any f)

namespace BinaryOperator

/-- Whether the left operand settles the value, which is then its own. -/
def isSettledBy : BinaryOperator → Value → Bool
  | .and, left => !left.isTruthy
  | .or, left => left.isTruthy
  | _, _ => false

/-- The value of an operator on two values, neither of which settles it. -/
def apply (op : BinaryOperator) (left right : Value) : Option Value :=
  match op with
  | .and | .or => some right
  | .bitAnd => some (left.bitwise (· &&& ·) right)
  | .bitOr => some (left.bitwise (· ||| ·) right)
  | .bitXor | .bitXorAssign => some (left.bitwise (· ^^^ ·) right)
  | .looseEqual => some (.boolean (left.looseEqual right))
  | .looseUnequal => some (.boolean !(left.looseEqual right))
  | .strictEqual => some (.boolean (left.strictEqual right))
  | .strictUnequal => some (.boolean !(left.strictEqual right))
  | .less => some (left.ordered Ordering.isLT right)
  | .lessEqual => some (left.ordered Ordering.isLE right)
  | .greater => some (left.ordered Ordering.isGT right)
  | .greaterEqual => some (left.ordered Ordering.isGE right)
  | .plus => some (left.plus right)
  | .minus => some (left.arithmetic (· - ·) right)
  | .times => some (left.arithmetic (· * ·) right)
  | .divide => some (left.arithmetic (· / ·) right)
  | .remainder => some (left.arithmetic Binary64.remainder right)
  | .assign => none

end BinaryOperator

end ScriptReduce
