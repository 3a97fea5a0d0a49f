/-
ScriptReduce.Tree.Operator: the operators and binding keywords of the
language, with their spellings.
-/

namespace ScriptReduce

/-! ## 1. Operators -/

/-- The operators written in front of their operand. -/
inductive UnaryOperator where
  | not
  | minus
  | plus
  | complement
deriving DecidableEq

namespace UnaryOperator

def text : UnaryOperator → String
  | .not => "!"
  | .minus => "-"
  | .plus => "+"
  | .complement => "~"

def all : List UnaryOperator := [.not, .minus, .plus, .complement]

/-- The operator with a given spelling. -/
def ofText? (s : String) : Option UnaryOperator := all.find? fun op => op.text == s

end UnaryOperator

/-- The operators written between their operands. -/
inductive BinaryOperator where
  | and
  | or
  | bitAnd
  | bitOr
  | bitXor
  | bitXorAssign
  | looseEqual
  | strictEqual
  | looseUnequal
  | strictUnequal
  | less
  | lessEqual
  | greater
  | greaterEqual
  | plus
  | minus
  | times
  | divide
  | remainder
  | assign
deriving DecidableEq

namespace BinaryOperator

def text : BinaryOperator → String
  | .and => "&&"
  | .or => "||"
  | .bitAnd => "&"
  | .bitOr => "|"
  | .bitXor => "^"
  | .bitXorAssign => "^="
  | .looseEqual => "=="
  | .strictEqual => "==="
  | .looseUnequal => "!="
  | .strictUnequal => "!=="
  | .less => "<"
  | .lessEqual => "<="
  | .greater => ">"
  | .greaterEqual => ">="
  | .plus => "+"
  | .minus => "-"
  | .times => "*"
  | .divide => "/"
  | .remainder => "%"
  | .assign => "="

def all : List BinaryOperator :=
  [.and, .or, .bitAnd, .bitOr, .bitXor, .bitXorAssign, .looseEqual, .strictEqual,
    .looseUnequal, .strictUnequal, .less, .lessEqual, .greater, .greaterEqual, .plus, .minus,
    .times, .divide, .remainder, .assign]

/-- The operator with a given spelling. -/
def ofText? (s : String) : Option BinaryOperator := all.find? fun op => op.text == s

/-- Whether the operator writes to its left operand. -/
def isAssignment : BinaryOperator → Bool
  | .assign | .bitXorAssign => true
  | _ => false

end BinaryOperator

/-! ## 2. Bindings -/

/-- How a name is bound: by `const`, by `let` or by `var`. -/
inductive BindingKind where
  | constant
  | blockVariable
  | functionVariable
deriving DecidableEq

namespace BindingKind

/-- The keyword that declares bindings of a kind. -/
def keyword : BindingKind → String
  | .constant => "const"
  | .blockVariable => "let"
  | .functionVariable => "var"

def name : BindingKind → String
  | .constant => "BlockScopedConstant"
  | .blockVariable => "BlockScopedVariable"
  | .functionVariable => "FunctionScopedVariable"

def all : List BindingKind := [.constant, .blockVariable, .functionVariable]

def ofKeyword? (s : String) : Option BindingKind := all.find? fun kind => kind.keyword == s

def ofName? (s : String) : Option BindingKind := all.find? fun kind => kind.name == s

/-- Bindings of a block end with it; the others last for the whole function. -/
def isBlockScoped : BindingKind → Bool
  | .functionVariable => false
  | _ => true

/-- Only a constant is never assigned to after its declaration. -/
def isImmutable (kind : BindingKind) : Bool := kind == .constant

end BindingKind

end ScriptReduce
