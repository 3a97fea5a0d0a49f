/-
ScriptReduce.Tree.Shape: what a node of a program is.

A shape is a kind of node with its payload and its child slots. What sits in
the slots is left open: a tree in a store puts identifiers there, a term puts
terms. The operations on slots are therefore written once, and each is
described by what it does to the list of children in source order.
-/
import ScriptReduce.Tree.Operator

namespace ScriptReduce

/-- A literal as spelled in a program. -/
inductive Literal where
  | boolean (value : Bool)
  | numeric (text : String)
  | string (text : String)
deriving DecidableEq

/-- The kinds of node. `other` stands for every construct without a kind of
its own; its children are kept in source order. -/
inductive Shape (α : Type) where
  | sourceFile (statements : List α)
  | literal (literal : Literal)
  | identifier (name : String)
  | unary (operator : UnaryOperator) (operand : α)
  | binary (left : α) (operator : BinaryOperator) (right : α)
  | call (callee : α) (arguments : List α)
  | branch (condition whenTrue : α) (whenFalse : Option α)
  | block (statements : List α)
  | expressionStatement (expression : α)
  | variableStatement (declarations : α)
  | declarationList (kind : BindingKind) (declarations : List α)
  | declaration (name : α) (initializer : Option α)
  | emptyStatement
  | other (label : String) (children : List α)
deriving DecidableEq

/-- A child position of a node: one that is always filled, one that may be
empty, or a sequence of any length. -/
inductive Slot (α : Type) where
  | single (child : α)
  | optional (child : Option α)
  | sequence (children : List α)
deriving DecidableEq

namespace Slot

variable {α : Type}

def children : Slot α → List α
  | .single child => [child]
  | .optional child => child.toList
  | .sequence children => children

end Slot

namespace Shape

variable {α β : Type}

/-! ## 1. Reading -/

/-- The name of a node's kind. -/
def kindName : Shape α → String
  | .sourceFile _ => "SourceFile"
  | .literal (.boolean _) => "BooleanLiteral"
  | .literal (.numeric _) => "NumericLiteral"
  | .literal (.string _) => "StringLiteral"
  | .identifier _ => "Identifier"
  | .unary _ _ => "PrefixUnaryExpression"
  | .binary _ _ _ => "BinaryExpression"
  | .call _ _ => "CallExpression"
  | .branch _ _ _ => "IfStatement"
  | .block _ => "Block"
  | .expressionStatement _ => "ExpressionStatement"
  | .variableStatement _ => "VariableStatement"
  | .declarationList _ _ => "VariableDeclarationList"
  | .declaration _ _ => "VariableDeclaration"
  | .emptyStatement => "EmptyStatement"
  | .other _ _ => "Opaque"

/-- The slots of a node in source order. -/
def slots : Shape α → List (Slot α)
  | .sourceFile statements | .block statements => [.sequence statements]
  | .literal _ | .identifier _ | .emptyStatement => []
  | .unary _ operand => [.single operand]
  | .binary left _ right => [.single left, .single right]
  | .call callee arguments => [.single callee, .sequence arguments]
  | .branch condition whenTrue whenFalse =>
    [.single condition, .single whenTrue, .optional whenFalse]
  | .expressionStatement expression => [.single expression]
  | .variableStatement declarations => [.single declarations]
  | .declarationList _ declarations => [.sequence declarations]
  | .declaration name initializer => [.single name, .optional initializer]
  | .other _ children => [.sequence children]

/-- The children of a node in source order. -/
def children (shape : Shape α) : List α := shape.slots.flatMap Slot.children

@[simp] theorem children_sourceFile (as : List α) : (sourceFile as).children = as :=
  List.append_nil _

@[simp] theorem children_literal (l : Literal) : (literal l : Shape α).children = [] := rfl

@[simp] theorem children_identifier (name : String) :
    (identifier name : Shape α).children = [] := rfl

@[simp] theorem children_unary (op : UnaryOperator) (a : α) : (unary op a).children = [a] := rfl

@[simp] theorem children_binary (a : α) (op : BinaryOperator) (b : α) :
    (binary a op b).children = [a, b] := rfl

@[simp] theorem children_call (a : α) (as : List α) : (call a as).children = a :: as :=
  congrArg (a :: ·) (List.append_nil _)

@[simp] theorem children_branch (a b : α) (c : Option α) :
    (branch a b c).children = a :: b :: c.toList :=
  congrArg (a :: b :: ·) (List.append_nil _)

@[simp] theorem children_block (as : List α) : (block as).children = as :=
  List.append_nil _

@[simp] theorem children_expressionStatement (a : α) :
    (expressionStatement a).children = [a] := rfl

@[simp] theorem children_variableStatement (a : α) :
    (variableStatement a).children = [a] := rfl

@[simp] theorem children_declarationList (kind : BindingKind) (as : List α) :
    (declarationList kind as).children = as :=
  List.append_nil _

@[simp] theorem children_declaration (a : α) (b : Option α) :
    (declaration a b).children = a :: b.toList :=
  congrArg (a :: ·) (List.append_nil _)

@[simp] theorem children_emptyStatement : (emptyStatement : Shape α).children = [] := rfl

@[simp] theorem children_other (label : String) (as : List α) :
    (other label as).children = as :=
  List.append_nil _

/-! ## 2. Traversing -/

/-- Does something at each child in source order and keeps the shape. -/
def traverse {m : Type → Type} [Monad m] (f : α → m β) : Shape α → m (Shape β)
  | .sourceFile statements => return .sourceFile (← statements.mapM f)
  | .literal l => return .literal l
  | .identifier name => return .identifier name
  | .unary op operand => return .unary op (← f operand)
  | .binary left op right => return .binary (← f left) op (← f right)
  | .call callee arguments => return .call (← f callee) (← arguments.mapM f)
  | .branch condition whenTrue whenFalse =>
    return .branch (← f condition) (← f whenTrue) (← whenFalse.mapM f)
  | .block statements => return .block (← statements.mapM f)
  | .expressionStatement expression => return .expressionStatement (← f expression)
  | .variableStatement declarations => return .variableStatement (← f declarations)
  | .declarationList kind declarations =>
    return .declarationList kind (← declarations.mapM f)
  | .declaration name initializer =>
    return .declaration (← f name) (← initializer.mapM f)
  | .emptyStatement => return .emptyStatement
  | .other label children => return .other label (← children.mapM f)

/-! ## 3. Changing -/

variable [DecidableEq α]

/-- One child in place of another, if it is the one. -/
def swap (old new child : α) : α := if child = old then new else child

/-- An optional position, emptied if it holds the one. -/
def clear (old : α) : Option α → Option α
  | some child => if child = old then none else some child
  | none => none

/-- Puts `new` into the first slot position that holds `old`; a shape that
does not hold `old` stays as it is. -/
def replace (old new : α) : Shape α → Shape α
  | .sourceFile statements => .sourceFile (statements.replace old new)
  | .literal l => .literal l
  | .identifier name => .identifier name
  | .unary op operand => .unary op (swap old new operand)
  | .binary left op right =>
    if left = old then .binary new op right else .binary left op (swap old new right)
  | .call callee arguments =>
    if callee = old then .call new arguments else .call callee (arguments.replace old new)
  | .branch condition whenTrue whenFalse =>
    if condition = old then .branch new whenTrue whenFalse
    else if whenTrue = old then .branch condition new whenFalse
    else .branch condition whenTrue (whenFalse.map (swap old new))
  | .block statements => .block (statements.replace old new)
  | .expressionStatement expression => .expressionStatement (swap old new expression)
  | .variableStatement declarations => .variableStatement (swap old new declarations)
  | .declarationList kind declarations => .declarationList kind (declarations.replace old new)
  | .declaration name initializer =>
    if name = old then .declaration new initializer
    else .declaration name (initializer.map (swap old new))
  | .emptyStatement => .emptyStatement
  | .other label children => .other label (children.replace old new)

/-- Empties the first slot position that holds `old`. A position that has to
be filled cannot be emptied, so there is no such shape then. -/
def vacate (old : α) : Shape α → Option (Shape α)
  | .sourceFile statements => some (.sourceFile (statements.erase old))
  | .call callee arguments =>
    if callee = old then none else some (.call callee (arguments.erase old))
  | .branch condition whenTrue whenFalse =>
    if condition = old ∨ whenTrue = old then none
    else some (.branch condition whenTrue (clear old whenFalse))
  | .block statements => some (.block (statements.erase old))
  | .declarationList kind declarations => some (.declarationList kind (declarations.erase old))
  | .declaration name initializer =>
    if name = old then none else some (.declaration name (clear old initializer))
  | .other label children => some (.other label (children.erase old))
  | .literal _ | .identifier _ | .unary _ _ | .binary _ _ _ | .expressionStatement _
  | .variableStatement _ | .emptyStatement => none

/-! ## 4. Children after a change -/

theorem replace_cons_eq (old new a : α) (as : List α) :
    (a :: as).replace old new = if a = old then new :: as else a :: as.replace old new := by
  by_cases h : a = old
  · subst h; simp
  · have h' : (old == a) = false := by simpa using fun e => h e.symm
    simp [List.replace_cons, h, h']

theorem singleton_swap (old new a : α) : [swap old new a] = [a].replace old new := by
  rw [replace_cons_eq, swap]
  split <;> rfl

theorem toList_map_swap (old new : α) : ∀ slot : Option α,
    (slot.map (swap old new)).toList = slot.toList.replace old new
  | none => rfl
  | some a => singleton_swap old new a

theorem toList_clear (old : α) : ∀ slot : Option α,
    (clear old slot).toList = slot.toList.erase old
  | none => rfl
  | some a => by by_cases h : a = old <;> simp [clear, h]

/-- Replacing in a shape replaces the first occurrence among the children. -/
theorem children_replace (old new : α) (shape : Shape α) :
    (shape.replace old new).children = shape.children.replace old new := by
  cases shape with
  | binary left op right =>
    by_cases h : left = old <;> simp [replace, replace_cons_eq, h, singleton_swap]
  | call callee arguments => by_cases h : callee = old <;> simp [replace, replace_cons_eq, h]
  | branch condition whenTrue whenFalse =>
    by_cases h : condition = old <;> by_cases h' : whenTrue = old <;>
      simp [replace, replace_cons_eq, h, h', toList_map_swap]
  | declaration name initializer =>
    by_cases h : name = old <;> simp [replace, replace_cons_eq, h, toList_map_swap]
  | _ => simp [replace, singleton_swap]

/-- Emptying a position of a shape erases the first occurrence among the
children. -/
theorem children_vacate {old : α} {shape rest : Shape α} (h : shape.vacate old = some rest) :
    rest.children = shape.children.erase old := by
  cases shape with
  | call callee arguments =>
    by_cases hc : callee = old
    · simp [vacate, hc] at h
    · simp [vacate, hc] at h
      subst h
      simp [hc]
  | branch condition whenTrue whenFalse =>
    by_cases hc : condition = old ∨ whenTrue = old
    · simp [vacate, hc] at h
    · simp only [vacate, hc, if_false, Option.some.injEq] at h
      subst h
      rw [not_or] at hc
      simp [hc, toList_clear]
  | declaration name initializer =>
    by_cases hc : name = old
    · simp [vacate, hc] at h
    · simp [vacate, hc] at h
      subst h
      simp [hc, toList_clear]
  | _ =>
    simp [vacate] at h
    try (subst h; simp)

end Shape

end ScriptReduce
