/-
ScriptReduce.Reduce.Evaluate: the value of an expression before it is run.

An expression has a value if that value follows from its literals, its
operators and the constants it names. An identifier has the value of the
initializer that its symbol's declaration gives a constant. While that
initializer is evaluated, its declaration is marked, and an identifier that
leads back to a marked declaration has no value; so constants that refer to
each other in a circle are left alone.

An expression without a value is not an error: it depends on something that
only running the program can tell.
-/
import ScriptReduce.Value.Operator
import ScriptReduce.Symbol.Table

namespace ScriptReduce

/-- What evaluation found: the value, if there is one, and the identifiers
whose symbol was asked for, in order. -/
structure Outcome where
  value : Option Value
  asked : List NodeId
deriving DecidableEq

namespace Outcome

/-- There is no value, and nothing was asked. -/
def nothing : Outcome := ⟨none, []⟩

/-- The outcome after some identifiers were asked for before. -/
def after (asked : List NodeId) (o : Outcome) : Outcome := ⟨o.value, asked ++ o.asked⟩

end Outcome

/-- What evaluation may look at. -/
structure Evaluator where
  tree : Tree
  symbolAt : Resolver
  /-- Whether identifiers may be looked through. -/
  propagate : Bool

namespace Evaluator

variable (ev : Evaluator)

/-! ## 1. Constants -/

/-- The initializer of a declaration, if the declaration stands in a list of
constants. -/
def initializer? (declaration : NodeId) : Except Fault (Option NodeId) := do
  match ← ev.tree.shape declaration with
  | .declaration _ (some initializer) =>
    match ← ev.tree.parent declaration with
    | none => return none
    | some list =>
      match ← ev.tree.shape list with
      | .declarationList .constant _ => return some initializer
      | _ => return none
  | _ => return none

/-- Whether the symbol of an identifier is to be asked for: not if constants
are not looked through, nor for a node without a parent, nor for the very
name that a declaration declares. -/
def isUse (identifier : NodeId) : Except Fault Bool := do
  if !ev.propagate then return false
  match ← ev.tree.parent identifier with
  | none => return false
  | some _ => return !(← ev.tree.isDeclarationName identifier)

/-- The declaration and the initializer of the constant that an identifier
refers to, if it refers to one. -/
def constant? (identifier : NodeId) : Except Fault (Option (NodeId × NodeId)) := do
  match ev.symbolAt identifier with
  | none => return none
  | some symbol =>
    if symbol.kind.isImmutable then
      match symbol.declaration with
      | none => return none
      | some declaration =>
        return (← ev.initializer? declaration).map fun initializer => (declaration, initializer)
    else return none

/-! ## 2. Expressions -/

/-- The value of an identifier, given how to evaluate an initializer while
some declarations are marked. -/
def resolveWith (eval : List NodeId → NodeId → Except Fault Outcome) (marked : List NodeId)
    (identifier : NodeId) : Except Fault Outcome := do
  if ← ev.isUse identifier then
    match ← ev.constant? identifier with
    | none => return ⟨none, [identifier]⟩
    | some (declaration, initializer) =>
      if marked.contains declaration then return ⟨none, [identifier]⟩
      else return (← eval (declaration :: marked) initializer).after [identifier]
  else return .nothing

/-- The value of an expression while some declarations are marked, descending
at most a given number of steps. -/
def evalWithin : Nat → List NodeId → NodeId → Except Fault Outcome
  | 0, _, _ => .error .endless
  | depth + 1, marked, id => do
    match ← ev.tree.shape id with
    | .literal literal => return ⟨Value.ofLiteral? literal, []⟩
    | .unary .not operand =>
      let o ← evalWithin depth marked operand
      return { o with value := o.value.map fun value => .boolean !value.isTruthy }
    | .binary left op right =>
      let l ← evalWithin depth marked left
      match l.value with
      | none => return l
      | some value =>
        if op.isSettledBy value then return l
        else
          let r ← evalWithin depth marked right
          return ⟨r.value.bind (op.apply value), l.asked ++ r.asked⟩
    | .identifier _ => ev.resolveWith (evalWithin depth) marked id
    | _ => return .nothing

/-- A descent can pass every node once for each set of declarations that may
be marked on its way, and these sets only grow; one step more finds a node
that is not there. -/
def depthLimit : Nat := (ev.tree.size + 1) * (ev.tree.size + 1)

/-- The value of an expression. -/
def evaluate (id : NodeId) : Except Fault Outcome := ev.evalWithin ev.depthLimit [] id

/-- The value of a node taken as an identifier, whatever it is. -/
def resolve (id : NodeId) : Except Fault Outcome :=
  ev.resolveWith (ev.evalWithin ev.depthLimit) [] id

end Evaluator

end ScriptReduce
