/-
ScriptReduce.Tree.Build: adding the statements that programs are mostly made
of. Children are given, or added first; the node itself comes last.
-/
import ScriptReduce.Tree.Basic

namespace ScriptReduce.Tree

/-- Adds a negation. -/
def addNot (t : Tree) (operand : NodeId) : Except Fault (NodeId × Tree) :=
  t.add (.unary .not operand)

/-- Adds the statement `name(arguments);`. -/
def addCallStatement (t : Tree) (name : String) (arguments : List NodeId) :
    Except Fault (NodeId × Tree) := do
  let (callee, t) ← t.add (.identifier name)
  let (call, t) ← t.add (.call callee arguments)
  t.add (.expressionStatement call)

/-- Adds the declaration of a name. -/
def addDeclaration (t : Tree) (name : String) (initializer : Option NodeId) :
    Except Fault (NodeId × Tree) := do
  let (name, t) ← t.add (.identifier name)
  t.add (.declaration name initializer)

/-- Adds a statement of declarations. -/
def addVariableStatement (t : Tree) (kind : BindingKind) (declarations : List NodeId) :
    Except Fault (NodeId × Tree) := do
  let (list, t) ← t.add (.declarationList kind declarations)
  t.add (.variableStatement list)

/-- Adds a statement that declares a single name, as in
`const name = initializer;`. -/
def addBinding (t : Tree) (kind : BindingKind) (name : String) (initializer : NodeId) :
    Except Fault (NodeId × Tree) := do
  let (declaration, t) ← t.addDeclaration name (some initializer)
  t.addVariableStatement kind [declaration]

/-- Adds the source file around the statements, as the root. -/
def finish (t : Tree) (statements : List NodeId) : Except Fault Tree := do
  let (root, t) ← t.add (.sourceFile statements)
  return t.setRoot root

end ScriptReduce.Tree
