/-
ScriptReduce.Reduce.Diagnostic: reports of reductions that could not be made.

A reduction that fails stops nothing: the node stays as it is, and the report
says which node and why.
-/
import ScriptReduce.Tree.Edit
import ScriptReduce.Value.Basic

namespace ScriptReduce

inductive DiagnosticKind where
  /-- The node is not held where its parent link says. -/
  | slotNotFound
  /-- The value of the node has no literal. -/
  | unmaterializableLiteral
deriving DecidableEq

namespace DiagnosticKind

def name : DiagnosticKind → String
  | .slotNotFound => "SlotNotFound"
  | .unmaterializableLiteral => "UnmaterializableLiteral"

def all : List DiagnosticKind := [.slotNotFound, .unmaterializableLiteral]

def ofName? (s : String) : Option DiagnosticKind := all.find? fun kind => kind.name == s

end DiagnosticKind

structure Diagnostic where
  kind : DiagnosticKind
  /-- The node that could not be reduced. -/
  node : NodeId
  span : Option Span
  message : String
deriving DecidableEq

namespace Diagnostic

/-- The diagnostic as shown to people, with its place in the source if that
is known and the node if not. -/
def display (d : Diagnostic) : String :=
  match d.span with
  | some span => "WARNING: " ++ d.message ++ " on line " ++ span.start.display
  | none => "WARNING: " ++ d.message ++ " (" ++ d.node.display ++ ")"

/-- A node could not be replaced by another. -/
def ofReplace (t : Tree) (e : EditError) (replacement : NodeId) : Except Fault Diagnostic := do
  let node ← t.node e.node
  let replacement ← t.node replacement
  return ⟨.slotNotFound, e.node, node.span,
    "Failed to substitute " ++ node.shape.kindName ++ " with " ++ replacement.shape.kindName
      ++ ": " ++ e.message⟩

/-- A node could not be removed. -/
def ofRemove (t : Tree) (e : EditError) : Except Fault Diagnostic := do
  let node ← t.node e.node
  return ⟨.slotNotFound, e.node, node.span,
    "Failed to remove " ++ node.shape.kindName ++ ": " ++ e.message⟩

/-- A node could not be replaced by its value. -/
def ofValue (t : Tree) (id : NodeId) (value : Value) : Except Fault Diagnostic := do
  let node ← t.node id
  return ⟨.unmaterializableLiteral, id, node.span,
    "Failed to replace " ++ node.shape.kindName ++ " with the " ++ value.typeName ++ " "
      ++ value.display ++ ", it has no literal form"⟩

end Diagnostic

end ScriptReduce
