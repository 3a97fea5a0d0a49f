/-
ScriptReduce.Tree.Term: programs without a store.

A term holds its children themselves instead of their identifiers. `Tree.term`
reads a term out of a tree, from a node downwards; nodes held by several slots
are read once for each. The depth of a tree that does not contain itself is at
most its number of nodes, so a longer descent is reported as endless.
-/
import ScriptReduce.Tree.Basic

namespace ScriptReduce

/-- A node of a program with its descendants. Each carries a label, such as
the identifier it had. -/
inductive Term (ι : Type) where
  | mk (label : ι) (shape : Shape (Term ι))

namespace Term

variable {ι : Type}

def label : Term ι → ι
  | .mk label _ => label

def shape : Term ι → Shape (Term ι)
  | .mk _ shape => shape

end Term

namespace Tree

/-- How deep a descent through the slots of a tree can go without meeting a
node twice, counting one more for a node that is not there. -/
def depthLimit (t : Tree) : Nat := t.size + 1

/-- Reads a term, descending at most a given number of steps. -/
def termWithin (t : Tree) : Nat → NodeId → Except Fault (Term NodeId)
  | 0, _ => .error .endless
  | depth + 1, id => do
    let shape ← t.shape id
    return .mk id (← shape.traverse (t.termWithin depth))

/-- The term below a node. -/
def term (t : Tree) (id : NodeId) : Except Fault (Term NodeId) :=
  t.termWithin t.depthLimit id

/-- Lists a node and its descendants, descending at most a given number of
steps. -/
def preorderWithin (t : Tree) : Nat → NodeId → Except Fault (List NodeId)
  | 0, _ => .error .endless
  | depth + 1, id => do
    let below ← (← t.children id).mapM (t.preorderWithin depth)
    return id :: below.flatten

/-- A node and its descendants, each before its own children. -/
def preorder (t : Tree) (id : NodeId) : Except Fault (List NodeId) :=
  t.preorderWithin t.depthLimit id

/-- The descendants of a node. -/
def descendants (t : Tree) (id : NodeId) : Except Fault (List NodeId) := do
  let below ← (← t.children id).mapM t.preorder
  return below.flatten

end Tree

end ScriptReduce
