/-
ScriptReduce.Tree.Edit: putting a node in another's place, and taking a node
out.

Both work on the slot that holds the node in its parent. A node without a
parent cannot be edited, nor one whose parent does not hold it; the tree is
then left as it was.
-/
import ScriptReduce.Tree.Basic

namespace ScriptReduce

/-- Why a node cannot be replaced or removed. -/
inductive EditError where
  /-- The node has no parent. -/
  | detached (node : NodeId)
  /-- The node's parent holds it in none of its slots. -/
  | notHeld (node parent : NodeId)
deriving DecidableEq

namespace EditError

/-- The node that could not be edited. -/
def node : EditError → NodeId
  | .detached node | .notHeld node _ => node

def message : EditError → String
  | .detached node => node.display ++ " is not attached to a parent"
  | .notHeld node parent =>
    node.display ++ " does not occupy a slot of its parent " ++ parent.display

end EditError

namespace Tree

/-- Puts `new` into the slot that holds `old`. The parent of `old` becomes
the parent of `new`, and `old` has none any more. -/
def replace (t : Tree) (old new : NodeId) : Except Fault (Except EditError Tree) := do
  match ← t.parent old with
  | none => return .error (.detached old)
  | some parent =>
    let shape ← t.shape parent
    if shape.children.contains old then
      let t ← t.setShape parent (shape.replace old new)
      let t ← t.setParent new (some parent)
      let t ← t.setParent old none
      return .ok t
    else return .error (.notHeld old parent)

/-- Takes `old` out of its parent. A slot that has to be filled gets a new
empty statement, which is returned; any other is emptied. -/
def remove (t : Tree) (old : NodeId) :
    Except Fault (Except EditError (Option NodeId × Tree)) := do
  match ← t.parent old with
  | none => return .error (.detached old)
  | some parent =>
    let shape ← t.shape parent
    if shape.children.contains old then
      match shape.vacate old with
      | some rest =>
        let t ← t.setShape parent rest
        let t ← t.setParent old none
        return .ok (none, t)
      | none =>
        let (placeholder, t) ← t.add .emptyStatement
        match ← t.replace old placeholder with
        | .ok t => return .ok (some placeholder, t)
        | .error e => return .error e
    else return .error (.notHeld old parent)

end Tree

end ScriptReduce
