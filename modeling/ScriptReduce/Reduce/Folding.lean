/-
ScriptReduce.Reduce.Folding: the reduction of a tree in a single walk.

The walk offers each node for reduction before it goes to the children. An
`if` statement whose condition is known gives way to the branch it selects,
an operator on known values to a literal, and so does an identifier that
refers to a constant, where a literal may stand. The walk goes on at what has
taken the node's place, so what comes to light by one reduction is reduced in
the same walk.
-/
import ScriptReduce.Reduce.Context

namespace ScriptReduce

/-- What a walk carries along: the tree, the context of the run, and whether
the tree was changed. -/
structure Walk where
  tree : Tree
  context : Context
  changed : Bool

/-- What became of a node that was offered for reduction. -/
inductive Reduction where
  | unchanged
  | replaced (new : NodeId)
  | removed
deriving DecidableEq

namespace Walk

/-! ## 1. Single reductions -/

/-- Puts a value in the place of a node, as a new literal. -/
def install (w : Walk) (id : NodeId) (value : Value) : Except Fault (Reduction × Walk) := do
  match value.toLiteral? with
  | none =>
    let d ← Diagnostic.ofValue w.tree id value
    return (.unchanged, { w with context := w.context.report d })
  | some literal =>
    let (new, tree) ← w.tree.add (.literal literal)
    let (done, tree, context) ← w.context.replace tree id new
    if done then
      return (.replaced new, { w with tree, context := context.record (.folded id new value) })
    else return (.unchanged, { w with tree, context })

/-- Puts the value of a node in its place, if it has one. -/
def installIfKnown (w : Walk) (id : NodeId) : Option Value → Except Fault (Reduction × Walk)
  | none => .ok (.unchanged, w)
  | some value => w.install id value

/-- Takes out an `if` statement that selects no branch. -/
def drop (w : Walk) (id : NodeId) : Except Fault (Reduction × Walk) := do
  match ← w.tree.remove id with
  | .ok (placeholder, tree) =>
    let context := w.context.record (.dropped id placeholder)
    return (placeholder.elim .removed .replaced, { w with tree, context })
  | .error e =>
    let d ← Diagnostic.ofRemove w.tree e
    return (.unchanged, { w with context := w.context.report d })

/-- Puts a branch in the place of its `if` statement. -/
def select (w : Walk) (id selected : NodeId) : Except Fault (Reduction × Walk) := do
  let (done, tree, context) ← w.context.replace w.tree id selected
  if done then
    return (.replaced selected, { w with tree, context := context.record (.selected id selected) })
  else return (.unchanged, { w with tree, context })

/-- Reduces an `if` statement. -/
def decideBranch (w : Walk) (id condition whenTrue : NodeId) (whenFalse : Option NodeId) :
    Except Fault (Reduction × Walk) := do
  let (value, context) ← w.context.evaluate w.tree condition
  let w := { w with context }
  match value with
  | none => return (.unchanged, w)
  | some value =>
    match if value.isTruthy then some whenTrue else whenFalse with
    | some selected => w.select id selected
    | none => w.drop id

/-- Whether a literal may stand in the place of an identifier: as an argument
of a call, or as an operand of a binary operator that does not assign to it. -/
def isSubstitutionSite (t : Tree) (id : NodeId) : Except Fault Bool := do
  match ← t.parent id with
  | none => return false
  | some parent =>
    match ← t.shape parent with
    | .call _ arguments => return arguments.contains id
    | .binary left op _ => return !(op.isAssignment && left == id)
    | _ => return false

/-- Reduces an operator on known values. -/
def foldOperator (w : Walk) (id : NodeId) : Except Fault (Reduction × Walk) := do
  let (value, context) ← w.context.evaluate w.tree id
  { w with context }.installIfKnown id value

/-- Reduces an identifier that refers to a constant. -/
def substitute (w : Walk) (id : NodeId) : Except Fault (Reduction × Walk) := do
  if ← isSubstitutionSite w.tree id then
    let (value, context) ← w.context.resolve w.tree id
    { w with context }.installIfKnown id value
  else return (.unchanged, w)

/-- Reduces a node, as far as the options allow it. -/
def reduce (w : Walk) (id : NodeId) : Except Fault (Reduction × Walk) := do
  let options := w.context.options
  match ← w.tree.shape id with
  | .branch condition whenTrue whenFalse =>
    if options.branches then w.decideBranch id condition whenTrue whenFalse
    else return (.unchanged, w)
  | .binary _ _ _ | .unary _ _ =>
    if options.fold then w.foldOperator id else return (.unchanged, w)
  | .identifier _ =>
    if options.propagate then w.substitute id else return (.unchanged, w)
  | _ => return (.unchanged, w)

/-! ## 2. The walk -/

/-- Reduces a node and what is below it, descending at most a given number of
steps. The children are those that the node has when the walk gets to it. -/
def visitWithin : Nat → Walk → NodeId → Except Fault Walk
  | 0, _, _ => .error .endless
  | depth + 1, w, id => do
    let (reduction, w) ← w.reduce id
    match reduction with
    | .replaced new => visitWithin depth { w with changed := true } new
    | .removed => return { w with changed := true }
    | .unchanged => (← w.tree.children id).foldlM (visitWithin depth) w

/-- A generous bound on the depth of a walk: in a tree that does not contain
itself every step leads further down, and at the end to a new literal. -/
def depthLimit (t : Tree) : Nat := (t.size + 2) * (t.size + 2)

end Walk

/-- Reduces a tree once, from the root. The flag tells whether it was
changed. -/
def foldConstants (t : Tree) (c : Context) : Except Fault (Bool × Tree × Context) :=
  match t.root with
  | none => .ok (false, t, c)
  | some root => do
    let w ← Walk.visitWithin (Walk.depthLimit t) ⟨t, c, false⟩ root
    return (w.changed, w.tree, w.context)

end ScriptReduce
