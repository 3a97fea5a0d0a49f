/-
ScriptReduce.Tree.Basic: the store of nodes.

A tree keeps its nodes in one array, in the order they were added; a node's
identifier is its place there, and no node is ever taken out. Children are
the identifiers in a node's slots. The parent link goes the other way, back
to the node whose slot holds this one; it is kept beside the slots, so the
two can disagree if somebody sets it by hand. A tree has room for any number
of nodes: that identifiers fit 32 bits (`Id.largest`) is left out here.

Looking at a node that the store does not have is a `Fault`, as is a walk
that goes deeper than any walk without a repetition can.
-/
import ScriptReduce.Id
import ScriptReduce.Span
import ScriptReduce.Tree.Shape

namespace ScriptReduce

abbrev NodeId := Id "NodeId"

/-- Why a question about a tree has no answer. -/
inductive Fault where
  | noSuchNode (id : NodeId)
  | endless
deriving DecidableEq

structure Node where
  shape : Shape NodeId
  /-- The node whose slot holds this one. -/
  parent : Option NodeId
  /-- Where the node was read from. A node made later has no span. -/
  span : Option Span
deriving DecidableEq

structure Tree where
  nodes : Array Node
  root : Option NodeId
deriving DecidableEq

namespace Tree

def empty : Tree := ⟨#[], none⟩

/-! ## 1. Reading -/

def size (t : Tree) : Nat := t.nodes.size

def isEmpty (t : Tree) : Bool := t.nodes.isEmpty

def node (t : Tree) (id : NodeId) : Except Fault Node :=
  match t.nodes[id.index]? with
  | some node => .ok node
  | none => .error (.noSuchNode id)

def shape (t : Tree) (id : NodeId) : Except Fault (Shape NodeId) :=
  return (← t.node id).shape

def parent (t : Tree) (id : NodeId) : Except Fault (Option NodeId) :=
  return (← t.node id).parent

def span (t : Tree) (id : NodeId) : Except Fault (Option Span) :=
  return (← t.node id).span

def children (t : Tree) (id : NodeId) : Except Fault (List NodeId) :=
  return (← t.shape id).children

/-- Whether a node is the name that its parent, a declaration, declares. -/
def isDeclarationName (t : Tree) (id : NodeId) : Except Fault Bool := do
  match ← t.parent id with
  | none => return false
  | some parent =>
    match ← t.shape parent with
    | .declaration name _ => return name = id
    | _ => return false

/-! ## 2. Changing -/

/-- Changes one node in place. -/
def modify (t : Tree) (id : NodeId) (f : Node → Node) : Except Fault Tree :=
  if id.index < t.nodes.size then .ok { t with nodes := t.nodes.modify id.index f }
  else .error (.noSuchNode id)

def setShape (t : Tree) (id : NodeId) (shape : Shape NodeId) : Except Fault Tree :=
  t.modify id fun node => { node with shape := shape }

def setParent (t : Tree) (id : NodeId) (parent : Option NodeId) : Except Fault Tree :=
  t.modify id fun node => { node with parent := parent }

def setSpan (t : Tree) (id : NodeId) (span : Span) : Except Fault Tree :=
  t.modify id fun node => { node with span := some span }

def setRoot (t : Tree) (root : NodeId) : Tree := { t with root := some root }

/-- Makes one node the parent of each of the others. -/
def adopt (t : Tree) (parent : NodeId) (children : List NodeId) : Except Fault Tree :=
  children.foldlM (fun t child => t.setParent child (some parent)) t

/-- Adds a node without a parent and makes it the parent of its children,
which may include itself. -/
def add (t : Tree) (shape : Shape NodeId) : Except Fault (NodeId × Tree) := do
  let id : NodeId := ⟨t.size⟩
  let t ← { t with nodes := t.nodes.push ⟨shape, none, none⟩ }.adopt id shape.children
  return (id, t)

/-! ## 3. What a change leaves alone -/

theorem node_eq_ok_iff {t : Tree} {id : NodeId} {n : Node} :
    t.node id = .ok n ↔ t.nodes[id.index]? = some n := by
  unfold node
  split <;> simp_all

theorem modify_eq_ok_iff {t u : Tree} {id : NodeId} {f : Node → Node} :
    t.modify id f = .ok u ↔
      id.index < t.size ∧ u = { t with nodes := t.nodes.modify id.index f } := by
  unfold modify size
  split <;> rename_i h
  · simp [h, eq_comm]
  · simp [h]

theorem root_modify {t u : Tree} {id : NodeId} {f : Node → Node} (h : t.modify id f = .ok u) :
    u.root = t.root := by
  rw [(modify_eq_ok_iff.1 h).2]

theorem size_modify {t u : Tree} {id : NodeId} {f : Node → Node} (h : t.modify id f = .ok u) :
    u.size = t.size := by
  rw [(modify_eq_ok_iff.1 h).2]
  exact Array.size_modify

/-- Only the changed node differs. -/
theorem getElem?_modify {t u : Tree} {id : NodeId} {f : Node → Node} (h : t.modify id f = .ok u)
    (i : Nat) : u.nodes[i]? = if id.index = i then t.nodes[i]?.map f else t.nodes[i]? := by
  rw [(modify_eq_ok_iff.1 h).2]
  exact Array.getElem?_modify

end Tree

end ScriptReduce
