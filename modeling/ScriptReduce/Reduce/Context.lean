/-
ScriptReduce.Reduce.Context: what the passes of one run share.

The context answers questions about symbols, holds the options and collects
diagnostics. A diagnostic is reported once for each kind and node, however
often the reduction is tried again. The context also keeps a journal of the
changes that the passes made to the tree.
-/
import ScriptReduce.Reduce.Diagnostic
import ScriptReduce.Reduce.Evaluate

namespace ScriptReduce

/-- Which reductions may be made. -/
structure Options where
  /-- Replace operators on known values by literals. -/
  fold : Bool
  /-- Replace `if` statements with a known condition by the selected branch. -/
  branches : Bool
  /-- Look through identifiers that refer to constants. -/
  propagate : Bool
deriving DecidableEq

namespace Options

def all : Options := ⟨true, true, true⟩

def none : Options := ⟨false, false, false⟩

/-- Everything is reduced unless it is asked not to be. -/
def default : Options := all

end Options

/-- What a run tells the one who watches it. -/
inductive Warning where
  | reported (diagnostic : Diagnostic)
  /-- A group of passes was stopped while still changing the tree. -/
  | unstable (group : String) (iterations : Nat)
deriving DecidableEq

def Warning.text : Warning → String
  | .reported diagnostic => diagnostic.display
  | .unstable group iterations =>
    "Pass group " ++ group ++ " still changing after " ++ toString iterations
      ++ " iterations, stopping"

/-- A change that a pass made to the tree. -/
inductive Change where
  /-- A node gave way to a new literal of its value. -/
  | folded (node literal : NodeId) (value : Value)
  /-- An `if` statement gave way to the branch it selects. -/
  | selected (node branch : NodeId)
  /-- An `if` statement that selects no branch was taken out. A position that
  has to be filled got an empty statement. -/
  | dropped (node : NodeId) (placeholder : Option NodeId)
deriving DecidableEq

/-- The node that lost its place. -/
def Change.node : Change → NodeId
  | .folded node _ _ | .selected node _ | .dropped node _ => node

structure Context where
  symbolAt : Resolver
  options : Options
  /-- The diagnostics in the order they were reported. -/
  diagnostics : List Diagnostic
  /-- The warnings in the order they were given. -/
  warnings : List Warning
  /-- How many times the symbol of an identifier was asked for. -/
  lookups : Nat
  /-- The changes made to the tree, the latest first. -/
  changes : List Change

namespace Context

def start (symbolAt : Resolver) (options : Options) : Context :=
  ⟨symbolAt, options, [], [], 0, []⟩

def warn (c : Context) (warning : Warning) : Context :=
  { c with warnings := c.warnings ++ [warning] }

/-- Whether a diagnostic of the same kind was reported for the same node. -/
def hasReported (c : Context) (d : Diagnostic) : Bool :=
  c.diagnostics.any fun earlier => earlier.kind = d.kind && earlier.node = d.node

/-- Reports a diagnostic, unless that was done before. -/
def report (c : Context) (d : Diagnostic) : Context :=
  if c.hasReported d then c
  else { c with diagnostics := c.diagnostics ++ [d] }.warn (.reported d)

/-- Notes a change in the journal. -/
def record (c : Context) (change : Change) : Context :=
  { c with changes := change :: c.changes }

/-- Evaluation of a tree under the options of the run. -/
def evaluator (c : Context) (t : Tree) : Evaluator := ⟨t, c.symbolAt, c.options.propagate⟩

/-- Counts the questions that evaluation asked. -/
def note (c : Context) (o : Outcome) : Context :=
  { c with lookups := c.lookups + o.asked.length }

/-- The value of an expression. -/
def evaluate (c : Context) (t : Tree) (id : NodeId) : Except Fault (Option Value × Context) := do
  let o ← (c.evaluator t).evaluate id
  return (o.value, c.note o)

/-- The value of a node taken as an identifier. -/
def resolve (c : Context) (t : Tree) (id : NodeId) : Except Fault (Option Value × Context) := do
  let o ← (c.evaluator t).resolve id
  return (o.value, c.note o)

/-- Replaces a node, or reports that it could not be; the flag tells which. -/
def replace (c : Context) (t : Tree) (old new : NodeId) :
    Except Fault (Bool × Tree × Context) := do
  match ← t.replace old new with
  | .ok t => return (true, t, c)
  | .error e => return (false, t, c.report (← Diagnostic.ofReplace t e new))

end Context

end ScriptReduce
