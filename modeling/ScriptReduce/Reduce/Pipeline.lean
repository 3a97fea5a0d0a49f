/-
ScriptReduce.Reduce.Pipeline: passes, groups of passes, and a whole run.

A pass may prepare itself before a run, and it may change the tree. What
passes remember between their runs is their common memory, of any type. A
group runs its passes in order, again and again, until none of them reports a
change or a fixed number of iterations is reached. A group is a pass like any
other, so groups may stand in groups.
-/
import ScriptReduce.Reduce.Folding
import ScriptReduce.Symbol.Scope

namespace ScriptReduce

/-- What a run works on: the tree, the context, and the memory of the passes. -/
structure Workspace (μ : Type) where
  tree : Tree
  context : Context
  memory : μ

/-- One kind of work on a tree. -/
structure Pass (μ : Type) where
  /-- What is done before a run. -/
  prepare : Context → μ → Context × μ
  /-- What is done in a run; the flag reports a change. -/
  run : Workspace μ → Except Fault (Bool × Workspace μ)

/-- A pass, or a named group of stages. -/
inductive Stage (μ : Type) where
  | pass (pass : Pass μ)
  | group (name : String) (stages : List (Stage μ))

namespace Workspace

variable {μ : Type}

/-! ## 1. Running actions together -/

/-- How many times a group may run its passes. -/
def iterationLimit : Nat := 10

/-- Does one thing after another, each whether or not there was a change
before. There is a change if any of them reports one. -/
def inOrder (actions : List (Workspace μ → Except Fault (Bool × Workspace μ)))
    (ws : Workspace μ) : Except Fault (Bool × Workspace μ) :=
  actions.foldlM
    (fun (changed, ws) action => do
      let (changes, ws) ← action ws
      return (changed || changes, ws))
    (false, ws)

/-- Repeats an action until it reports no change, at most a given number of
times, and then goes on with `giveUp`. There is a change if any repetition
reports one. -/
def untilStable (action : Workspace μ → Except Fault (Bool × Workspace μ))
    (giveUp : Workspace μ → Workspace μ) :
    Nat → Workspace μ → Except Fault (Bool × Workspace μ)
  | 0, ws => .ok (false, giveUp ws)
  | limit + 1, ws => do
    let (changed, ws) ← action ws
    if changed then
      let (_, ws) ← untilStable action giveUp limit ws
      return (true, ws)
    else return (false, ws)

/-- Warns that a group was stopped while still changing the tree. -/
def warnUnstable (group : String) (ws : Workspace μ) : Workspace μ :=
  { ws with context := ws.context.warn (.unstable group iterationLimit) }

end Workspace

namespace Stage

variable {μ : Type}

/-! ## 2. Stages -/

mutual

/-- Prepares the passes of a stage, each once, in order. -/
def prepare : Stage μ → Context → μ → Context × μ
  | .pass p, c, m => p.prepare c m
  | .group _ stages, c, m => prepareAll stages c m

def prepareAll : List (Stage μ) → Context → μ → Context × μ
  | [], c, m => (c, m)
  | stage :: more, c, m =>
    let (c, m) := stage.prepare c m
    prepareAll more c m

end

mutual

/-- Runs a stage. A group that reports a change at each of its iterations is
stopped with a warning. -/
def run : Stage μ → Workspace μ → Except Fault (Bool × Workspace μ)
  | .pass p => p.run
  | .group name stages =>
    Workspace.untilStable (Workspace.inOrder (runAll stages)) (Workspace.warnUnstable name)
      Workspace.iterationLimit

def runAll : List (Stage μ) → List (Workspace μ → Except Fault (Bool × Workspace μ))
  | [] => []
  | stage :: more => run stage :: runAll more

end

/-- Prepares a stage and runs it. -/
def optimize (stage : Stage μ) (ws : Workspace μ) : Except Fault (Bool × Workspace μ) :=
  let (context, memory) := stage.prepare ws.context ws.memory
  stage.run { ws with context, memory }

end Stage

/-! ## 3. The default run -/

/-- The pass that folds constants. It needs no memory. -/
def foldingPass {μ : Type} : Pass μ where
  prepare c m := (c, m)
  run ws := do
    let (changed, tree, context) ← foldConstants ws.tree ws.context
    return (changed, { ws with tree, context })

/-- The outermost group of a run. -/
def rootGroup {μ : Type} (stages : List (Stage μ)) : Stage μ := .group "root" stages

/-- Folds constants until nothing changes any more. -/
def optimizeIn (t : Tree) (c : Context) : Except Fault (Bool × Tree × Context) := do
  let (changed, ws) ← (rootGroup [.pass foldingPass]).optimize (⟨t, c, ()⟩ : Workspace Unit)
  return (changed, ws.tree, ws.context)

/-- Reduces a tree as far as the options allow it, and tells what could not
be reduced. -/
def optimize (t : Tree) (symbolAt : Resolver) (options : Options) :
    Except Fault (Tree × Context) := do
  let (_, t, c) ← optimizeIn t (Context.start symbolAt options)
  return (t, c)

end ScriptReduce
