import ScriptReduce.Reduce.Pipeline
import ScriptReduce.Tree.Build
import ScriptReduce.Tree.Print
import ScriptReduce.Symbol.Scope
import ScriptReduce.Proofs.Reduce.Pure
import ScriptReduce.Proofs.Reduce.Rooted
import ScriptReduce.Proofs.Reduce.Settled
import ScriptReduce.Proofs.Reduce.Values
import ScriptReduce.Proofs.Reduce.Effects
import ScriptReduce.Proofs.Reduce.Contained
import ScriptReduce.Proofs.Tree.History
import ScriptReduce.Proofs.Reduce.Steps
import ScriptReduce.Proofs.Reduce.Frame
import ScriptReduce.Proofs.Reduce.Dangling
import ScriptReduce.Proofs.Reduce.Quiet
import ScriptReduce.Proofs.Symbol.Scopes
import ScriptReduce.Proofs.Reduce.References
import ScriptReduce.Proofs.Evaluate.BigStep
import ScriptReduce.Proofs.Reduce.Flag
import ScriptReduce.Proofs.Tree.InPlace
import ScriptReduce.Proofs.Reduce.Updates
import ScriptReduce.Proofs.Reduce.Reported
import ScriptReduce.Proofs.Reduce.Pipeline
import ScriptReduce.Proofs.Symbol.Lexical
import ScriptReduce.Proofs.Reduce.Diagnosed
import ScriptReduce.Proofs.Symbol.Position
import ScriptReduce.Proofs.Number.Strings
import ScriptReduce.Proofs.Text.Units
import ScriptReduce.Proofs.Value.Compare
import ScriptReduce.Proofs.Number.Signed
import ScriptReduce.Proofs.Number.Int32
import ScriptReduce.Proofs.Text.Pieces
import ScriptReduce.Proofs.Tree.Readable
import ScriptReduce.Proofs.Tree.Callee
import ScriptReduce.Proofs.Text.Repeats
import ScriptReduce.Proofs.Tree.Opening
import ScriptReduce.Proofs.Reduce.Openings
import ScriptReduce.Proofs.Reduce.Signs
