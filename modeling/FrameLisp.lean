import FrameLisp.Text.Blank
import FrameLisp.Text.Quoted
import FrameLisp.Number.Binary
import FrameLisp.Number.Decimal
import FrameLisp.Number.Literal
import FrameLisp.Number.Text
import FrameLisp.Primitive
import FrameLisp.Datum
import FrameLisp.Token
import FrameLisp.Reader
import FrameLisp.Value
import FrameLisp.Bindings
import FrameLisp.Error
import FrameLisp.Store
import FrameLisp.Number.Arithmetic
import FrameLisp.Eval.Machine
import FrameLisp.Eval.Builtin
import FrameLisp.Eval.Derived
import FrameLisp.Eval.Basic
import FrameLisp.Snapshot.Basic
import FrameLisp.Snapshot.Graph
import FrameLisp.Interpreter
import FrameLisp.Host.Arguments
import FrameLisp.Host.Registry
import FrameLisp.Host.Stock
import FrameLisp.Export
import FrameLisp.Console
import FrameLisp.Main
import FrameLisp.Proofs.Number.Nearest
import FrameLisp.Proofs.Number.Pattern
import FrameLisp.Proofs.Number.ReadBack
import FrameLisp.Proofs.Number.Whole
import FrameLisp.Proofs.Reading.Scanning
import FrameLisp.Proofs.Reading.Forms
import FrameLisp.Proofs.Reading.Passes
import FrameLisp.Proofs.Reading.Balanced
import FrameLisp.Proofs.Reading.Descent
import FrameLisp.Proofs.Reading.Numerals
import FrameLisp.Proofs.Reading.Layout
import FrameLisp.Proofs.Reading.Report
import FrameLisp.Proofs.Value.Parts
import FrameLisp.Proofs.Value.Correspondence
import FrameLisp.Proofs.Reading.Words
import FrameLisp.Proofs.Reading.Printing
import FrameLisp.Proofs.Store.Chain
import FrameLisp.Proofs.Store.Discovery
import FrameLisp.Proofs.Store.Traversal
import FrameLisp.Proofs.Store.Similar
import FrameLisp.Proofs.Store.Vocabulary
import FrameLisp.Proofs.Snapshot.Text
import FrameLisp.Proofs.Snapshot.Canonical
import FrameLisp.Proofs.Snapshot.RoundTrip
import FrameLisp.Proofs.Eval.Outcome
import FrameLisp.Proofs.Eval.Coupling
import FrameLisp.Proofs.Eval.Lockstep
import FrameLisp.Proofs.Eval.Similarity
import FrameLisp.Proofs.Snapshot.Reload
import FrameLisp.Proofs.Eval.Discipline
import FrameLisp.Proofs.Eval.Isolation
import FrameLisp.Proofs.Eval.Interleaving
import FrameLisp.Proofs.Eval.Invariant
import FrameLisp.Proofs.Eval.Names
import FrameLisp.Proofs.Snapshot.Collection
import FrameLisp.Proofs.Eval.Scripts
import FrameLisp.Proofs.Snapshot.Structure
import FrameLisp.Proofs.Snapshot.Faithful
import FrameLisp.Proofs.Snapshot.Grammar
import FrameLisp.Proofs.Snapshot.Positions
import FrameLisp.Proofs.Snapshot.Loading
import FrameLisp.Proofs.Snapshot.Replacing
import FrameLisp.Proofs.Eval.Runs
import FrameLisp.Proofs.Eval.Identities
import FrameLisp.Proofs.Eval.Unmentioned
import FrameLisp.Proofs.Eval.Purity
import FrameLisp.Proofs.Snapshot.Savable
import FrameLisp.Proofs.Snapshot.Refusal
import FrameLisp.Proofs.Eval.Congruence
import FrameLisp.Proofs.Eval.Stages
import FrameLisp.Proofs.Eval.Depth
import FrameLisp.Proofs.Eval.ApplyForm
import FrameLisp.Proofs.Console.Sessions
import FrameLisp.Proofs.Store.Resolution
import FrameLisp.Proofs.Eval.Order
import FrameLisp.Proofs.Eval.LocalBindings
import FrameLisp.Proofs.Eval.FunctionDefinition
