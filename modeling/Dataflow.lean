import Dataflow.Proofs.Evaluation.Gather
import Dataflow.Proofs.Signal
import Dataflow.Proofs.Model
import Dataflow.Archive.Basic
import Dataflow.Archive.Document
import Dataflow.Archive.Json
import Dataflow.Archive.Reading
import Dataflow.Archive.Writing
import Dataflow.Builtin.Basic
import Dataflow.Builtin.Refinement
import Dataflow.Decimal.Layout
import Dataflow.Decimal.Numeral
import Dataflow.Decimal.Shortest
import Dataflow.Description
import Dataflow.Description.Editing
import Dataflow.Error
import Dataflow.Fields
import Dataflow.Json.Basic
import Dataflow.Json.Decode
import Dataflow.Json.Printer
import Dataflow.Json.Reader
import Dataflow.Json.Token
import Dataflow.Main
import Dataflow.Model.Archive
import Dataflow.Model.Basic
import Dataflow.Model.Evaluator
import Dataflow.Model.Refinement
import Dataflow.Model.Transformer
import Dataflow.Object
import Dataflow.Operation
import Dataflow.Pipeline
import Dataflow.Predictor
import Dataflow.Registry
import Dataflow.Report
import Dataflow.Scripted
import Dataflow.Settings.Basic
import Dataflow.Settings.Check
import Dataflow.Settings.File
import Dataflow.Settings.Flags
import Dataflow.Settings.Substitution
import Dataflow.Signal
import Dataflow.Signal.Json
import Dataflow.Size
import Dataflow.Text.Blank
import Dataflow.Text.Utf8
import Dataflow.Timestamp
import Dataflow.Toml.Decode
import Dataflow.Toml.Document
import Dataflow.Toml.Reader
import Dataflow.Toml.Scalar
import Dataflow.Toml.Token
import Dataflow.Value
import Dataflow.Width
import Dataflow.Wire.Archive
import Dataflow.Wire.Basic
import Dataflow.Wire.Json
import Dataflow.Proofs.Evaluation.Values
import Dataflow.Proofs.Evaluation.Cache
import Dataflow.Proofs.Evaluation.History
import Dataflow.Proofs.Builtin.Made
import Dataflow.Proofs.Builtin.Progress
import Dataflow.Proofs.Refinement.Rewire
import Dataflow.Proofs.Refinement.Trim
import Dataflow.Proofs.Refinement.Clip
import Dataflow.Proofs.Refinement.Remap
import Dataflow.Proofs.Refinement.Realise
import Dataflow.Proofs.Refinement.Steps
import Dataflow.Proofs.Refinement.Actions
import Dataflow.Proofs.Refinement.Passes
import Dataflow.Proofs.Refinement.Copyable
import Dataflow.Proofs.Refinement.Inputs
import Dataflow.Proofs.Refinement.Loop
import Dataflow.Proofs.Refinement.Reachable
import Dataflow.Proofs.Refinement.Mapping
import Dataflow.Proofs.Obtained
import Dataflow.Proofs.Refinement.Outputs
import Dataflow.Proofs.Pipeline
import Dataflow.Proofs.Refinement.Calls
import Dataflow.Proofs.Refinement.Confined
import Dataflow.Proofs.Archive.Json
import Dataflow.Proofs.Archive.Model
import Dataflow.Proofs.Refinement.Wayward
import Dataflow.Proofs.Refinement.Coverage
import Dataflow.Proofs.Refinement.Rollback
import Dataflow.Proofs.Refinement.Kept
import Dataflow.Proofs.Verification
import Dataflow.Proofs.Archive.Stored
import Dataflow.Proofs.Delivery
import Dataflow.Proofs.Refinement.Lowering
import Dataflow.Proofs.Description
import Dataflow.Proofs.Refinement.Fidelity
import Dataflow.Proofs.Validity
import Dataflow.Proofs.Archive.Containment
import Dataflow.Proofs.Refinement.Composition
import Dataflow.Proofs.Refinement.Typing
import Dataflow.Proofs.Refinement.Bounded
import Dataflow.Proofs.Evaluation.Search
import Dataflow.Proofs.Evaluation.Dependence
import Dataflow.Proofs.Evaluation.Requests
import Dataflow.Proofs.Slicing
import Dataflow.Proofs.Evaluation.Binding
import Dataflow.Proofs.Description.Depth
import Dataflow.Proofs.Description.Editing
import Dataflow.Proofs.Description.Shapes
import Dataflow.Proofs.Archive.Properties
import Dataflow.Proofs.Refinement.Elements
import Dataflow.Proofs.Substitution
import Dataflow.Proofs.Settings
import Dataflow.Proofs.Arithmetic
import Dataflow.Proofs.Value
