import Dataflow.Archive.Document
import Dataflow.Builtin.Refinement
import Dataflow.Model.Archive
import Dataflow.Model.Evaluator
import Dataflow.Report
import Dataflow.Settings.Basic

/-! # The pipeline

A run has three stages. A model is fetched, or built for a predictor; it is refined or copied, and its
sinks are evaluated if there are values for its inputs; and it is stored beside a report. -/

namespace Dataflow

/-- A place for named texts. -/
structure Storage (m : Type → Type) where
  read : String → ExceptT Error m (List Text.Symbol)
  write : String → String → ExceptT Error m Unit

/-- What becomes of a model. -/
structure Outcome (κ : Type) where
  model : Model κ
  /-- The refinement passes that refined a node. -/
  passes : Nat
  converged : Bool
  outputs : List OutputReport

def Outcome.report {κ : Type} (o : Outcome κ) : Report := ⟨o.model.size, o.passes, o.converged, o.outputs⟩

namespace Pipeline

/-! ### Fetching -/

/-- A predictor of the only input. -/
def predictorModel (p : LinearPredictor) : Result (Model Builtin) := do
  let m ← Model.empty.add (Builtin.input .real p.dimension)
  m.add (← Builtin.makeLinear (← m.output 0 0) p)

/-- The model to run. -/
def fetch {m : Type → Type} [Monad m] (storage : Storage m) (s : Settings) : ExceptT Error m (Model Builtin) :=
  match s.modelPath with
  | some path => do
    let text ← storage.read path
    liftM (do Model.unarchive Builtin.registry (← Archive.Document.parse text) : Result (Model Builtin))
  | none => liftM (predictorModel ⟨s.weights, s.bias⟩)

/-! ### Running -/

section

variable {κ : Type}

section
variable [Node κ]

/-- Binds the inputs, if there are any, and computes the signals on wires. -/
def signals (inputs : List Float) (wires : List Wire) : Evaluation κ (List Signal) := do
  if !inputs.isEmpty then Evaluator.bindAll (.real inputs)
  wires.mapM Evaluator.compute

/-- The signals on wires, unless input nodes have no value. -/
def evaluate (inputs : List Float) (m : Model κ) (wires : List Wire) : Result (Option (List Signal)) :=
  if inputs.isEmpty && !m.inputNodes.isEmpty then .ok none
  else ((signals inputs wires).run.run m.evaluator).1.map some

/-- The name of an output in a report. -/
def outputName (m : Model κ) (o : Outlet) : Result String := do
  let n ← m.node o.node
  match (Node.outputs n)[o.index]? with
  | some output => return s!"{Describe.typeName n}[{o.node}].{output.name}"
  | none => throw (.notFound s!"output {o.name}")

/-- Refuses signals that differ from those at the sinks of `m`, which are on the wires `targets`. -/
def verify (inputs : List Float) (m : Model κ) (targets : List Wire) (found : List Signal) : Result Unit := do
  let expected := (← evaluate inputs m targets).getD []
  (m.sinks.zip (found.zip expected)).forM fun (o, x, y) =>
    if x.agrees y then .ok ()
    else .error (.transform s!"refined output {o.name} differs from the original model")

end

variable [Refinable κ]

/-- The model refined or copied, the passes made, whether they came to an end, and the wires that stand
    for the sinks of `m`, which are on the wires `targets`. -/
def prepare (s : Settings) (m : Model κ) (targets : List Wire) : Result (Model κ × Nat × Bool × List Wire) :=
  if s.refine then do
    let r ← Refinement.run s.maxPasses m
    return (r.model, r.passes, r.converged, ← m.sinks.mapM r.outputWire)
  else do
    return ((← Refinement.copy m).1, 0, true, targets)

/-- Refines or copies a model, and evaluates its sinks. -/
def transform (s : Settings) (m : Model κ) : Result (Outcome κ) := do
  m.validate
  let targets ← m.sinks.mapM fun o => m.output o.node o.index
  let (prepared, passes, converged, wires) ← prepare s m targets
  match ← evaluate s.inputs prepared wires with
  | none => return ⟨prepared, passes, converged, []⟩
  | some found =>
    if s.refine && s.verify then verify s.inputs m targets found
    let outputs ← (m.sinks.zip found).mapM fun (o, x) => return ⟨← outputName m o, x⟩
    return ⟨prepared, passes, converged, outputs⟩

end

/-! ### Storing -/

/-- Stores the model, written at the time `stamp`, and the report, and gives the path of the model. -/
def store {m : Type → Type} [Monad m] {κ : Type} [Node κ] (storage : Storage m) (stamp : String) (s : Settings)
    (o : Outcome κ) : ExceptT Error m String := do
  let path := s!"{s.outputPath}/{s.modelFile}"
  let root ← liftM (Archive.archive o.model)
  storage.write path (Archive.Document.print .spread stamp root)
  storage.write s!"{s.outputPath}/{s.reportFile}" (o.report.print .spread)
  return path

/-- All stages in order; gives the path of the stored model. -/
def run {m : Type → Type} [Monad m] (storage : Storage m) (stamp : String) (s : Settings) :
    ExceptT Error m String := do
  let model ← fetch storage s
  let outcome ← liftM (transform s model)
  store storage stamp s outcome

end Pipeline

end Dataflow
