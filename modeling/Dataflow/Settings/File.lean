import Dataflow.Settings.Basic
import Dataflow.Settings.Check
import Dataflow.Settings.Substitution
import Dataflow.Toml.Decode
import Dataflow.Toml.Reader

/-! # Settings files

Settings in a TOML document. References to variables are replaced before the document is read. A file
says where the model is, or gives the predictor that one is built for; if it does neither, there is a
predictor to fall back on. -/

namespace Dataflow

/-- What a settings file says; most of it may be left out. -/
structure SettingsFile where
  name : String
  description : String
  version : String
  modelPath : Option String
  /-- The weights and the bias of the predictor that a model is built for. -/
  demo : Option (List Float × Float)
  refine : Option Bool
  maxPasses : Option Nat
  verify : Option Bool
  inputs : List Float
  outputPath : String
  modelFile : Option String
  reportFile : Option String
  verbose : Option Bool
  logJson : Option Bool

namespace SettingsFile

open Toml.Value

/-! ### Sections -/

def pipeline? (v : Toml.Value) : Option (String × String × String) := do
  match ← v.parts? ["name", "description", "version"] 3 with
  | [some name, some description, some version] =>
    return (← name.text?, ← description.text?, ← version.text?)
  | _ => none

def demo? (v : Toml.Value) : Option (List Float × Float) := do
  match ← v.parts? ["weights", "bias"] 2 with
  | [some weights, some bias] => return (← weights.list? float?, ← bias.float?)
  | _ => none

def model? (v : Toml.Value) : Option (Option String × Option (List Float × Float)) := do
  match ← v.parts? ["path", "demo"] 2 with
  | [path, demo] => return (← optional? text? path, ← optional? demo? demo)
  | _ => none

def refine? (v : Toml.Value) : Option (Option Bool × Option Nat × Option Bool) := do
  match ← v.parts? ["enabled", "max_passes", "verify"] 3 with
  | [enabled, maxPasses, verify] =>
    return (← optional? boolean? enabled, ← optional? size? maxPasses, ← optional? boolean? verify)
  | _ => none

def evaluation? (v : Toml.Value) : Option (List Float) := do
  match ← v.parts? ["inputs"] 0 with
  | [inputs] => return (← optional? (list? float?) inputs).getD []
  | _ => none

def output? (v : Toml.Value) : Option (String × Option String × Option String) := do
  match ← v.parts? ["path", "model_file", "report_file"] 3 with
  | [some path, modelFile, reportFile] =>
    return (← path.text?, ← optional? text? modelFile, ← optional? text? reportFile)
  | _ => none

def logging? (v : Toml.Value) : Option (Option Bool × Option Bool) := do
  match ← v.parts? ["verbose", "json"] 2 with
  | [verbose, json] => return (← optional? boolean? verbose, ← optional? boolean? json)
  | _ => none

/-- The predictor that a model is built for if the file names neither a model nor a predictor. -/
def fallback : List Float × Float := (Settings.defaultWeights, Settings.defaultBias)

def ofDocument? (entries : Toml.Entries) : Option SettingsFile := do
  match ← partsOf? ["pipeline", "model", "refine", "evaluation", "output", "logging"] entries with
  | [some pipeline, model, refine, evaluation, some output, logging] =>
    let (name, description, version) ← pipeline? pipeline
    let (modelPath, demo) := (← optional? model? model).getD (none, none)
    let (enabled, maxPasses, verify) := (← optional? refine? refine).getD (none, none, none)
    let inputs := (← optional? evaluation? evaluation).getD []
    let (outputPath, modelFile, reportFile) ← output? output
    let (verbose, logJson) := (← optional? logging? logging).getD (none, none)
    let demo := if modelPath.isNone then some (demo.getD fallback) else demo
    return { name, description, version, modelPath, demo, refine := enabled, maxPasses, verify, inputs,
             outputPath, modelFile, reportFile, verbose, logJson }
  | _ => none

/-- Reads a settings file; `value?` gives the variables that have a value. -/
def parse (value? : String → Option String) (text : String) : Result SettingsFile :=
  match (Toml.parse? (substitute value? text)).bind ofDocument? with
  | some f => .ok f
  | none => .error (.configCheck "toml_parsing" "not a settings file")

/-! ### What it comes to -/

def settings (f : SettingsFile) : Settings where
  modelPath := f.modelPath
  outputPath := f.outputPath
  refine := f.refine.getD true
  maxPasses := f.maxPasses.getD Settings.defaultMaxPasses
  verify := f.verify.getD false
  inputs := f.inputs
  weights := (f.demo.map (·.1)).getD []
  bias := (f.demo.map (·.2)).getD 0.0
  modelFile := f.modelFile.getD Settings.defaultModelFile
  reportFile := f.reportFile.getD Settings.defaultReportFile

def check (f : SettingsFile) : Result Unit := do
  let s := f.settings
  Check.nonBlank "pipeline.name" f.name
  Check.path "output.path" f.outputPath
  Check.extensions "output.model_file" f.modelFile.toList ["json"]
  Check.extensions "output.report_file" f.reportFile.toList ["json"]
  match f.modelPath, f.demo with
  | some path, _ =>
    Check.path "model.path" path
    Check.extensions "model.path" [path] ["json"]
  | none, some (weights, _) => Check.atLeast "model.demo.weights" weights.length 1
  | none, none => throw (.configMissing "model.path")
  Check.range toString "refine.max_passes" s.maxPasses 1 Settings.maxPassesLimit
  if s.verify && !s.refine then
    throw (.configCheck "refine.verify" "verification requires refine.enabled = true")

end SettingsFile

end Dataflow
