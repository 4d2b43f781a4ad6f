/-! # Settings

What a run needs to know, wherever the settings come from. -/

namespace Dataflow

structure Settings where
  /-- The model to load; without one a linear predictor is built. -/
  modelPath : Option String
  outputPath : String
  refine : Bool
  maxPasses : Nat
  verify : Bool
  /-- The values of all input nodes, in order. -/
  inputs : List Float
  weights : List Float
  bias : Float
  modelFile : String
  reportFile : String

namespace Settings

def defaultMaxPasses : Nat := 8

/-- The greatest number of passes that may be asked for. -/
def maxPassesLimit : Nat := 64

def defaultWeights : List Float := [1.0, 2.0, 3.0]

def defaultBias : Float := 0.5

def defaultModelFile : String := "model.json"

def defaultReportFile : String := "evaluation.json"

end Settings

end Dataflow
