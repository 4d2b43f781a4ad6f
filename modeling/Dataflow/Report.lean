import Dataflow.Signal.Json

/-! # Reports

What is written beside a model that was run: its size, how it was refined, and its outputs by name. -/

namespace Dataflow

/-- The signal at one output. -/
structure OutputReport where
  name : String
  values : Signal
  deriving DecidableEq

namespace OutputReport

def toJson (r : OutputReport) : Json.Doc := .object [("name", .string r.name), ("values", r.values.toJson)]

def ofJson? (depth : Nat) (j : Json.Raw) : Option OutputReport := do
  match ← Json.parts? id some ["name", "values"] j with
  | [name, values] =>
    return ⟨← Json.string? (← Json.used? (depth - 1) name), ← Signal.ofJson? (depth - 1) values⟩
  | _ => none

/-- Reads a text that holds one report of an output. -/
def parse (text : List Text.Symbol) : Result OutputReport :=
  Json.decode "an output report" (ofJson? Json.maxDepth) text

end OutputReport

structure Report where
  nodeCount : Nat
  /-- The refinement passes that refined a node. -/
  passes : Nat
  converged : Bool
  outputs : List OutputReport
  deriving DecidableEq

namespace Report

def toJson (r : Report) : Json.Doc :=
  .object [("node_count", .ofNat r.nodeCount), ("passes", .ofNat r.passes), ("converged", .bool r.converged),
    ("outputs", .array (r.outputs.map OutputReport.toJson))]

def print (sp : Json.Spacing) (r : Report) : String := r.toJson.print sp

end Report

end Dataflow
