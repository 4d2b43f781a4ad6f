import Dataflow.Json.Decode
import Dataflow.Json.Printer
import Dataflow.Wire.Basic

/-! # Outlets in JSON

A node is written as its position, and an outlet with its node and its index. -/

namespace Dataflow

/-- Reads a text that holds the position of a node. -/
def parseNode (text : List Text.Symbol) : Result Nat :=
  Json.decode "a node" (fun j => (Json.used? Json.maxDepth j).bind Json.size?) text

namespace Outlet

def toJson (o : Outlet) : Json.Doc := .object [("node", .ofNat o.node), ("index", .ofNat o.index)]

def ofJson? (depth : Nat) (j : Json.Raw) : Option Outlet := do
  match ← j.parts? depth ["node", "index"] with
  | [node, index] => return ⟨← Json.size? node, ← Json.size? index⟩
  | _ => none

/-- Reads a text that holds one outlet. -/
def parse (text : List Text.Symbol) : Result Outlet := Json.decode "an outlet" (ofJson? Json.maxDepth) text

end Outlet

end Dataflow
