import Dataflow.Model.Basic
import Dataflow.Registry

/-! # Describing and archiving models

A model is archived as the array of its nodes. Reading one needs a registry of node types; it puts the
nodes together as they were first put together, and leaves the model alone if that fails. -/

namespace Dataflow

open Archive

namespace Model

def typeName : String := "Model"

def shape : Description :=
  Description.blank typeName "Dataflow graph of nodes in topological order"
    |>.add "nodes" (.blank "Node[]" "Nodes in insertion order")

variable {κ : Type} [Node κ]

instance : Archivable (Model κ) where
  typeName _ := typeName
  describe m := do
    let nodes ← m.nodes.mapM Describe.describe
    shape.onProperty "nodes" fun all => .ok <|
      nodes.zipIdx.foldl (fun all (n, id) => all.add (toString id) n) all
  write m := Writing.array "nodes" m.nodes

/-- The model that a record holds, whatever its type tag. -/
def ofRecord (registry : Registry κ) (r : Record) : Result (Model κ) := do
  let nodes ← (← r.array "nodes").mapM registry.instantiate
  empty.addAll nodes

def read (registry : Registry κ) (r : Record) : Reading (Model κ) Unit := do
  set (← liftM (ofRecord registry r))

/-- Restores an archived model. -/
def unarchive (registry : Registry κ) (r : Record) : Result (Model κ) :=
  Reading.from empty (Reading.tagged r (read registry))

end Model

end Dataflow
