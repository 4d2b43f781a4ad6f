import Dataflow.Builtin.Basic
import Dataflow.Model.Archive

/-! # Objects by type name

Everything that can be described, archived and restored, under its type name. -/

namespace Dataflow

open Archive

inductive Object where
  | span (s : Span)
  | wire (w : Wire)
  | output (o : Output)
  | predictor (p : LinearPredictor)
  | node (n : Builtin)
  | model (m : Model Builtin)

namespace Object

/-- The fresh object of the type with the given name. -/
def named? (name : String) : Option Object :=
  if name = Span.typeName then some (span default)
  else if name = Wire.typeName then some (wire .empty)
  else if name = Output.typeName then some (output ⟨"", .real, 0⟩)
  else if name = LinearPredictor.typeName then some (predictor default)
  else if name = Model.typeName then some (model .empty)
  else (Builtin.named? name).map node

/-- What all objects of the type have in common. -/
def shape : Object → Description
  | span _ => Span.shape
  | wire _ => Wire.shape
  | output _ => Output.shape
  | predictor _ => LinearPredictor.shape
  | node n => n.shape
  | model _ => Model.shape

instance : Archivable Object where
  typeName
    | span s => Describe.typeName s
    | wire w => Describe.typeName w
    | output o => Describe.typeName o
    | predictor p => Describe.typeName p
    | node n => Describe.typeName n
    | model m => Describe.typeName m
  describe
    | span s => Describe.describe s
    | wire w => Describe.describe w
    | output o => Describe.describe o
    | predictor p => Describe.describe p
    | node n => Describe.describe n
    | model m => Describe.describe m
  write
    | span s => Archivable.write s
    | wire w => Archivable.write w
    | output o => Archivable.write o
    | predictor p => Archivable.write p
    | node n => Archivable.write n
    | model m => Archivable.write m

/-- Reads a part of an object. -/
private def within {α : Type} (x : α) (whole : α → Object) (reading : Reading α Unit) :
    Reading Object Unit := do
  let (outcome, y) := reading.run.run x
  set (whole y)
  liftM outcome

/-- Reads a record into an object; the nodes of a model are those of the registry. -/
def read (registry : Registry Builtin) (r : Record) : Reading Object Unit := do
  match ← get with
  | span s => within s span (Readable.read r)
  | wire w => within w wire (Readable.read r)
  | output o => within o output (Readable.read r)
  | predictor p => within p predictor (Readable.read r)
  | node n => within n node (Readable.read r)
  | model m => within m model (Model.read registry r)

/-- Reads the object in a field. -/
def readField (registry : Registry Builtin) (r : Record) (name : String) : Reading Object Unit := do
  Reading.tagged (← liftM (r.record name)) (read registry)

def unarchive (registry : Registry Builtin) (x : Object) (r : Record) : Result Object :=
  Reading.from x (Reading.tagged r (read registry))

end Object

end Dataflow
