import Dataflow.Archive.Reading
import Dataflow.Wire.Basic

/-! # Describing and archiving wires and outputs

The shape of each type, the description and the record of each member, and how a record is read back. -/

namespace Dataflow

open Archive

namespace Span

def typeName : String := "PortRange"

def shape : Description :=
  Description.blank typeName "Element range of an output port"
    |>.addPrimitive Nat "node" "Referenced node"
    |>.addPrimitive Nat "output" "Output index on the referenced node"
    |>.addPrimitive String "type" "Element type"
    |>.addPrimitive Nat "start" "First element"
    |>.addPrimitive Nat "size" "Number of elements"

instance : Inhabited Span := ⟨⟨0, 0, .real, 0, 0⟩⟩

instance : Readable Span where
  typeName _ := typeName
  describe s := do
    let d ← shape.setProperty "node" s.node
    let d ← d.setProperty "output" s.output
    let d ← d.setProperty "type" s.type.name
    let d ← d.setProperty "start" s.start
    d.setProperty "size" s.size
  write s := do
    Writing.primitive "node" s.node
    Writing.primitive "output" s.output
    Writing.primitive "type" s.type.name
    Writing.primitive "start" s.start
    Writing.primitive "size" s.size
  read r := do
    let node ← r.get Nat "node"
    modify fun s => { s with node }
    let output ← r.get Nat "output"
    modify fun s => { s with output }
    let type ← ElemType.ofName (← r.get String "type")
    modify fun s => { s with type }
    let start ← r.get Nat "start"
    modify fun s => { s with start }
    let size ← r.get Nat "size"
    modify fun s => { s with size }

end Span

namespace Wire

def typeName : String := "PortElements"

def shape : Description :=
  Description.blank typeName "Referenced output port elements"
    |>.addPrimitive Nat "size" "Total number of elements"
    |>.add "ranges" (.blank "PortRange[]" "Referenced ranges, in order")

instance : Readable Wire where
  typeName _ := typeName
  describe w := do
    let d ← shape.setProperty "size" w.size
    let spans ← w.spans.mapM Describe.describe
    d.onProperty "ranges" fun ranges => .ok <|
      spans.zipIdx.foldl (fun ranges (s, i) => ranges.add (toString i) s) ranges
  write w := Writing.array "ranges" w.spans
  read r := do
    let items ← r.array "ranges"
    let spans ← liftM (items.mapM fun item => Reading.from (default : Span) (Readable.read item))
    set (← liftM (ofSpans spans))

end Wire

namespace Output

def typeName : String := "OutputPort"

def shape : Description :=
  Description.blank typeName "Output port"
    |>.addPrimitive String "type" "Element type"
    |>.addPrimitive Nat "size" "Number of elements"

/-- The name of an output is fixed by its node, so it is not archived. -/
instance : Readable Output where
  typeName _ := typeName
  describe p := do
    let d ← shape.setProperty "type" p.type.name
    d.setProperty "size" p.size
  write p := do
    Writing.primitive "type" p.type.name
    Writing.primitive "size" p.size
  read r := do
    let type ← ElemType.ofName (← r.get String "type")
    modify fun p => { p with type }
    let size ← r.get Nat "size"
    modify fun p => { p with size }

end Output

/-- The wire in a field, for an input of the given element type. -/
def Archive.Record.wire (r : Record) (name : String) (type : ElemType) : Result Wire := do
  let w ← r.object name Wire.empty
  w.checkType type
  return w

/-- Refuses a record whose field for an output disagrees with that output. -/
def Archive.Record.checkOutput (r : Record) (expected : Output) : Result Unit := do
  let stored ← r.object expected.name ({ expected with type := .real, size := 0 } : Output)
  if stored.type ≠ expected.type then throw (.typeMismatch expected.type.name stored.type.name)
  if stored.size ≠ expected.size then
    throw (.dimensionMismatch s!"stored output '{expected.name}'" expected.size stored.size)

end Dataflow
