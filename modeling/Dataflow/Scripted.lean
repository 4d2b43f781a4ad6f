import Dataflow.Builtin.Refinement

/-! # Scripted nodes

A node that puts out fixed signals, declares whatever outputs it likes, and is copied and refined as a
script says, rightly or wrongly. Models that hold such nodes beside built-in ones show what the
transformer accepts of a node and what it takes back. -/

namespace Dataflow

open Archive

namespace Scripted

/-- How a node is copied. -/
inductive Copying where
  /-- As it is, with its wires led to the target. -/
  | faithful
  /-- As a constant that nothing is mapped to. -/
  | unmapped
  /-- As a constant that only the first two elements are mapped to. -/
  | leading
  | fails
  deriving DecidableEq, Repr

/-- How a node is refined. -/
inductive Refining where
  | declines
  /-- Fails after having added and mapped something. -/
  | fails
  /-- Declines after having added and mapped something. -/
  | retracts
  /-- Claims to be refined without having done anything. -/
  | pretends
  /-- A constant for each element, added from the last to the first. -/
  | splits
  /-- Each output as the two halves of a constant. -/
  | halves
  /-- The node itself, `depth` times over, before it splits. -/
  | stack (depth : Nat)
  /-- Each output as the input at its position. -/
  | forwards
  deriving DecidableEq, Repr

end Scripted

structure Scripted where
  wires : List Wire
  produce : List Signal
  declare : List (ElemType × Nat)
  copying : Scripted.Copying
  refining : Scripted.Refining
  deriving DecidableEq

namespace Scripted

def typeName : String := "TestNode"

def inputs (n : Scripted) : List Input :=
  n.wires.zipIdx.map fun (w, i) => ⟨s!"in{i}", w.type?.getD .real, w⟩

def outputs (n : Scripted) : List Output :=
  n.declare.zipIdx.map fun ((type, size), i) => ⟨s!"out{i}", type, size⟩

def describe (_ : Scripted) : Result Description := .ok (.blank typeName "Test node")

end Scripted

/-- A built-in or a scripted node. -/
inductive AnyNode where
  | builtin (n : Builtin)
  | scripted (n : Scripted)
  deriving DecidableEq

namespace AnyNode

/-- A scripted node holds nothing that an archive could tell. -/
def read (r : Record) : Reading AnyNode Unit := do
  match ← get with
  | builtin n =>
    let (outcome, n) := (Readable.read r : Reading Builtin Unit).run.run n
    set (builtin n)
    liftM outcome
  | scripted _ => pure ()

instance : Readable AnyNode where
  typeName
    | builtin n => Describe.typeName n
    | scripted _ => Scripted.typeName
  describe
    | builtin n => Describe.describe n
    | scripted n => n.describe
  write
    | builtin n => Archivable.write n
    | scripted n => do Writing.properties (← liftM n.describe)
  read := read

instance : Node AnyNode where
  inputs
    | builtin n => Node.inputs n
    | scripted n => n.inputs
  outputs
    | builtin n => Node.outputs n
    | scripted n => n.outputs
  isInput
    | builtin n => Node.isInput n
    | scripted _ => false
  compute
    | builtin n, args => Node.compute n args
    | scripted n, _ => .ok n.produce

open Transformer

def addConstant (x : Signal) : Transformation AnyNode Wire :=
  Builtin.addOutput builtin (.constant x)

/-- Adds the node with its wires led to the target, and maps its outputs to those of it. -/
def copyScript (n added : Scripted) (id : Nat) : Transformation AnyNode Unit := do
  let wires ← n.wires.mapM fun w => remap w
  let target ← add (scripted { added with wires })
  mapOutputs (scripted n) id target

def source (n : Scripted) (id index : Nat) : Transformation AnyNode Wire :=
  liftM (Node.outputWire (scripted n) id index)

def joined (ws : List Wire) : Result Wire := ws.foldlM Wire.append Wire.empty

def copyScripted (n : Scripted) (id : Nat) : Transformation AnyNode Unit :=
  match n.copying with
  | .faithful => copyScript n n id
  | .unmapped => discard (addConstant (.real [0.0]))
  | .leading => do
    let old ← (← source n id 0).slice 0 2
    mapOutput old (← addConstant (.real [1.0, 2.0]))
  | .fails => throw (.transform "copy not supported")

/-- Adds and maps something for the first output. -/
def meddle (n : Scripted) (id : Nat) : Transformation AnyNode Unit := do
  let w ← addConstant (n.produce.head?.getD (.real []))
  mapOutput (← source n id 0) w

/-- Constants for the elements from the last to the first; the wires are in the order of the elements. -/
def splitSignal (x : Signal) : Transformation AnyNode (List Wire) :=
  (List.range x.size).foldrM (fun i ws => do return (← addConstant (← x.slice i 1)) :: ws) []

def refineScripted (n : Scripted) (id : Nat) : Transformation AnyNode Bool :=
  match n.refining with
  | .declines | .stack 0 => pure false
  | .fails => do
    meddle n id
    throw (.compute "refinement not supported")
  | .retracts => do
    meddle n id
    return false
  | .pretends => pure true
  | .splits => do
    n.produce.zipIdx.forM fun (x, index) => do
      let ws ← splitSignal x
      mapOutput (← source n id index) (← joined ws)
    return true
  | .halves => do
    n.produce.zipIdx.forM fun (x, index) => do
      let w ← addConstant x
      let half := w.size / 2
      let front ← w.slice 0 half
      let back ← w.slice half (w.size - half)
      mapOutput (← source n id index) (← front.append back)
    return true
  | .stack (depth + 1) => do
    copyScript n { n with refining := if depth = 0 then .splits else .stack depth } id
    return true
  | .forwards => do
    let ws ← n.wires.mapM fun w => remap w
    ((List.range n.declare.length).zip ws).forM fun (index, w) => do
      mapOutput (← source n id index) w
    return true

instance : Refinable AnyNode where
  copy
    | builtin n, id => n.copy builtin id
    | scripted n, id => copyScripted n id
  refine
    | builtin n, id => n.refine builtin id
    | scripted n, id => refineScripted n id

end AnyNode

/-- The registry of a list of built-in node types by name. -/
def AnyNode.registry (names : List String) : Registry AnyNode :=
  .ofObjects ((names.filterMap Builtin.named?).map AnyNode.builtin)

end Dataflow
