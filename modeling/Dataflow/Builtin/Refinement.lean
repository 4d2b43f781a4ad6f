import Dataflow.Builtin.Basic
import Dataflow.Model.Refinement

/-! # Copying and refining built-in nodes

A copy of a node reads the elements that stand for those that the node reads. A linear predictor is
refined into constants, a dot product, a product element by element and a sum; no other node is refined.
The model may have nodes of other types beside the built-in ones, which `lift` embeds. -/

namespace Dataflow

namespace Builtin

open Transformer

variable {κ : Type} [Node κ]

/-- The node with its wires led to the target. -/
def remapped : Builtin → Transformation κ Builtin
  | dot type a b => do
    let a ← remap a
    let b ← remap b
    makeDot type a b
  | binary type op a b => do
    let a ← remap a
    let b ← remap b
    makeBinary type op a b
  | linear x p => do
    let x ← remap x
    makeLinear x p
  | n => pure n

def copy (lift : Builtin → κ) (n : Builtin) (id : Nat) : Transformation κ Unit := do
  let target ← add (lift (← remapped n))
  mapOutputs (lift n) id target

/-- Adds a node and gives its output. -/
def addOutput (lift : Builtin → κ) (n : Builtin) : Transformation κ Wire := do output (← add (lift n)) 0

def refine (lift : Builtin → κ) (n : Builtin) (id : Nat) : Transformation κ Bool :=
  match n with
  | linear x p => do
    let x ← remap x
    let weights ← addOutput lift (constant (.real p.weights))
    let product ← addOutput lift (← makeDot .real weights x)
    let weighted ← addOutput lift (← makeBinary .real .multiply weights x)
    let bias ← addOutput lift (constant (.real [p.bias]))
    let sum ← addOutput lift (← makeBinary .real .add product bias)
    mapOutput (← Node.outputWire (lift n) id 0) sum
    mapOutput (← Node.outputWire (lift n) id 1) weighted
    return true
  | _ => pure false

instance : Refinable Builtin where
  copy := copy id
  refine := refine id

end Builtin

end Dataflow
