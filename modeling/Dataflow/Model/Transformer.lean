import Dataflow.Model.Basic

/-! # Transforming models

A transformer builds a target model from a source model, node by node. Each source node copies itself or
is refined into a part of the target that does the same, and either way it maps each of its outputs to
elements of the target. What a node did before it failed or declined to be refined is taken back. -/

namespace Dataflow

/-- The elements that stand for an output, for each mapped output. -/
abbrev OutputMap := List (Outlet × Wire)

namespace OutputMap

/-- Replaces each span by what stands for it. -/
def remap (f : OutputMap) (w : Wire) : Result Wire :=
  w.spans.foldlM (fun acc s =>
    match f.lookup s.outlet with
    | none => .error (.transform s!"output {s.outlet.name} has no mapping")
    | some target => do acc.append (← target.slice s.start s.size)) Wire.empty

/-- First `f`, then `g`. -/
def andThen (f g : OutputMap) : Result OutputMap := f.mapM fun (o, w) => do return (o, ← g.remap w)

end OutputMap

structure Transformer (κ : Type) where
  /-- The target under construction. -/
  model : Model κ
  outputMap : OutputMap
  /-- Whether the latest refinement pass refined a node. -/
  modified : Bool
  /-- The sizes of the outputs of the source. -/
  sourceSizes : List (Outlet × Nat)

abbrev Transformation (κ : Type) := ExceptT Error (StateM (Transformer κ))

namespace Transformer

variable {κ : Type}

def fresh : Transformer κ := ⟨.empty, [], false, []⟩

def remap (w : Wire) : Transformation κ Wire := do liftM ((← get).outputMap.remap w)

variable [Node κ]

/-- Adds a node to the target. -/
def add (n : κ) : Transformation κ Nat := do
  let t ← get
  let model ← liftM (t.model.add n)
  set { t with model }
  return t.model.size

/-- An output of the target. -/
def output (id index : Nat) : Transformation κ Wire := do liftM ((← get).model.output id index)

/-- The output that a wire is all of. -/
def wholeOutput (w : Wire) : Result Outlet :=
  match w.spans with
  | [s] => if s.start = 0 then .ok s.outlet else notWhole
  | _ => notWhole
where
  notWhole : Result Outlet := .error (.transform "only a whole output port can be mapped")

/-- Whether `new` may stand for `old`: it has the type and size of that output and lies within outputs
    of the target. -/
def checkMapping (t : Transformer κ) (key : Outlet) (old new : Wire) : Result Unit := do
  match t.sourceSizes.lookup key with
  | some size =>
    if old.size ≠ size then
      throw (.transform s!"mapping covers {old.size} of {size} elements of output {key.name}")
  | none => pure ()
  if old.type? ≠ new.type? then throw (.typeMismatch (typeName old) (typeName new))
  if old.size ≠ new.size then throw (.dimensionMismatch (context key) old.size new.size)
  new.spans.forM fun s => do
    let source ← t.model.output s.node s.output
    if source.size < s.stop then throw (.dimensionMismatch (context key) source.size s.stop)
where
  typeName (w : Wire) : String := (w.type?.map ElemType.name).getD "none"
  context (key : Outlet) : String := s!"mapping of output {key.name}"

/-- Maps a whole source output to elements of the target. Mapping it there again changes nothing. -/
def mapOutput (old new : Wire) : Transformation κ Unit := do
  let t ← get
  let key ← liftM (wholeOutput old)
  liftM (t.checkMapping key old new)
  match t.outputMap.lookup key with
  | some present =>
    if present ≠ new then
      throw (.transform s!"output {key.name} is already mapped to different elements")
  | none => set { t with outputMap := t.outputMap ++ [(key, new)] }

/-- Maps each output of `n`, which stands at `id` in the source, to the same output of node `target`. -/
def mapOutputs (n : κ) (id target : Nat) : Transformation κ Unit :=
  (List.range (Node.outputs n).length).forM fun index => do
    let old ← liftM (Node.outputWire n id index)
    mapOutput old (← output target index)

/-- Takes back what was added since the target had `size` nodes, and the mappings of node `id`. -/
def rollback (size id : Nat) (t : Transformer κ) : Transformer κ :=
  { t with model := t.model.truncate size, outputMap := t.outputMap.filter fun p => p.1.node ≠ id }

/-- A new target, for a source. -/
def start (source : Model κ) : Transformer κ :=
  { fresh with sourceSizes := source.nodes.zipIdx.flatMap fun (n, id) =>
      (Node.outputs n).zipIdx.map fun (out, index) => (⟨id, index⟩, out.size) }

/-- Every output of the source must be mapped, to as many elements as it has. -/
def checkMapped (t : Transformer κ) (source : Model κ) : Result Unit :=
  source.nodes.zipIdx.forM fun (n, id) => (Node.outputs n).zipIdx.forM fun (out, index) =>
    match t.outputMap.lookup ⟨id, index⟩ with
    | some w =>
      if w.size = out.size then .ok ()
      else .error (.dimensionMismatch s!"mapping of output '{out.name}' of node {nodeName id}" out.size w.size)
    | none =>
      .error (.transform s!"output '{out.name}' of node {nodeName id} ({Describe.typeName n}) was not mapped")

/-- Hands over the target, once every output of the source is mapped. -/
def finish (source : Model κ) : Transformation κ (Model κ) := do
  let t ← get
  liftM (t.checkMapped source)
  modify fun t => { t with model := .empty }
  return t.model

end Transformer

/-- A type of nodes that can be copied and refined. -/
class Refinable (κ : Type) extends Node κ where
  /-- Adds the node, which stands at the given place in the source, to the target. -/
  copy : κ → Nat → Transformation κ Unit
  /-- Adds a part that does the same as the node; `false` declines. -/
  refine : κ → Nat → Transformation κ Bool

namespace Transformer

variable {κ : Type} [Refinable κ]

def copyModel (source : Model κ) : Transformation κ (Model κ) := do
  set (start source)
  source.nodes.zipIdx.forM fun (n, id) => Refinable.copy n id
  finish source

/-- Refines the node, or copies it if it cannot be refined. -/
def refineNode (n : κ) (id : Nat) : Transformation κ Unit := do
  let size := (← get).model.size
  let refined ← try Refinable.refine n id catch _ => pure false
  if refined then modify fun t => { t with modified := true }
  else
    modify (rollback size id)
    Refinable.copy n id

/-- One refinement pass. -/
def refineModel (source : Model κ) : Transformation κ (Model κ) := do
  set (start source)
  source.nodes.zipIdx.forM fun (n, id) => refineNode n id
  finish source

end Transformer

end Dataflow
