import Dataflow.Wire.Archive

/-! # Models

A model is a list of nodes; the position of a node is its identifier. The wires of a node lead to
outputs of nodes before it, so the list is in topological order. Nodes are of any type that can be
archived, has inputs and outputs, and computes its outputs from its inputs. -/

namespace Dataflow

/-- A type of nodes: one signal for each input in, one for each output out. The outputs of an
    input node come from outside the model. -/
class Node (κ : Type) extends Readable κ where
  inputs : κ → List Input
  outputs : κ → List Output
  isInput : κ → Bool
  compute : κ → List Signal → Result (List Signal)

namespace Node

variable {κ : Type} [Node κ]

/-- All elements of output `index`, for the node standing at `id`. -/
def outputWire (n : κ) (id index : Nat) : Result Wire :=
  match (outputs n)[index]? with
  | some out => .ok (.ofSpan (.whole ⟨id, index⟩ out.type out.size))
  | none => .error (.notFound s!"output {index} of node {nodeName id}")

def outlets (n : κ) (id : Nat) : List Outlet := (List.range (outputs n).length).map (⟨id, ·⟩)

/-- The spans of all inputs. -/
def spans (n : κ) : List Span := (inputs n).flatMap (·.wire.spans)

end Node

structure Model (κ : Type) where
  nodes : List κ

namespace Model

variable {κ : Type}

def empty : Model κ := ⟨[]⟩

instance : Inhabited (Model κ) := ⟨empty⟩

def size (m : Model κ) : Nat := m.nodes.length

def node (m : Model κ) (id : Nat) : Result κ :=
  match m.nodes[id]? with
  | some n => .ok n
  | none => .error (.notFound s!"node {nodeName id}")

/-- The first `size` nodes. -/
def truncate (m : Model κ) (size : Nat) : Model κ := ⟨m.nodes.take size⟩

variable [Node κ]

def output (m : Model κ) (id index : Nat) : Result Wire := do
  Node.outputWire (← m.node id) id index

def outputNamed (m : Model κ) (id : Nat) (name : String) : Result Wire := do
  let n ← m.node id
  match (Node.outputs n).findIdx? (·.name == name) with
  | some index => Node.outputWire n id index
  | none => throw (.notFound s!"output '{name}' of node {nodeName id}")

/-- A span that feeds `input` of the node at `id` must lie within an output of its type of a node before
    that one. -/
def checkSpan (m : Model κ) (id : Nat) (input : Input) (s : Span) : Result Unit := do
  if id ≤ s.node then throw (.cyclicReference id s.node)
  let n ← m.node s.node
  match (Node.outputs n)[s.output]? with
  | none => throw (.notFound s!"output {s.output} of node {nodeName s.node}")
  | some source =>
    if source.type ≠ s.type then throw (.typeMismatch source.type.name s.type.name)
    if source.size < s.stop then
      throw (.dimensionMismatch s!"input '{input.name}' of node {nodeName id}" source.size s.stop)

/-- Whether a node may stand at `id`. -/
def check (m : Model κ) (id : Nat) (n : κ) : Result Unit :=
  (Node.inputs n).forM fun input => input.wire.spans.forM (m.checkSpan id input)

/-- Puts a node last. Its identifier is the size of the model before. -/
def add (m : Model κ) (n : κ) : Result (Model κ) := do
  m.check m.size n
  return ⟨m.nodes ++ [n]⟩

def addAll (m : Model κ) (ns : List κ) : Result (Model κ) := ns.foldlM add m

def validate (m : Model κ) : Result Unit := m.nodes.zipIdx.forM fun (n, id) => m.check id n

def inputNodes (m : Model κ) : List Nat :=
  (m.nodes.zipIdx.filter fun (n, _) => Node.isInput n).map (·.2)

/-- The outputs of all nodes, in order. -/
def outlets (m : Model κ) : List Outlet := m.nodes.zipIdx.flatMap fun (n, id) => Node.outlets n id

/-- The outputs that some node reads. -/
def consumed (m : Model κ) : List Outlet := m.nodes.flatMap fun n => (Node.spans n).map (·.outlet)

/-- The outputs that no node reads. -/
def sinks (m : Model κ) : List Outlet := m.outlets.filter fun o => !m.consumed.contains o

end Model

end Dataflow
