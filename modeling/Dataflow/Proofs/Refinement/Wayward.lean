import Dataflow.Builtin.Refinement
import Dataflow.Proofs.Action

/-! # Nodes that ask for too much

A transformer is at the disposal of the node that is copied or refined. These nodes do with it what neither
built-in nor scripted nodes do: begin another target, map the outputs of other nodes, or call an output of one
type an output of another. They show which assumptions on nodes cannot be left out. -/

namespace Dataflow

/-- A built-in node, or one that reads nothing and puts out ones. -/
inductive Wayward where
  | builtin (n : Builtin)
  /-- Makes a copy of another model while it is refined, if it stands first. -/
  | interrupts
  /-- Is refined into itself. -/
  | endless
  /-- Is refined into a constant, alone in a new target, that all outputs of the first two nodes are mapped to. -/
  | restarts
  /-- Is refined into a constant and a node that mislabels its output. -/
  | divides
  /-- Maps its output, which is real, as one of integers. -/
  | mislabels
  deriving DecidableEq

namespace Wayward

open Archive Transformer

def typeName : String := "WaywardNode"

/-- How many ones the node puts out. -/
def size : Wayward → Nat
  | interrupts => 3
  | divides => 2
  | _ => 1

instance : Readable Wayward where
  typeName
    | builtin n => Describe.typeName n
    | _ => typeName
  describe
    | builtin n => Describe.describe n
    | _ => .ok (.blank typeName "Wayward node")
  write
    | builtin n => Archivable.write n
    | _ => Writing.properties (.blank typeName "Wayward node")
  read _ := pure ()

instance : Node Wayward where
  inputs
    | builtin n => Node.inputs n
    | _ => []
  outputs
    | builtin n => Node.outputs n
    | n => [⟨"output", .real, n.size⟩]
  isInput
    | builtin n => Node.isInput n
    | _ => false
  compute
    | builtin n, args => Node.compute n args
    | n, _ => .ok [.real (List.replicate n.size 1.0)]

/-- The real output of the node at `id`, which may be called one of integers. -/
def whole (n : Wayward) (id : Nat) (type : ElemType) : Wire := .ofSpan (.whole ⟨id, 0⟩ type n.size)

def copy (n : Wayward) (id : Nat) : Transformation Wayward Unit :=
  match n with
  | builtin n => n.copy builtin id
  | n => do
    let target ← add n
    let type := if n = mislabels then .int else .real
    mapOutput (n.whole id type) (n.whole target type)

/-- The nodes, none of which is refined. -/
abbrev copied : Refinable Wayward where
  copy := copy
  refine _ _ := pure false

def refine (n : Wayward) (id : Nat) : Transformation Wayward Bool :=
  match n with
  | builtin n => n.refine builtin id
  | interrupts =>
    if id = 0 then do
      discard (@copyModel _ copied ⟨[builtin (.constant (.real [1.0, 2.0, 3.0]))]⟩)
      discard (add endless)
      return true
    else pure false
  | endless => do
    copy endless id
    return true
  | restarts => do
    set (fresh : Transformer Wayward)
    let w ← Builtin.addOutput builtin (.constant (.real [7.0]))
    mapOutput (restarts.whole 0 .real) w
    mapOutput (restarts.whole 1 .real) w
    return true
  | divides => do
    let first ← Builtin.addOutput builtin (.constant (.real [1.0]))
    let last ← add mislabels
    mapOutput (divides.whole id .real) (← first.append (mislabels.whole last .real))
    return true
  | mislabels => pure false

instance : Refinable Wayward where
  copy := copy
  refine := refine

end Wayward
end Dataflow
