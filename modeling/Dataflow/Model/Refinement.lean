import Dataflow.Model.Transformer

/-! # Refinement

Refinement passes follow one another until one refines nothing or the limit is reached. The pass that
finds the limit used up is discarded. -/

namespace Dataflow

structure Refinement (κ : Type) where
  model : Model κ
  /-- The passes that refined a node. -/
  passes : Nat
  converged : Bool
  /-- The elements of the refined model that stand for the outputs of the first one. -/
  outputMap : OutputMap

namespace Refinement

variable {κ : Type}

def outputWire (r : Refinement κ) (o : Outlet) : Result Wire :=
  match r.outputMap.lookup o with
  | some w => .ok w
  | none => .error (.notFound s!"mapping of output {o.name}")

/-- The node that the first output of node `id` comes from, if it comes from one node. -/
def node (r : Refinement κ) (id : Nat) : Result Nat := do
  match (← r.outputWire ⟨id, 0⟩).spans with
  | s :: rest => if rest.all (·.node == s.node) then return s.node else throw none
  | [] => throw none
where
  none : Error := .notFound s!"single node corresponding to {nodeName id}"

variable [Refinable κ]

/-- The result of a pass: the refined model, the map of its outputs, and whether a node was refined. -/
def pass (source : Model κ) : Result (Model κ × OutputMap × Bool) :=
  match (Transformer.refineModel source).run.run .fresh with
  | (.ok m, t) => .ok (m, t.outputMap, t.modified)
  | (.error e, _) => .error e

/-- The copy of a model, and the map of its outputs. -/
def copy (source : Model κ) : Result (Model κ × OutputMap) :=
  match (Transformer.copyModel source).run.run .fresh with
  | (.ok m, t) => .ok (m, t.outputMap)
  | (.error e, _) => .error e

/-- The map of all passes, the latest one being `g`. -/
def compose : Option OutputMap → OutputMap → Result OutputMap
  | none, g => .ok g
  | some f, g => f.andThen g

/-- Goes on refining from `source`, which `passes` passes led to and whose outputs `map` maps those of the
    first model to; `left` more passes may refine something. The outcome has no model if no pass counted. -/
def loop : (left : Nat) → (source : Model κ) → (map : Option OutputMap) → (passes : Nat) →
    Result (Option (Model κ × OutputMap) × Nat × Bool)
  | left, source, map, passes => do
    let (refined, g, modified) ← pass source
    if !modified then
      return (some (refined, ← compose map g), passes, true)
    else match left with
      | 0 => return (map.map (source, ·), passes, false)
      | left + 1 => loop left refined (some (← compose map g)) (passes + 1)

/-- Refines `model` until a pass refines nothing or `limit` passes have refined something. -/
def run (limit : Nat) (model : Model κ) : Result (Refinement κ) := do
  let (found, passes, converged) ← loop limit model none 0
  match found with
  | some (refined, map) => return ⟨refined, passes, converged, map⟩
  | none =>
    let (refined, map) ← copy model
    return ⟨refined, passes, converged, map⟩

end Refinement

end Dataflow
