import Dataflow.Model.Basic

/-! # Evaluation

An evaluator computes what is asked for and what that depends on, each node at most once. Binding a
value to an input node forgets all results. -/

namespace Dataflow

structure Evaluator (κ : Type) where
  model : Model κ
  /-- The values of input nodes, the latest first. -/
  bindings : List (Nat × Signal)
  /-- The outputs of the nodes evaluated so far. -/
  cache : List (Nat × List Signal)

/-- Asking an evaluator; what was computed before a failure is kept. -/
abbrev Evaluation (κ : Type) := ExceptT Error (StateM (Evaluator κ))

def Model.evaluator {κ : Type} (m : Model κ) : Evaluator κ := ⟨m, [], []⟩

namespace Evaluator

/-- The elements of a span, from the outputs of its node. -/
def pick (outputs : List Signal) (s : Span) : Result Signal :=
  match outputs[s.output]? with
  | some x => x.slice s.start s.size
  | none => .error (.notFound s!"output {s.outlet.name}")

/-- The signal on a wire, from the outputs of the nodes that it comes from. -/
def gather {m : Type → Type} [Monad m] [MonadLiftT (Except Error) m] (outputs : Nat → m (List Signal))
    (type : ElemType) (w : Wire) : m Signal :=
  w.spans.foldlM (fun acc s => do
    let part ← liftM (pick (← outputs s.node) s)
    liftM (acc.append part)) (.empty type)

/-- A node must put out what it declares. -/
def checkOutputs (id : Nat) (declared : List Output) (outputs : List Signal) : Result Unit := do
  if declared.length ≠ outputs.length then
    throw (.dimensionMismatch s!"output count of node {nodeName id}" declared.length outputs.length)
  (declared.zip outputs).forM fun (out, x) => do
    if out.type ≠ x.type then throw (.typeMismatch out.type.name x.type.name)
    if out.size ≠ x.size then
      throw (.dimensionMismatch s!"output '{out.name}' of node {nodeName id}" out.size x.size)

variable {κ : Type} [Node κ]

def cached (e : Evaluator κ) (id : Nat) : Result (List Signal) :=
  match e.cache.lookup id with
  | some outputs => .ok outputs
  | none => .error (.notFound s!"node {nodeName id}")

def isCached (e : Evaluator κ) (id : Nat) : Bool := (e.cache.lookup id).isSome

/-- The outputs of a node, the nodes that it depends on being cached. -/
def outputsOf (e : Evaluator κ) (id : Nat) : Result (List Signal) := do
  let n ← e.model.node id
  let outputs ←
    if Node.isInput n then
      match e.bindings.lookup id with
      | some x => pure [x]
      | none => throw (.unboundInput id)
    else do
      Node.compute n (← (Node.inputs n).mapM fun input => gather e.cached input.type input.wire)
  checkOutputs id (Node.outputs n) outputs
  return outputs

/-- The nodes that a node reads from. -/
def sources (m : Model κ) (id : Nat) : List Nat :=
  match m.nodes[id]? with
  | some n => (Node.spans n).map (·.node)
  | none => []

/-- Goes down from `bound` and collects the nodes that are wanted and not cached; each wants the nodes
    that it reads from, which come before it. -/
def sweep (e : Evaluator κ) : (bound : Nat) → (wanted found : List Nat) → List Nat
  | 0, _, found => found
  | id + 1, wanted, found =>
    if wanted.contains id && !e.isCached id then
      sweep e id (sources e.model id ++ wanted) (id :: found)
    else sweep e id wanted found

/-- The nodes that must still be computed for `id`, itself included, in ascending order. -/
def pending (e : Evaluator κ) (id : Nat) : List Nat := e.sweep (id + 1) [id] []

def computePending (id : Nat) : Evaluation κ Unit := do
  let outputs ← liftM ((← get).outputsOf id)
  modify fun e => { e with cache := (id, outputs) :: e.cache }

/-- The outputs of a node. -/
def evaluate (id : Nat) : Evaluation κ (List Signal) := do
  let e ← get
  if !e.isCached id then
    discard (liftM (e.model.node id) : Evaluation κ κ)
    (e.pending id).forM computePending
  liftM ((← get).cached id)

/-- The signal on a wire; one without spans carries reals. -/
def compute (w : Wire) : Evaluation κ Signal := gather evaluate (w.type?.getD .real) w

def computeOutput (o : Outlet) : Evaluation κ Signal := do
  match (← evaluate o.node)[o.index]? with
  | some x => return x
  | none => throw (.notFound s!"output {o.name}")

/-- The number of nodes evaluated since the last binding. -/
def evaluated (e : Evaluator κ) : Nat := e.cache.length

/-- Gives an input node a value of the type and size of its output. -/
def bind (id : Nat) (x : Signal) : Evaluation κ Unit := do
  let n ← liftM ((← get).model.node id)
  if !Node.isInput n then throw (.typeMismatch "input node" (Describe.typeName n))
  match (Node.outputs n)[0]? with
  | none => throw (.notFound s!"output of input node {nodeName id}")
  | some out =>
    if out.type ≠ x.type then throw (.typeMismatch out.type.name x.type.name)
    if out.size ≠ x.size then throw (.dimensionMismatch s!"input node {nodeName id}" out.size x.size)
    modify fun e => { e with bindings := (id, x) :: e.bindings, cache := [] }

/-- Binds consecutive parts of a value, from `start` on, to input nodes of the given sizes. -/
def bindParts (x : Signal) : (start : Nat) → List (Nat × Nat) → Evaluation κ Unit
  | _, [] => pure ()
  | start, (id, size) :: rest => do
    bind id (← liftM (x.slice start size))
    bindParts x (Size.add start size) rest

/-- Distributes a value over all input nodes, in order. -/
def bindAll (x : Signal) : Evaluation κ Unit := do
  let m := (← get).model
  let inputs ← liftM (m.inputNodes.mapM fun id => do return (id, (← m.output id 0).size))
  let total := Size.sum (inputs.map (·.2))
  if total ≠ x.size then throw (.dimensionMismatch "model inputs" total x.size)
  bindParts x 0 inputs

end Evaluator

end Dataflow
