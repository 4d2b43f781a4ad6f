import Dataflow.Model.Basic
import Dataflow.Predictor
import Dataflow.Registry

/-! # Built-in nodes

Inputs, constants, dot products, operations element by element, and linear predictors: what they check
when they are made, their inputs and outputs, what they compute, and how they are described and archived. -/

namespace Dataflow

open Archive

inductive Builtin where
  | input (type : ElemType) (size : Nat)
  | constant (value : Signal)
  | dot (type : ElemType) (a b : Wire)
  | binary (type : ElemType) (op : Operation) (a b : Wire)
  | linear (x : Wire) (predictor : LinearPredictor)
  deriving DecidableEq

namespace Builtin

/-! ### Making nodes -/

def makeDot (type : ElemType) (a b : Wire) : Result Builtin := do
  if !type.supportsDot then throw (.typeMismatch "numeric element type" type.name)
  if a.size ≠ b.size then throw (.dimensionMismatch "dot product inputs" a.size b.size)
  a.checkType type
  b.checkType type
  return dot type a b

def makeBinary (type : ElemType) (op : Operation) (a b : Wire) : Result Builtin := do
  if !type.supports op then throw (.typeMismatch s!"element type supporting {op.name}" type.name)
  if a.size ≠ b.size then throw (.dimensionMismatch s!"{op.name} inputs" a.size b.size)
  a.checkType type
  b.checkType type
  return binary type op a b

def makeLinear (x : Wire) (p : LinearPredictor) : Result Builtin := do
  if x.size ≠ p.dimension then
    throw (.dimensionMismatch "linear predictor node input" p.dimension x.size)
  x.checkType .real
  return linear x p

/-! ### Inputs and outputs -/

def typeName : Builtin → String
  | input .. => "InputNode"
  | constant value => s!"ConstantNode<{value.type.name}>"
  | dot type .. => s!"DotProductNode<{type.name}>"
  | binary type .. => s!"BinaryOperationNode<{type.name}>"
  | linear .. => "LinearPredictorNode"

def inputs : Builtin → List Input
  | input .. | constant _ => []
  | dot type a b | binary type _ a b => [⟨"input1", type, a⟩, ⟨"input2", type, b⟩]
  | linear x _ => [⟨"input", .real, x⟩]

/-- The first output, which every node has. -/
def mainOutput : Builtin → Output
  | input type size => ⟨"output", type, size⟩
  | constant value => ⟨"output", value.type, value.size⟩
  | dot type .. => ⟨"output", type, 1⟩
  | binary type _ a _ => ⟨"output", type, a.size⟩
  | linear .. => ⟨"output", .real, 1⟩

def weightedOutput (p : LinearPredictor) : Output := ⟨"weightedElements", .real, p.dimension⟩

def outputs (n : Builtin) : List Output :=
  match n with
  | linear _ p => [n.mainOutput, weightedOutput p]
  | _ => [n.mainOutput]

def isInput : Builtin → Bool
  | input .. => true
  | _ => false

/-! ### Computing -/

/-- The elements of an input signal. -/
def argument (α : Type) [Element α] (args : List Signal) (index : Nat) : Result (List α) :=
  match args[index]? with
  | some x => x.elements α
  | none => .error (.dimensionMismatch "node inputs" (index + 1) args.length)

def computeDot (α : Type) [Operand α] (args : List Signal) : Result (List Signal) := do
  let xs ← argument α args 0
  let ys ← argument α args 1
  return [Element.signal [← Operand.dot xs ys]]

def computeBinary (α : Type) [Operand α] (op : Operation) (args : List Signal) : Result (List Signal) := do
  let xs ← argument α args 0
  let ys ← argument α args 1
  if xs.length ≠ ys.length then
    throw (.dimensionMismatch s!"{op.name} operands" xs.length ys.length)
  return [Element.signal (← (xs.zip ys).mapM fun (x, y) => Operand.apply op x y)]

def computeLinear (p : LinearPredictor) (args : List Signal) : Result (List Signal) := do
  let xs ← argument Float args 0
  let prediction ← p.predict xs
  let weighted ← p.weighted xs
  return [.real [prediction], .real weighted]

def compute (n : Builtin) (args : List Signal) : Result (List Signal) :=
  match n with
  | input .. => .error (.compute "input nodes receive their value through evaluator binding")
  | constant value => .ok [value]
  | dot .real .. => computeDot Float args
  | dot .int .. => computeDot Int64 args
  | dot .bool .. => computeDot Bool args
  | binary .real op .. => computeBinary Float op args
  | binary .int op .. => computeBinary Int64 op args
  | binary .bool op .. => computeBinary Bool op args
  | linear _ p => computeLinear p args

/-! ### Describing -/

def listTypeName : ElemType → String
  | .real => Primitive.typeName (List Float)
  | .int => Primitive.typeName (List Int64)
  | .bool => Primitive.typeName (List Bool)

def shape (n : Builtin) : Description :=
  match n with
  | input .. =>
    Description.blank n.typeName "External input of the model"
      |>.add "output" (Output.shape.withDoc "Input values")
  | constant value =>
    Description.blank n.typeName "Constant value source"
      |>.add "values" (.blank (listTypeName value.type) "Output values")
      |>.add "output" (Output.shape.withDoc "Constant output")
  | dot .. =>
    Description.blank n.typeName "Dot product of two vectors"
      |>.add "input1" (Wire.shape.withDoc "First operand")
      |>.add "input2" (Wire.shape.withDoc "Second operand")
      |>.add "output" (Output.shape.withDoc "Scalar result")
  | binary .. =>
    Description.blank n.typeName "Elementwise binary operation"
      |>.add "input1" (Wire.shape.withDoc "First operand")
      |>.add "input2" (Wire.shape.withDoc "Second operand")
      |>.addPrimitive String "operation" "Operation name"
      |>.add "output" (Output.shape.withDoc "Elementwise result")
  | linear .. =>
    Description.blank n.typeName "Linear predictor applied to an input vector"
      |>.add "input" (Wire.shape.withDoc "Input vector")
      |>.add "output" (Output.shape.withDoc "Prediction")
      |>.add "weightedElements" (Output.shape.withDoc "Weighted input elements")
      |>.add "predictor" (LinearPredictor.shape.withDoc "The predictor")

/-- Fills a property of a description with what `x` says of itself. -/
private def fillWith {α : Type} [Describe α] (d : Description) (name : String) (x : α) : Result Description := do
  d.fill name (← Describe.describe x)

def describe (n : Builtin) : Result Description :=
  match n with
  | input .. => fillWith n.shape "output" n.mainOutput
  | constant value => do
    let d ← match value with
      | .real xs => n.shape.setProperty "values" xs
      | .int xs => n.shape.setProperty "values" xs
      | .bool xs => n.shape.setProperty "values" xs
    fillWith d "output" n.mainOutput
  | dot _ a b => do
    let d ← fillWith n.shape "input1" a
    let d ← fillWith d "input2" b
    fillWith d "output" n.mainOutput
  | binary _ op a b => do
    let d ← fillWith n.shape "input1" a
    let d ← fillWith d "input2" b
    let d ← d.setProperty "operation" op.name
    fillWith d "output" n.mainOutput
  | linear x p => do
    let d ← fillWith n.shape "input" x
    let d ← fillWith d "output" n.mainOutput
    let d ← fillWith d "weightedElements" (weightedOutput p)
    fillWith d "predictor" p

/-! ### Archiving -/

def write (n : Builtin) : Writing Unit :=
  match n with
  | input .. => Writing.object "output" n.mainOutput
  | constant value => do
    match value with
    | .real xs => Writing.primitive "values" xs
    | .int xs => Writing.primitive "values" xs
    | .bool xs => Writing.primitive "values" xs
    Writing.object "output" n.mainOutput
  | dot _ a b => do
    Writing.object "input1" a
    Writing.object "input2" b
    Writing.object "output" n.mainOutput
  | binary _ op a b => do
    Writing.object "input1" a
    Writing.object "input2" b
    Writing.primitive "operation" op.name
    Writing.object "output" n.mainOutput
  | linear x p => do
    Writing.object "input" x
    Writing.object "output" n.mainOutput
    Writing.object "weightedElements" (weightedOutput p)
    Writing.object "predictor" p

/-- Reads a node of the kind and element type of the present one. The archived outputs have to be
    those of the node that was read. -/
def read (r : Record) : Reading Builtin Unit := do
  match ← get with
  | input .. =>
    let out ← r.object "output" (⟨"output", .real, 0⟩ : Output)
    set (input out.type out.size)
  | constant value =>
    let value : Signal ← match value.type with
      | .real => do pure (.real (← r.get (List Float) "values"))
      | .int => do pure (.int (← r.get (List Int64) "values"))
      | .bool => do pure (.bool (← r.get (List Bool) "values"))
    become (constant value)
  | dot type _ _ =>
    let a ← r.wire "input1" type
    let b ← r.wire "input2" type
    become (← makeDot type a b)
  | binary type _ _ _ =>
    let a ← r.wire "input1" type
    let b ← r.wire "input2" type
    let op ← Operation.ofName (← r.get String "operation")
    become (← makeBinary type op a b)
  | linear _ _ =>
    let x ← r.wire "input" .real
    let p ← r.object "predictor" (default : LinearPredictor)
    become (← makeLinear x p)
where
  become (n : Builtin) : Reading Builtin Unit := do
    set n
    n.outputs.forM fun out => liftM (r.checkOutput out)

instance : Readable Builtin where
  typeName := typeName
  describe := describe
  write := write
  read := read

instance : Node Builtin where
  inputs := inputs
  outputs := outputs
  isInput := isInput
  compute := compute

/-! ### Fresh nodes -/

/-- A fresh node of each type. -/
def kinds : List Builtin :=
  [input .real 0]
    ++ [ElemType.real, .int, .bool].map (fun t => constant (.empty t))
    ++ [ElemType.real, .int, .bool].map (fun t => dot t .empty .empty)
    ++ [ElemType.real, .int, .bool].map (fun t => binary t default .empty .empty)
    ++ [linear .empty default]

/-- The fresh node of the type with the given name. -/
def named? (name : String) : Option Builtin := kinds.find? (·.typeName == name)

/-- The registry of the node types with the given names. -/
def registryOf (names : List String) : Registry Builtin := .ofObjects (names.filterMap named?)

/-- The registry of the node types that an archive may hold: all but the dot product of booleans, which
    no constructor makes. -/
def registry : Registry Builtin := .ofObjects (kinds.filter fun n => n != dot .bool .empty .empty)

end Builtin

end Dataflow
