import Dataflow.Archive.Reading
import Dataflow.Operation

/-! # Linear predictors

A weight for each dimension of the input, and a bias: the prediction is `w · x + b`. -/

namespace Dataflow

open Archive

structure LinearPredictor where
  weights : List Float
  bias : Float
  deriving DecidableEq, Inhabited

namespace LinearPredictor

def dimension (p : LinearPredictor) : Nat := p.weights.length

def ofDescription (d : Description) : Result LinearPredictor := do
  let weights ← d.getProperty (List Float) "weights"
  let bias ← d.getProperty Float "bias"
  return ⟨weights, bias⟩

def checkDimension (p : LinearPredictor) (xs : List Float) : Result Unit :=
  if xs.length = p.dimension then .ok ()
  else .error (.dimensionMismatch "linear predictor input" p.dimension xs.length)

def predict (p : LinearPredictor) (xs : List Float) : Result Float := do
  p.checkDimension xs
  return (← Real.dot p.weights xs) + p.bias

/-- The products `w i * x i`. -/
def weighted (p : LinearPredictor) (xs : List Float) : Result (List Float) := do
  p.checkDimension xs
  return List.zipWith (· * ·) p.weights xs

def typeName : String := "LinearPredictor"

def shape : Description :=
  Description.blank typeName "Linear predictor"
    |>.addPrimitive (List Float) "weights" "Weight vector"
    |>.addPrimitive Float "bias" "Bias term"

instance : Readable LinearPredictor where
  typeName _ := typeName
  describe p := do
    let d ← shape.setProperty "weights" p.weights
    d.setProperty "bias" p.bias
  write p := do
    Writing.primitive "weights" p.weights
    Writing.primitive "bias" p.bias
  read r := do
    let weights ← r.get (List Float) "weights"
    modify fun p => { p with weights }
    let bias ← r.get Float "bias"
    modify fun p => { p with bias }

end LinearPredictor

end Dataflow
