import Dataflow.Signal
import Dataflow.Width

/-! # Arithmetic

The operations that nodes apply element by element, and the dot product. Integer results are exact; one
that leaves the 64-bit signed range is an error. Reals are added in index order. -/

namespace Dataflow

inductive Operation where
  | add | subtract | multiply | divide | and | or | xor
  deriving DecidableEq, Repr, Inhabited

namespace Operation

def name : Operation → String
  | add => "add"
  | subtract => "subtract"
  | multiply => "coordinatewise_multiply"
  | divide => "coordinatewise_divide"
  | and => "logical_and"
  | or => "logical_or"
  | xor => "logical_xor"

def ofName : String → Result Operation
  | "add" => .ok add
  | "subtract" => .ok subtract
  | "coordinatewise_multiply" => .ok multiply
  | "coordinatewise_divide" => .ok divide
  | "logical_and" => .ok and
  | "logical_or" => .ok or
  | "logical_xor" => .ok xor
  | other => .error (.unknownType s!"operation '{other}'")

theorem ofName_name (op : Operation) : ofName op.name = .ok op := by cases op <;> rfl

def isLogical : Operation → Bool
  | and | or | xor => true
  | _ => false

end Operation

/-- An element type with operations. -/
class Operand (α : Type) extends Element α where
  supports : Operation → Bool
  supportsDot : Bool
  apply : Operation → α → α → Result α
  dot : List α → List α → Result α

namespace Operand

def unsupported (type : ElemType) (what : String) : Error :=
  .typeMismatch s!"operand type supporting {what}" type.name

def checkLengths (m n : Nat) : Result Unit :=
  if m = n then .ok () else .error (.dimensionMismatch "operands" m n)

end Operand

namespace Real

def apply (op : Operation) (x y : Float) : Result Float :=
  match op with
  | .add => .ok (x + y)
  | .subtract => .ok (x - y)
  | .multiply => .ok (x * y)
  | .divide => .ok (x / y)
  | _ => .error (Operand.unsupported .real op.name)

def dot (xs ys : List Float) : Result Float := do
  Operand.checkLengths xs.length ys.length
  return (xs.zip ys).foldl (fun sum (x, y) => sum + x * y) 0.0

end Real

instance : Operand Float where
  supports op := !op.isLogical
  supportsDot := true
  apply := Real.apply
  dot := Real.dot

namespace Integer

/-- An integer, unless it leaves the 64-bit signed range. -/
def checked (e : Error) (n : Int) : Result Int64 :=
  if isSigned 64 n then .ok (Int64.ofInt n) else .error e

def overflow (op : Operation) (x y : Int64) : Error :=
  .compute s!"integer overflow in {op.name} of {toString x.toInt} and {toString y.toInt}"

/-- Division truncates towards zero. -/
def apply (op : Operation) (x y : Int64) : Result Int64 :=
  match op with
  | .add => checked (overflow op x y) (x.toInt + y.toInt)
  | .subtract => checked (overflow op x y) (x.toInt - y.toInt)
  | .multiply => checked (overflow op x y) (x.toInt * y.toInt)
  | .divide =>
    if y = 0 then .error (.compute "integer division by zero")
    else checked (overflow op x y) (x.toInt.tdiv y.toInt)
  | _ => .error (Operand.unsupported .int op.name)

/-- Every product and every partial sum must be in range. -/
def dot (xs ys : List Int64) : Result Int64 := do
  Operand.checkLengths xs.length ys.length
  (xs.zip ys).foldlM (fun sum (x, y) => do
    let p ← checked dotOverflow (x.toInt * y.toInt)
    checked dotOverflow (sum.toInt + p.toInt)) 0
where
  dotOverflow : Error := .compute "integer overflow in dot product"

end Integer

instance : Operand Int64 where
  supports op := !op.isLogical
  supportsDot := true
  apply := Integer.apply
  dot := Integer.dot

namespace Truth

def apply (op : Operation) (x y : Bool) : Result Bool :=
  match op with
  | .and => .ok (x && y)
  | .or => .ok (x || y)
  | .xor => .ok (x ^^ y)
  | _ => .error (Operand.unsupported .bool op.name)

end Truth

instance : Operand Bool where
  supports op := op.isLogical
  supportsDot := false
  apply := Truth.apply
  dot _ _ := .error (Operand.unsupported .bool "dot product")

namespace ElemType

def supports : ElemType → Operation → Bool
  | real => Operand.supports Float
  | int => Operand.supports Int64
  | bool => Operand.supports Bool

def supportsDot : ElemType → Bool
  | real => Operand.supportsDot Float
  | int => Operand.supportsDot Int64
  | bool => Operand.supportsDot Bool

end ElemType

end Dataflow
