import Dataflow.Signal
import Dataflow.Decimal.Layout
import Dataflow.Width

/-! # Values

The values at the leaves of descriptions and archives, and the types that have a written form among
them. Integers of every width share the type `int`; one that does not fit in 64 signed bits has no
value, and one that does not fit in the width asked for is of the wrong type. -/

namespace Dataflow

inductive Value where
  | bool (b : Bool)
  | int (n : Int64)
  | real (x : Float)
  | text (s : String)
  | bools (bs : List Bool)
  | ints (ns : List Int64)
  | reals (xs : List Float)
  deriving DecidableEq

namespace Value

def type : Value → String
  | bool _ => "bool"
  | int _ => "int"
  | real _ => "real"
  | text _ => "string"
  | bools _ => "bool[]"
  | ints _ => "int[]"
  | reals _ => "real[]"

def isTypeName (name : String) : Bool :=
  ["bool", "int", "real", "string", "bool[]", "int[]", "real[]"].contains name

/-- Equal as numbers: a NaN differs from itself and the two zeros are equal. -/
def agrees : Value → Value → Bool
  | bool a, bool b => a == b
  | int a, int b => a == b
  | real a, real b => a == b
  | text a, text b => a == b
  | bools a, bools b => a == b
  | ints a, ints b => a == b
  | reals a, reals b => a == b
  | _, _ => false

private def listed {α : Type} (shown : α → String) (xs : List α) : String :=
  "[" ++ ", ".intercalate (xs.map shown) ++ "]"

private def shownInt (n : Int64) : String := toString n.toInt

private def shownBool (b : Bool) : String := if b then "true" else "false"

def display : Value → String
  | bool b => shownBool b
  | int n => shownInt n
  | real x => Decimal.Layout.plain.write x
  | text s => s
  | bools bs => listed shownBool bs
  | ints ns => listed shownInt ns
  | reals xs => listed Decimal.Layout.plain.write xs

end Value

/-- A type with a written form among the values. -/
class Primitive (α : Type) where
  typeName : String
  toValue : α → Result Value
  ofValue? : Value → Option α

/-- The contents of a value as a member of `α`. -/
def Value.get (α : Type) [Primitive α] (v : Value) : Result α :=
  match Primitive.ofValue? v with
  | some x => .ok x
  | none => .error (.typeMismatch (Primitive.typeName α) v.type)

def Value.ofInt (n : Int) : Result Value :=
  if isSigned 64 n then .ok (.int (Int64.ofInt n)) else .error (.outOfRange (toString n) "int")

instance : Primitive Bool where
  typeName := "bool"
  toValue b := .ok (.bool b)
  ofValue?
    | .bool b => some b
    | _ => none

instance : Primitive Int64 where
  typeName := "int"
  toValue n := .ok (.int n)
  ofValue?
    | .int n => some n
    | _ => none

instance : Primitive Int32 where
  typeName := "int"
  toValue n := Value.ofInt n.toInt
  ofValue?
    | .int n => if isSigned 32 n.toInt then some (Int32.ofInt n.toInt) else none
    | _ => none

instance : Primitive UInt32 where
  typeName := "int"
  toValue n := Value.ofInt n.toNat
  ofValue?
    | .int n => if isUnsigned 32 n.toInt then some (UInt32.ofNat n.toInt.toNat) else none
    | _ => none

/-- Sizes and positions. -/
instance : Primitive Nat where
  typeName := "int"
  toValue n := Value.ofInt n
  ofValue?
    | .int n => if 0 ≤ n.toInt then some n.toInt.toNat else none
    | _ => none

instance : Primitive Float where
  typeName := "real"
  toValue x := .ok (.real x)
  ofValue?
    | .real x => some x
    | _ => none

instance : Primitive String where
  typeName := "string"
  toValue s := .ok (.text s)
  ofValue?
    | .text s => some s
    | _ => none

instance : Primitive (List Float) where
  typeName := "real[]"
  toValue xs := .ok (.reals xs)
  ofValue?
    | .reals xs => some xs
    | _ => none

instance : Primitive (List Int64) where
  typeName := "int[]"
  toValue ns := .ok (.ints ns)
  ofValue?
    | .ints ns => some ns
    | _ => none

instance : Primitive (List Bool) where
  typeName := "bool[]"
  toValue bs := .ok (.bools bs)
  ofValue?
    | .bools bs => some bs
    | _ => none

end Dataflow
