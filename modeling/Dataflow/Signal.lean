import Dataflow.Error
import Dataflow.Size

/-! # Signals

What flows along a wire: a list of elements of one of three types. -/

namespace Dataflow

inductive ElemType where
  | real | int | bool
  deriving DecidableEq, Repr, Inhabited

namespace ElemType

def name : ElemType → String
  | real => "real"
  | int => "int"
  | bool => "bool"

def ofName : String → Result ElemType
  | "real" => .ok real
  | "int" => .ok int
  | "bool" => .ok bool
  | other => .error (.unknownType other)

theorem ofName_name (t : ElemType) : ofName t.name = .ok t := by cases t <;> rfl

end ElemType

inductive Signal where
  | real (xs : List Float)
  | int (xs : List Int64)
  | bool (xs : List Bool)
  deriving DecidableEq

namespace Signal

def empty : ElemType → Signal
  | .real => real []
  | .int => int []
  | .bool => bool []

def type : Signal → ElemType
  | real _ => .real
  | int _ => .int
  | bool _ => .bool

def size : Signal → Nat
  | real xs => xs.length
  | int xs => xs.length
  | bool xs => xs.length

/-- Equal as numbers: a NaN differs from itself and the two zeros are equal. -/
def agrees : Signal → Signal → Bool
  | real xs, real ys => xs == ys
  | int xs, int ys => xs == ys
  | bool xs, bool ys => xs == ys
  | _, _ => false

/-- The elements from `start` on, at most `size` of them. -/
def part (s : Signal) (start size : Nat) : Signal :=
  match s with
  | real xs => real ((xs.drop start).take size)
  | int xs => int ((xs.drop start).take size)
  | bool xs => bool ((xs.drop start).take size)

/-- The elements from `start` on, `size` of them, all of which must exist. An end that wraps around crashes,
    unless it lies behind the signal. -/
def slice (s : Signal) (start size : Nat) : Result Signal :=
  if start + size ≤ s.size then .ok (s.part start size)
  else
    let stop := Size.add start size
    if s.size < stop then .error (.dimensionMismatch "port value slice" s.size stop)
    else .error (.crash s!"slice index starts at {start} but ends at {stop}")

def append : Signal → Signal → Result Signal
  | real xs, real ys => .ok (real (xs ++ ys))
  | int xs, int ys => .ok (int (xs ++ ys))
  | bool xs, bool ys => .ok (bool (xs ++ ys))
  | s, t => .error (.typeMismatch s.type.name t.type.name)

end Signal

/-- A type whose lists are signals. -/
class Element (α : Type) where
  type : ElemType
  signal : List α → Signal
  elements? : Signal → Option (List α)

instance : Element Float where
  type := .real
  signal := .real
  elements?
    | .real xs => some xs
    | _ => none

instance : Element Int64 where
  type := .int
  signal := .int
  elements?
    | .int xs => some xs
    | _ => none

instance : Element Bool where
  type := .bool
  signal := .bool
  elements?
    | .bool xs => some xs
    | _ => none

/-- The elements of a signal that has them of type `α`. -/
def Signal.elements (α : Type) [Element α] (s : Signal) : Result (List α) :=
  match Element.elements? s with
  | some xs => .ok xs
  | none => .error (.typeMismatch (Element.type α).name s.type.name)

end Dataflow
