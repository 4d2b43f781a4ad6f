import Dataflow.Fields
import Dataflow.Value

/-! # Descriptions

A description is a tree that says what an object is made of: a type name, a documentation text, a value
at most, and named properties in order. A shape is a description without values. A value always has the
type that its description declares. -/

namespace Dataflow

inductive Description where
  | mk (type doc : String) (value : Option Value) (properties : List (String × Description))

namespace Description

def type : Description → String
  | mk type .. => type

def doc : Description → String
  | mk _ doc .. => doc

def value : Description → Option Value
  | mk _ _ value _ => value

def properties : Description → Fields Description
  | mk _ _ _ properties => properties

/-- A description of which only the type and the documentation are given. -/
def blank (type doc : String) : Description := mk type doc none []

def isPrimitive (d : Description) : Bool := Value.isTypeName d.type

def valueText (d : Description) : String := (d.value.map Value.display).getD ""

def get (α : Type) [Primitive α] (d : Description) : Result α :=
  match d.value with
  | some v => v.get α
  | none => .error (.notFound s!"value of '{d.type}'")

/-- Gives the description a value of its type. -/
def setValue (v : Value) : Description → Result Description
  | mk type doc _ properties =>
    if v.type = type then .ok (mk type doc (some v) properties) else .error (.typeMismatch type v.type)

def set {α : Type} [Primitive α] (x : α) (d : Description) : Result Description := do
  d.setValue (← Primitive.toValue x)

def withDoc (doc : String) : Description → Description
  | mk type _ value properties => mk type doc value properties

/-- Declares a property, in place of one with the same name. -/
def add (d : Description) (name : String) (p : Description) : Description :=
  mk d.type d.doc d.value (Fields.put name p d.properties)

def addPrimitive (α : Type) [Primitive α] (name doc : String) (d : Description) : Description :=
  d.add name (blank (Primitive.typeName α) doc)

def property (name : String) (d : Description) : Result Description :=
  match Fields.get? name d.properties with
  | some p => .ok p
  | none => .error (.notFound s!"property '{name}' of '{d.type}'")

/-- Changes a declared property. -/
def onProperty (name : String) (f : Description → Result Description) (d : Description) :
    Result Description := do
  let p ← f (← d.property name)
  return d.add name p

/-- Changes the description that a path of property names leads to. -/
def onPath : List String → (Description → Result Description) → Description → Result Description
  | [], f, d => f d
  | name :: path, f, d => d.onProperty name (onPath path f)

def atPath : List String → Description → Result Description
  | [], d => .ok d
  | name :: path, d => do atPath path (← d.property name)

def getProperty (α : Type) [Primitive α] (name : String) (d : Description) : Result α := do
  (← d.property name).get α

def setProperty {α : Type} [Primitive α] (name : String) (x : α) (d : Description) : Result Description :=
  d.onProperty name (set x)

/-- Fills a declared property with a description of its type; the declared documentation stays. -/
def fill (d : Description) (name : String) (filled : Description) : Result Description :=
  d.onProperty name fun p =>
    if p.type = filled.type then .ok (filled.withDoc p.doc) else .error (.typeMismatch p.type filled.type)

/-! ### Text -/

/-- One line: what is named, what it is, its value and its documentation. -/
def line (depth : Nat) (label : String) (d : Description) : String :=
  String.join (List.replicate depth "  ") ++ label ++ d.type
    ++ (match d.value with | some v => s!" = {v.display}" | none => "")
    ++ (if d.doc.isEmpty then "" else s!"  # {d.doc}") ++ "\n"

mutual

def render (depth : Nat) (label : String) : Description → String
  | mk type doc value properties =>
    line depth label (mk type doc value properties) ++ renderAll (depth + 1) properties

def renderAll (depth : Nat) : List (String × Description) → String
  | [] => ""
  | (name, p) :: rest => render depth s!"{name}: " p ++ renderAll depth rest

end

/-- The whole tree, a line for each description. -/
def display (d : Description) : String := render 0 "" d

/-! ### Equality

Values are compared as numbers, and the order of properties does not matter. -/

mutual

def agrees : Description → Description → Bool
  | mk type doc value properties, other =>
    type == other.type && doc == other.doc
      && (match value, other.value with
        | some v, some w => v.agrees w
        | none, none => true
        | _, _ => false)
      && properties.length == other.properties.length && allAgree properties other.properties

def allAgree : List (String × Description) → Fields Description → Bool
  | [], _ => true
  | (name, p) :: rest, others =>
    (match Fields.get? name others with
      | some q => p.agrees q
      | none => false) && allAgree rest others

end

end Description

/-- A type whose members describe themselves. -/
class Describe (α : Type) where
  /-- The type name of one member. -/
  typeName : α → String
  describe : α → Result Description

end Dataflow
