import Dataflow.Description

/-! # Archives

An archive is a tree of records. A record has the type name of the object it was written from and named
entries in order; an entry is a value, a record, or a list of records. -/

namespace Dataflow

namespace Archive

mutual

inductive Record where
  | mk (type : String) (fields : List (String × Entry))

inductive Entry where
  | value (v : Value)
  | record (r : Record)
  | array (items : List Record)

end

namespace Record

def type : Record → String
  | mk type _ => type

def fields : Record → Fields Entry
  | mk _ fields => fields

end Record

/-- What an entry is called where another kind was expected. -/
def Entry.kind : Entry → String
  | value v => v.type
  | record r => r.type
  | array _ => "array"

/-! ### Equality

Values are compared as numbers, and the order of fields does not matter. -/

mutual

def Record.agrees : Record → Record → Bool
  | .mk type fields, other =>
    type == other.type && fields.length == other.fields.length && fieldsAgree fields other.fields

def fieldsAgree : List (String × Entry) → Fields Entry → Bool
  | [], _ => true
  | (name, e) :: rest, others =>
    (match Fields.get? name others with
      | some f => e.agrees f
      | none => false) && fieldsAgree rest others

def Entry.agrees : Entry → Entry → Bool
  | .value v, .value w => v.agrees w
  | .record r, .record s => r.agrees s
  | .array items, .array others => itemsAgree items others
  | _, _ => false

def itemsAgree : List Record → List Record → Bool
  | [], [] => true
  | r :: rest, s :: others => r.agrees s && itemsAgree rest others
  | _, _ => false

end

/-! ### Reading entries -/

namespace Record

def has (r : Record) (name : String) : Bool := Fields.has r.fields name

def entry (r : Record) (name : String) : Result Entry :=
  match Fields.get? name r.fields with
  | some e => .ok e
  | none => .error (.notFound s!"field '{name}' of '{r.type}'")

def value (r : Record) (name : String) : Result Value := do
  match ← r.entry name with
  | .value v => return v
  | e => throw (.typeMismatch "value" e.kind)

def get (α : Type) [Primitive α] (r : Record) (name : String) : Result α := do (← r.value name).get α

def record (r : Record) (name : String) : Result Record := do
  match ← r.entry name with
  | .record s => return s
  | e => throw (.typeMismatch "object" e.kind)

def array (r : Record) (name : String) : Result (List Record) := do
  match ← r.entry name with
  | .array items => return items
  | e => throw (.typeMismatch "array" e.kind)

/-- The record that a path of field names leads to. -/
def atPath : List String → Record → Result Record
  | [], r => .ok r
  | name :: path, r => do atPath path (← r.record name)

end Record

end Archive

end Dataflow
