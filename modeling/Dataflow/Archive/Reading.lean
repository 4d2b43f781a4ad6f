import Dataflow.Archive.Writing

/-! # Reading records

An object is read into one that exists already, and a failed reading leaves what was read before it.
A record is also read without knowing what it describes: a shape says which properties there are, and
a composite property without any of its own takes them from the record. -/

namespace Dataflow

namespace Archive

/-- Changing an object by what a record holds. -/
abbrev Reading (α : Type) := ExceptT Error (StateM α)

end Archive

/-- A type whose members can be restored from records. -/
class Readable (α : Type) extends Archivable α where
  read : Archive.Record → Archive.Reading α Unit

namespace Archive

/-- What a reading makes of an object, if it succeeds. -/
def Reading.from {α : Type} (x : α) (reading : Reading α Unit) : Result α :=
  match reading.run.run x with
  | (.ok _, y) => .ok y
  | (.error e, _) => .error e

/-- Reads a record that carries the type name of the object it is read into. -/
def Reading.tagged {α : Type} [Describe α] (r : Record) (read : Record → Reading α Unit) :
    Reading α Unit := do
  let x ← get
  if r.type = Describe.typeName x then read r
  else throw (.typeMismatch (Describe.typeName x) r.type)

/-- Reads the object in a field. -/
def Reading.object {α : Type} [Readable α] (r : Record) (name : String) : Reading α Unit := do
  Reading.tagged (← liftM (r.record name)) Readable.read

/-- The object in a field, read into `x`. -/
def Record.object {α : Type} [Readable α] (r : Record) (name : String) (x : α) : Result α :=
  Reading.from x (Reading.object r name)

/-- The object that a record was written from, read into `x`. -/
def unarchive {α : Type} [Readable α] (x : α) (r : Record) : Result α :=
  Reading.from x (Reading.tagged r Readable.read)

/-! ### Descriptions -/

mutual

/-- What can be said of an entry from the archive alone. -/
def Entry.describe : Entry → Description
  | .value v => .mk v.type "" (some v) []
  | .record (.mk type fields) => .mk type "" none (describeFields fields)
  | .array items => .mk "array" "" none (describeItems 0 items)

def describeFields : List (String × Entry) → List (String × Description)
  | [] => []
  | (name, e) :: rest => (name, e.describe) :: describeFields rest

def describeItems (index : Nat) : List Record → List (String × Description)
  | [] => []
  | .mk type fields :: rest =>
    (toString index, .mk type "" none (describeFields fields)) :: describeItems (index + 1) rest

end

mutual

/-- Fills a declared property from the field of its name. -/
def Record.fillProperty (r : Record) (name : String) : Description → Result Description
  | .mk type doc value properties =>
    if Value.isTypeName type then do
      (Description.mk type doc value properties).setValue (← r.value name)
    else do
      let child ← r.record name
      if child.type ≠ type then throw (.typeMismatch type child.type)
      if properties.isEmpty then return .mk type doc value (describeFields child.fields)
      else return .mk type doc value (← child.fillAll properties)

def Record.fillAll (r : Record) : List (String × Description) → Result (List (String × Description))
  | [] => .ok []
  | (name, p) :: rest => do
    let q ← r.fillProperty name p
    return (name, q) :: (← r.fillAll rest)

end

/-- Fills every property of a shape from the fields of a record. -/
def Record.fill (r : Record) : Description → Result Description
  | .mk type doc value properties => do return .mk type doc value (← r.fillAll properties)

end Archive

end Dataflow
