import Dataflow.Archive.Basic

/-! # Writing records

An object writes its fields one after the other; a failure ends the writing, and what was written before
it stays in the record under construction. A populated description is written without knowing what it
describes: primitive properties become values, all others records. -/

namespace Dataflow

namespace Archive

abbrev Writing := ExceptT Error (StateM (Fields Entry))

def Writing.put (name : String) (e : Entry) : Writing Unit := modify (Fields.put name e)

/-- The record of the given type that a writing leaves, if it succeeds. -/
def Writing.toRecord (type : String) (w : Writing Unit) : Result Record :=
  match w.run.run [] with
  | (.ok _, fields) => .ok (.mk type fields)
  | (.error e, _) => .error e

end Archive

/-- A type whose members can be archived. -/
class Archivable (α : Type) extends Describe α where
  write : α → Archive.Writing Unit

namespace Archive

/-- The record of an object, under its own type name. -/
def archive {α : Type} [Archivable α] (x : α) : Result Record :=
  (Archivable.write x).toRecord (Describe.typeName x)

namespace Writing

def value (name : String) (v : Value) : Writing Unit := put name (.value v)

def primitive {α : Type} [Primitive α] (name : String) (x : α) : Writing Unit := do
  value name (← liftM (Primitive.toValue x))

def object {α : Type} [Archivable α] (name : String) (x : α) : Writing Unit := do
  put name (.record (← liftM (archive x)))

def array {α : Type} [Archivable α] (name : String) (xs : List α) : Writing Unit := do
  put name (.array (← liftM (xs.mapM archive)))

end Writing

/-! ### Descriptions -/

mutual

def ofProperty (name : String) : Description → Result Entry
  | .mk type _ value properties =>
    if Value.isTypeName type then
      match value with
      | some v => .ok (.value v)
      | none => .error (.notFound s!"value of property '{name}'")
    else do return .record (.mk type (← ofProperties properties))

def ofProperties : List (String × Description) → Result (List (String × Entry))
  | [] => .ok []
  | (name, p) :: rest => do
    let e ← ofProperty name p
    return (name, e) :: (← ofProperties rest)

end

/-- Writes every property of a description. -/
def Writing.properties (d : Description) : Writing Unit :=
  d.properties.forM fun (name, p) => do put name (← liftM (ofProperty name p))

end Archive

end Dataflow
