import Dataflow.Archive.Reading

/-! # Registries

A table from type names to fresh objects. An archive is read with a registry of node types: a record is
read into a fresh node of the type that it is tagged with. -/

namespace Dataflow

open Archive

/-- The entries are in the order of their names. -/
structure Registry (α : Type) where
  entries : List (String × α)

namespace Registry

variable {α : Type}

def empty : Registry α := ⟨[]⟩

/-- Puts an entry at its place; one with the same name is replaced. -/
def insert (name : String) (x : α) : List (String × α) → List (String × α)
  | [] => [(name, x)]
  | (n, y) :: rest =>
    if n = name then (name, x) :: rest
    else if name < n then (name, x) :: (n, y) :: rest
    else (n, y) :: insert name x rest

def register (r : Registry α) (name : String) (x : α) : Registry α := ⟨insert name x r.entries⟩

def create (r : Registry α) (name : String) : Result α :=
  match r.entries.lookup name with
  | some x => .ok x
  | none => .error (.unknownType name)

def contains (r : Registry α) (name : String) : Bool := (r.entries.lookup name).isSome

def names (r : Registry α) : List String := r.entries.map (·.1)

/-- A registry of objects under their own type names. -/
def ofObjects [Describe α] (xs : List α) : Registry α :=
  xs.foldl (fun r x => r.register (Describe.typeName x) x) empty

/-- The object that a record describes, read into a fresh one of its type. -/
def instantiate [Readable α] (r : Registry α) (record : Record) : Result α := do
  Reading.from (← r.create record.type) (Readable.read record)

end Registry

end Dataflow
