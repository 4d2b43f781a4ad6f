import Dataflow.Fields

/-! # TOML documents

A document is a tree of tables. How a table came about decides what may still be added to it: a table
with a header cannot get another one, a table made by a dotted key cannot get a header, and an inline
table is closed. -/

namespace Dataflow

namespace Toml

/-- How a table came about. -/
inductive Origin where
  /-- By its own header. -/
  | header
  /-- By the header of a table below it. -/
  | implicit
  /-- By a dotted key. -/
  | dotted
  | inline
  deriving DecidableEq, Repr

inductive Value where
  | text (s : String)
  | integer (n : Int)
  /-- A real, unless it is beyond all of them. -/
  | real (x : Option Float)
  | boolean (b : Bool)
  /-- A date, a time of day or both. -/
  | moment
  | array (ofTables : Bool) (items : List Value)
  | table (origin : Origin) (entries : List (String × Value))

abbrev Entries := Fields Value

/-- Changes the table that `path` leads to from a table, making the tables on the way that do not exist.
    From an array of tables the way leads on from the last one. A dotted key leads through no table that
    has a header. -/
def update? (dotted : Bool) : List String → (Origin → Entries → Option (Origin × Entries)) →
    Origin → Entries → Option (Origin × Entries)
  | [], f, origin, entries => f origin entries
  | key :: path, f, origin, entries =>
    match Fields.get? key entries with
    | none => do
      let (o, below) ← update? dotted path f (if dotted then .dotted else .implicit) []
      return (origin, Fields.put key (.table o below) entries)
    | some (.table o below) =>
      if o = .inline ∨ (dotted ∧ o = .header) then none
      else do
        let (o, below) ← update? dotted path f o below
        return (origin, Fields.put key (.table o below) entries)
    | some (.array true items) =>
      match items.getLast? with
      | some (.table o below) => do
        let (o, below) ← update? dotted path f o below
        return (origin, Fields.put key (.array true (items.dropLast ++ [.table o below])) entries)
      | _ => none
    | some _ => none

/-- Gives a new key of a table its value. The tables that a dotted key goes through are its own. -/
def insert? (path : List String) (key : String) (v : Value) : Origin → Entries → Option (Origin × Entries) :=
  update? true path fun origin entries =>
    if (origin == .dotted) == path.isEmpty ∨ Fields.has entries key then none
    else some (origin, Fields.put key v entries)

/-- Makes way for the table under a header. -/
def openTable? (path : List String) (key : String) : Origin → Entries → Option (Origin × Entries) :=
  update? false path fun origin entries =>
    match Fields.get? key entries with
    | none => some (origin, Fields.put key (.table .header []) entries)
    | some (.table .implicit below) => some (origin, Fields.put key (.table .header below) entries)
    | some _ => none

/-- Adds a table to the array of tables under a header. -/
def openItem? (path : List String) (key : String) : Origin → Entries → Option (Origin × Entries) :=
  update? false path fun origin entries =>
    match Fields.get? key entries with
    | none => some (origin, Fields.put key (.array true [.table .header []]) entries)
    | some (.array true items) =>
      some (origin, Fields.put key (.array true (items ++ [.table .header []])) entries)
    | some _ => none

end Toml

end Dataflow
