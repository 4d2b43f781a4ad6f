import Dataflow.Archive.Basic
import Dataflow.Json.Decode
import Dataflow.Json.Printer

/-! # Archives in JSON

A value is written with its type and its content, a record with its type and its fields, and an array
with its items. An entry carries no mark of what it is, so a reader tries the three in this order. -/

namespace Dataflow

def Value.toJson (v : Value) : Json.Doc :=
  .object [("type", .string v.type), ("value", content v)]
where
  content : Value → Json.Doc
    | .bool b => .bool b
    | .int n => .ofInt n.toInt
    | .real x => .ofFloat x
    | .text s => .string s
    | .bools bs => .array (bs.map .bool)
    | .ints ns => .array (ns.map fun n => .ofInt n.toInt)
    | .reals xs => .array (xs.map .ofFloat)

/-- The value with the given type and content. -/
def Value.ofParts? : List Json.Doc → Option Value
  | [tag, content] => do
    match ← Json.tag? tag with
    | "bool" => (Json.bool? content).map .bool
    | "int" => (Json.int64? content).map .int
    | "real" => (Json.float? content).map .real
    | "string" => (Json.string? content).map .text
    | "bool[]" => (Json.list? Json.bool? content).map .bools
    | "int[]" => (Json.list? Json.int64? content).map .ints
    | "real[]" => (Json.list? Json.float? content).map .reals
    | _ => none
  | _ => none

def Value.parts : List String := ["type", "value"]

def Value.ofJson? (j : Json.Doc) : Option Value := do ofParts? (← j.parts? parts)

namespace Archive

mutual

def Record.toJson : Record → Json.Doc
  | .mk type fields => .object [("type", .string type), ("fields", .object (fieldsToJson fields))]

def fieldsToJson : List (String × Entry) → List (String × Json.Doc)
  | [] => []
  | (name, e) :: rest => (name, e.toJson) :: fieldsToJson rest

def Entry.toJson : Entry → Json.Doc
  | .value v => v.toJson
  | .record r => r.toJson
  | .array items => .object [("items", .array (itemsToJson items))]

def itemsToJson : List Record → List Json.Doc
  | [] => []
  | r :: rest => r.toJson :: itemsToJson rest

end

def Record.parts : List String := ["type", "fields"]

/-- The record with the given type and fields; a field that is given again replaces the first. -/
def Record.ofParts? (readEntry : Json.Doc → Option Entry) : List Json.Doc → Option Record
  | [.string type, .object members] => do
    let fields ← members.mapM fun (name, j) => return (name, ← readEntry j)
    return .mk type (fields.foldl (fun fs (name, e) => Fields.put name e fs) [])
  | _ => none

/-- Reads an entry that has at most `depth` levels of records and arrays. -/
def Entry.ofJson? : Nat → Json.Doc → Option Entry
  | 0, _ => none
  | depth + 1, j =>
    match Value.ofJson? j with
    | some v => some (.value v)
    | none => match (j.parts? Record.parts).bind (Record.ofParts? (ofJson? depth)) with
      | some r => some (.record r)
      | none => match j.parts? ["items"] with
        | some [.array items] =>
          (items.mapM fun (j : Json.Doc) =>
            (j.parts? Record.parts).bind (Record.ofParts? (ofJson? depth))).map .array
        | _ => none

/-- Reads a record of a text, with at most `depth` levels of JSON from it down. -/
def Record.ofJson? (depth : Nat) (j : Json.Raw) : Option Record := do
  ofParts? (Entry.ofJson? depth) (← j.parts? depth parts)

def Record.print (sp : Json.Spacing) (r : Record) : String := r.toJson.print sp

/-- Reads a text that holds one record. -/
def Record.parse (text : List Text.Symbol) : Result Record :=
  Json.decode "an archived object" (ofJson? Json.maxDepth) text

/-- Reads a text that holds one entry. -/
def Entry.parse (text : List Text.Symbol) : Result Entry :=
  Json.decode "an archive entry" (fun j => (Json.used? Json.maxDepth j).bind (ofJson? Json.maxDepth)) text

end Archive

/-- Reads a text that holds one value. -/
def Value.parse (text : List Text.Symbol) : Result Value :=
  Json.decode "a value" (fun j => (j.parts? Json.maxDepth parts).bind ofParts?) text

end Dataflow
