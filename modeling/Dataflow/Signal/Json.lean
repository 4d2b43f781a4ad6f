import Dataflow.Json.Decode
import Dataflow.Json.Printer
import Dataflow.Signal

/-! # Signals in JSON

A signal is written with its element type and its elements, an element type as its name. -/

namespace Dataflow

namespace ElemType

def toJson (t : ElemType) : Json.Doc := .string t.name

def ofJson? (j : Json.Doc) : Option ElemType := do
  match ofName (← Json.tag? j) with
  | .ok t => some t
  | .error _ => none

/-- Reads a text that holds one element type. -/
def parse (text : List Text.Symbol) : Result ElemType :=
  Json.decode "an element type" (fun j => (Json.used? Json.maxDepth j).bind ofJson?) text

end ElemType

namespace Signal

def toJson (s : Signal) : Json.Doc :=
  .object [("type", s.type.toJson), ("values", .array (elements s))]
where
  elements : Signal → List Json.Doc
    | .real xs => xs.map .ofFloat
    | .int ns => ns.map fun n => .ofInt n.toInt
    | .bool bs => bs.map .bool

/-- The signal with the given element type and elements. -/
def ofParts? : List Json.Doc → Option Signal
  | [type, elements] => do
    match ← ElemType.ofJson? type with
    | .real => (Json.list? Json.float? elements).map .real
    | .int => (Json.list? Json.int64? elements).map .int
    | .bool => (Json.list? Json.bool? elements).map .bool
  | _ => none

/-- Reads a signal of a text, with at most `depth` levels of JSON from it down. -/
def ofJson? (depth : Nat) (j : Json.Raw) : Option Signal := do ofParts? (← j.parts? depth ["type", "values"])

/-- Reads a text that holds one signal. -/
def parse (text : List Text.Symbol) : Result Signal := Json.decode "a signal" (ofJson? Json.maxDepth) text

end Signal

end Dataflow
