import Dataflow.Archive.Json
import Dataflow.Timestamp

/-! # Archive documents

The file form of an archive: an envelope with the name of the format and the time of writing, and the
root record in it. -/

namespace Dataflow

namespace Archive

namespace Document

def format : String := "pipeline-ir/json"

/-- The document that holds `root`, written at the time `stamp`. -/
def toJson (stamp : String) (root : Record) : Json.Doc :=
  .object [("format", .string format), ("created_at", .string stamp), ("root", root.toJson)]

def print (sp : Json.Spacing) (stamp : String) (root : Record) : String := (toJson stamp root).print sp

/-- The format name and the root record of a document. -/
def ofJson? (depth : Nat) (j : Json.Raw) : Option (String × Record) := do
  match ← Json.parts? id some ["format", "created_at", "root"] j with
  | [format, stamp, root] =>
    let format ← Json.string? (← Json.used? (depth - 1) format)
    let stamp ← Json.string? (← Json.used? (depth - 1) stamp)
    if Timestamp.isValid stamp then return (format, ← Record.ofJson? (depth - 1) root) else none
  | _ => none

/-- Reads the root record of a document of this format. -/
def parse (text : List Text.Symbol) : Result Record := do
  let (name, root) ← Json.decode "an archive document" (ofJson? Json.maxDepth) text
  if name = format then return root else throw (.typeMismatch format name)

end Document

end Archive

end Dataflow
