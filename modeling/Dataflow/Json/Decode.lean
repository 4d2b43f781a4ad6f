import Dataflow.Json.Reader
import Dataflow.Value

/-! # Decoding JSON

A structure is written as an object with its parts as members, and may also be read from an array of its
parts in order. Members with other names are skipped; a part that is missing or given twice is refused. -/

namespace Dataflow

namespace Json

/-- The value of the member `name`, if there is exactly one. -/
def only? {α : Type} (name : String) (members : List (String × α)) : Option α :=
  match members.filter (·.1 == name) with
  | [(_, x)] => some x
  | _ => none

/-- The parts of a structure. `known` reads the name of a member and `use` a part. -/
def parts? {τ β : Type} (known : τ → Option String) (use : Json τ → Option β) (names : List String) :
    Json τ → Option (List β)
  | .object members => do
    let named ← members.mapM fun (name, j) => return (← known name, j)
    names.mapM fun name => do use (← only? name named)
  | .array items => if items.length = names.length then items.mapM use else none
  | _ => none

/-- The parts of a structure inside a document in use. -/
def Doc.parts? (names : List String) (j : Doc) : Option (List Doc) := Json.parts? some some names j

/-- The parts of a structure that is read from a text, with at most `depth` levels from it down. -/
def Raw.parts? (depth : Nat) (names : List String) (j : Raw) : Option (List Doc) :=
  Json.parts? id (used? (depth - 1)) names j

/-- A name that says which alternative follows: a text, or a member without content. -/
def tag? : Doc → Option String
  | .string s => some s
  | .object [(name, .null)] => some name
  | _ => none

def bool? : Doc → Option Bool
  | .bool b => some b
  | _ => none

def string? : Doc → Option String
  | .string s => some s
  | _ => none

def int64? : Doc → Option Int64
  | .number literal => match integer? literal with
    | some n => if isSigned 64 n then some (Int64.ofInt n) else none
    | none => none
  | _ => none

def size? : Doc → Option Nat
  | .number literal => match integer? literal with
    | some n => if isUnsigned 64 n then some n.toNat else none
    | none => none
  | _ => none

/-- A number, or the name of a real without a decimal. -/
def float? : Doc → Option Float
  | .number literal => real? literal
  | .string "NaN" => some Decimal.Numeral.notANumber
  | .string "inf" => some Decimal.Numeral.infinity
  | .string "-inf" => some (-Decimal.Numeral.infinity)
  | _ => none

def list? {α : Type} (item : Doc → Option α) : Doc → Option (List α)
  | .array items => items.mapM item
  | _ => none

/-- Reads a whole text. -/
def decode {α : Type} (what : String) (read : Raw → Option α) (text : List Text.Symbol) : Result α :=
  match (parse? text).bind read with
  | some x => .ok x
  | none => .error (.serialization s!"not {what}")

end Json

end Dataflow
