import Dataflow.Toml.Document
import Dataflow.Width

/-! # Reading out of TOML

What a value stands for where a text, a number, a list or a record is expected. A record is written as a
table or, its parts in order, as an array. -/

namespace Dataflow

namespace Toml

namespace Value

def text? : Value → Option String
  | .text s => some s
  | _ => none

def boolean? : Value → Option Bool
  | .boolean b => some b
  | _ => none

def size? : Value → Option Nat
  | .integer n => if isUnsigned 64 n then some n.toNat else none
  | _ => none

/-- A real, or an integer of at most 64 bits. -/
def float? : Value → Option Float
  | .real x => x
  | .integer n => if isSigned 64 n || isUnsigned 64 n then some (.ofInt n) else none
  | _ => none

def list? {α : Type} (item : Value → Option α) : Value → Option (List α)
  | .array _ items => items.mapM item
  | _ => none

mutual

/-- Whether all numbers have at most 128 bits or, if they are reals, are within range. -/
def isRepresentable : Value → Bool
  | .integer n => isSigned 128 n || isUnsigned 128 n
  | .real x => x.isSome
  | .array _ items => allRepresentable items
  | .table _ entries => entriesRepresentable entries
  | _ => true

def allRepresentable : List Value → Bool
  | [] => true
  | v :: rest => v.isRepresentable && allRepresentable rest

def entriesRepresentable : List (String × Value) → Bool
  | [] => true
  | (_, v) :: rest => v.isRepresentable && entriesRepresentable rest

end

/-- The parts that a table gives; what it has besides them must be representable. -/
def partsOf? (names : List String) (entries : Entries) : Option (List (Option Value)) :=
  if entries.all fun (name, v) => names.contains name || v.isRepresentable then
    some (names.map fun name => Fields.get? name entries)
  else none

/-- The parts of a record. An array must have at least `least` of them; a point in time counts as a table
    that has none. -/
def parts? (names : List String) (least : Nat) : Value → Option (List (Option Value))
  | .table _ entries => partsOf? names entries
  | .array _ items =>
    if items.length < least then none
    else some (names.zipIdx.map fun (_, i) => items[i]?)
  | .moment => some (names.map fun _ => none)
  | _ => none

/-- A part that may be missing. -/
def optional? {α : Type} (read : Value → Option α) : Option Value → Option (Option α)
  | none => some none
  | some v => (read v).map some

end Value

end Toml

end Dataflow
