import Dataflow.Decimal.Layout
import Dataflow.Decimal.Numeral
import Dataflow.Fields
import Dataflow.Width

/-! # JSON documents

A number is kept as it is written, and members keep their order. The type of texts is a parameter: a
document that was just read may hold string literals that denote no text, so its texts are optional. -/

namespace Dataflow

inductive Json (τ : Type) where
  | null
  | bool (b : Bool)
  | number (literal : String)
  | string (s : τ)
  | array (items : List (Json τ))
  | object (members : List (τ × Json τ))

namespace Json

/-- A document whose texts are all known. -/
abbrev Doc := Json String

/-- A document as read: `none` is a string literal that denotes no text. -/
abbrev Raw := Json (Option String)

def ofInt (n : Int) : Doc := .number (toString n)

def ofNat (n : Nat) : Doc := .number (toString n)

/-- Reals without a decimal are written as texts. -/
def ofFloat (x : Float) : Doc :=
  match Decimal.nonFinite? x with
  | some name => .string name
  | none => .number (Decimal.Layout.stored.write x)

/-- The integer that a number literal writes. A minus sign before zero makes it a real. -/
def integer? (literal : String) : Option Int :=
  match Decimal.Numeral.ofChars? literal.toList with
  | some n => if n.isWhole && !(n.isNegative && n.toInt == 0) then some n.toInt else none
  | none => none

/-- The real nearest to what a number literal writes, unless that is beyond all reals. -/
def real? (literal : String) : Option Float :=
  match Decimal.Numeral.ofChars? literal.toList with
  | some n => if n.toFloat.isInf then none else some n.toFloat
  | none => none

/-- Whether a number literal is in range: a 64-bit integer, or a real that is not beyond all reals. -/
def isInRange (literal : String) : Bool :=
  (integer? literal).any (fun n => isSigned 64 n || isUnsigned 64 n) || (real? literal).isSome

/-! ### Use

A part of a document that is skipped only has to be well formed. A part that is used must denote
something, and must not be nested too deeply. -/

/-- The levels of arrays and objects that a document may have. -/
def maxDepth : Nat := 127

mutual

/-- The document itself, if every text is known, every number is in range, and at most `depth` levels are
    nested. -/
def used? (depth : Nat) : Raw → Option Doc
  | .null => some .null
  | .bool b => some (.bool b)
  | .number literal => if isInRange literal then some (.number literal) else none
  | .string s => s.map .string
  | .array items => match depth with
    | 0 => none
    | depth + 1 => (usedItems? depth items).map .array
  | .object members => match depth with
    | 0 => none
    | depth + 1 => (usedMembers? depth members).map .object

def usedItems? (depth : Nat) : List Raw → Option (List Doc)
  | [] => some []
  | j :: rest => do return (← used? depth j) :: (← usedItems? depth rest)

def usedMembers? (depth : Nat) : List (Option String × Raw) → Option (List (String × Doc))
  | [] => some []
  | (name, j) :: rest => do return (← name, ← used? depth j) :: (← usedMembers? depth rest)

end

end Json

end Dataflow
