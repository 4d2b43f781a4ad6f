import Dataflow.Timestamp
import Dataflow.Toml.Document

/-! # The scalars of TOML

What an atom stands for where a value is expected: a truth value, a number, or a point in time. -/

namespace Dataflow

namespace Toml

/-- Digits without the underscores between them. -/
def group? (isDigit : Char → Bool) : List Char → Option (List Char)
  | [] => none
  | [c] => if isDigit c then some [c] else none
  | c :: '_' :: rest => if isDigit c then (group? isDigit rest).map (c :: ·) else none
  | c :: rest => if isDigit c then (group? isDigit rest).map (c :: ·) else none

/-- A whole number does not start with a needless zero. -/
def whole? (cs : List Char) : Option (List Char) := do
  let ds ← group? Char.isDigit cs
  if ds.length = 1 ∨ ds.head? ≠ some '0' then some ds else none

private def isGrouped (c : Char) : Bool := c.isDigit || c == '_'

/-- A decimal integer or a real that has a fraction or an exponent. -/
def decimal? (cs : List Char) : Option Value := do
  let (sign, cs) := Decimal.Numeral.takeSign cs
  let whole ← whole? (cs.takeWhile isGrouped)
  let cs := cs.dropWhile isGrouped
  let (fraction, cs) ← match cs with
    | '.' :: rest => do pure (some (← group? Char.isDigit (rest.takeWhile isGrouped)), rest.dropWhile isGrouped)
    | _ => pure (none, cs)
  let exponent ← match cs with
    | [] => pure none
    | c :: rest =>
      if c = 'e' ∨ c = 'E' then do
        let (sign, rest) := Decimal.Numeral.takeSign rest
        pure (some (sign, ← group? Char.isDigit rest))
      else none
  let n : Decimal.Numeral := ⟨sign, whole, fraction, exponent⟩
  if n.isWhole then return .integer n.toInt
  else return .real (if n.toFloat.isInf then none else some n.toFloat)

/-- An integer in another base. -/
def based? : List Char → Option Value
  | '0' :: 'x' :: rest => do
    let ds ← group? (fun c => c.isDigit || ('a' ≤ c && c ≤ 'f') || ('A' ≤ c && c ≤ 'F')) rest
    return .integer (Decimal.Numeral.ofDigits 16 ds)
  | '0' :: 'o' :: rest => do
    return .integer (Decimal.Numeral.ofDigits 8 (← group? (fun c => '0' ≤ c && c ≤ '7') rest))
  | '0' :: 'b' :: rest => do
    return .integer (Decimal.Numeral.ofDigits 2 (← group? (fun c => c == '0' || c == '1') rest))
  | _ => none

def special? (cs : List Char) : Option Value :=
  let (sign, word) := Decimal.Numeral.takeSign cs
  match String.ofList word with
  | "inf" => some (.real (some (if sign = some '-' then -Decimal.Numeral.infinity else Decimal.Numeral.infinity)))
  | "nan" => some (.real (some Decimal.Numeral.notANumber))
  | _ => none

/-! ### Points in time -/

/-- Exactly `count` digits. -/
def fixed? (count : Nat) (cs : List Char) : Option (Nat × List Char) :=
  if (cs.take count).length = count ∧ (cs.take count).all Char.isDigit then
    some (Decimal.Numeral.ofDigits 10 (cs.take count), cs.drop count)
  else none

def date? (cs : List Char) : Option (List Char) := do
  let (year, cs) ← fixed? 4 cs
  let (month, cs) ← fixed? 2 (← Timestamp.char? '-' cs)
  let (day, cs) ← fixed? 2 (← Timestamp.char? '-' cs)
  if (Timestamp.Date.mk year month day).exists then some cs else none

/-- A time of day; the seconds may be missing, and may have a fraction. -/
def time? (cs : List Char) : Option (List Char) := do
  let (hour, cs) ← fixed? 2 cs
  let (minute, cs) ← fixed? 2 (← Timestamp.char? ':' cs)
  if 24 ≤ hour ∨ 60 ≤ minute then none
  match cs with
  | ':' :: rest =>
    let (second, cs) ← fixed? 2 rest
    if 60 < second then none else Timestamp.skipFraction? cs
  | _ => some cs

def offset? (cs : List Char) : Option Unit :=
  match cs with
  | [] | ['Z'] | ['z'] => some ()
  | sign :: rest => do
    if sign ≠ '+' ∧ sign ≠ '-' then none
    let (hours, cs) ← fixed? 2 rest
    let (minutes, cs) ← fixed? 2 (← Timestamp.char? ':' cs)
    if 24 ≤ hours ∨ 60 ≤ minutes ∨ ¬cs.isEmpty then none else some ()

def moment? (cs : List Char) : Option Value :=
  match date? cs with
  | some [] => some .moment
  | some (separator :: rest) =>
    if [' ', 'T', 't'].contains separator then do
      offset? (← time? rest)
      return .moment
    else none
  | none => match time? cs with
    | some [] => some .moment
    | _ => none

/-- Whether a blank and a time of day may follow. -/
def isDate (cs : List Char) : Bool := date? cs == some []

def scalar? (cs : List Char) : Option Value :=
  match String.ofList cs with
  | "true" => some (.boolean true)
  | "false" => some (.boolean false)
  | _ => (special? cs).or ((based? cs).or ((decimal? cs).or (moment? cs)))

end Toml

end Dataflow
