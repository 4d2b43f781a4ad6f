/-! # Reading numbers

The parts of a decimal numeral, and its value. The grammars that the system reads differ only in which
parts may be missing, so each is a predicate on the parts. -/

namespace Dataflow.Decimal

structure Numeral where
  sign : Option Char
  whole : List Char
  fraction : Option (List Char)
  /-- The sign and the digits after an `e`. -/
  exponent : Option (Option Char × List Char)
  deriving DecidableEq, Repr

namespace Numeral

def takeSign : List Char → Option Char × List Char
  | '+' :: rest => (some '+', rest)
  | '-' :: rest => (some '-', rest)
  | cs => (none, cs)

def takeDigits (cs : List Char) : List Char × List Char := (cs.takeWhile Char.isDigit, cs.dropWhile Char.isDigit)

def takeFraction : List Char → Option (List Char) × List Char
  | '.' :: rest => ((takeDigits rest).1, (takeDigits rest).2)
  | cs => (none, cs)

def takeExponent : List Char → Option (Option Char × List Char) × List Char
  | [] => (none, [])
  | c :: rest =>
    if c = 'e' ∨ c = 'E' then
      let (sign, rest) := takeSign rest
      (some (sign, (takeDigits rest).1), (takeDigits rest).2)
    else (none, c :: rest)

/-- Takes a text apart, if it has nothing but the parts of a numeral. -/
def ofChars? (cs : List Char) : Option Numeral :=
  let (sign, cs) := takeSign cs
  let (whole, cs) := takeDigits cs
  let (fraction, cs) := takeFraction cs
  let (exponent, cs) := takeExponent cs
  if cs.isEmpty then some ⟨sign, whole, fraction, exponent⟩ else none

def isNegative (n : Numeral) : Bool := n.sign == some '-'

def isWhole (n : Numeral) : Bool := n.fraction.isNone && n.exponent.isNone

/-- Some digit in front of or behind the point, and an exponent that has digits. -/
def isFree (n : Numeral) : Bool :=
  !(n.whole ++ n.fraction.getD []).isEmpty && n.exponent.all fun e => !e.2.isEmpty

/-- No needless zero in front, no plus sign, and digits wherever there is a point or an exponent. -/
def isJson (n : Numeral) : Bool :=
  n.sign != some '+' && !n.whole.isEmpty && (n.whole.length == 1 || n.whole.head? != some '0')
    && n.fraction.all (!·.isEmpty) && n.exponent.all fun e => !e.2.isEmpty

/-- The number that digits write in a base. -/
def ofDigits (base : Nat) (cs : List Char) : Nat :=
  cs.foldl (fun n c => n * base + digit c) 0
where
  digit (c : Char) : Nat :=
    if c.isDigit then c.toNat - '0'.toNat
    else if c.isUpper then c.toNat - 'A'.toNat + 10
    else c.toNat - 'a'.toNat + 10

/-- The whole part with its sign. -/
def toInt (n : Numeral) : Int :=
  let v := Int.ofNat (ofDigits 10 n.whole)
  if n.isNegative then -v else v

/-- The digits as a natural number, and the power of ten of the last one. -/
def scaled (n : Numeral) : Nat × Int :=
  let fraction := n.fraction.getD []
  let power : Int := match n.exponent with
    | none => 0
    | some (sign, ds) => if sign = some '-' then -Int.ofNat (ofDigits 10 ds) else Int.ofNat (ofDigits 10 ds)
  (ofDigits 10 (n.whole ++ fraction), power - Int.ofNat fraction.length)

def infinity : Float := 1.0 / 0.0

def notANumber : Float := 0.0 / 0.0

/-- The real nearest to `m · 10 ^ e`. Far beyond the range of reals no power of ten is computed. -/
def nearest (m : Nat) (e : Int) : Float :=
  let magnitude := e + Int.ofNat (Nat.toDigits 10 m).length
  if m = 0 ∨ magnitude < -400 then 0.0
  else if 400 < magnitude then infinity
  else Float.ofScientific m (decide (e < 0)) e.natAbs

def toFloat (n : Numeral) : Float :=
  let x := nearest n.scaled.1 n.scaled.2
  if n.isNegative then -x else x

end Numeral

/-- Reads a real in free form: a numeral, `inf`, `infinity` or `nan`, in any case and with a sign. -/
def real? (s : String) : Option Float :=
  let (sign, word) := Numeral.takeSign s.toList
  let signed (x : Float) : Float := if sign = some '-' then -x else x
  match String.ofList (word.map Char.toLower) with
  | "inf" | "infinity" => some (signed Numeral.infinity)
  | "nan" => some Numeral.notANumber
  | _ => match Numeral.ofChars? s.toList with
    | some n => if n.isFree then some n.toFloat else none
    | none => none

/-- Reads a size: digits, with or without a plus sign, of a number below `2 ^ 64`. -/
def size? (s : String) : Option Nat :=
  match Numeral.ofChars? s.toList with
  | some n =>
    let v := Numeral.ofDigits 10 n.whole
    if n.isWhole && !n.isNegative && !n.whole.isEmpty && v < Nat.pow 2 64 then some v else none
  | none => none

end Dataflow.Decimal
