import Dataflow.Decimal.Numeral
import Dataflow.Text.Blank

/-! # Points in time

Whether a text names a point in time: a date, a time of day and an offset from universal time. White
space may stand between the parts, the seconds may have a fraction, and a year of more than four digits
needs a sign. -/

namespace Dataflow

namespace Timestamp

open Text

structure Date where
  year : Int
  month : Nat
  day : Nat

def isLeap (year : Int) : Bool := year % 4 == 0 && (year % 100 != 0 || year % 400 == 0)

def daysIn (year : Int) (month : Nat) : Nat :=
  if month = 2 then (if isLeap year then 29 else 28)
  else if [4, 6, 9, 11].contains month then 30
  else 31

def Date.exists (d : Date) : Bool :=
  1 ≤ d.month && d.month ≤ 12 && 1 ≤ d.day && d.day ≤ daysIn d.year d.month

/-- The years that the calendar reaches. -/
def firstYear : Int := -262143

def lastYear : Int := 262142

/-- Some of the next `most` characters, all of them digits. -/
def digits? (most : Nat) (cs : List Char) : Option (Nat × List Char) :=
  let ds := (cs.take most).takeWhile Char.isDigit
  if ds.isEmpty then none else some (Decimal.Numeral.ofDigits 10 ds, cs.drop ds.length)

def char? (c : Char) : List Char → Option (List Char)
  | [] => none
  | x :: rest => if x = c then some rest else none

def year? (cs : List Char) : Option (Int × List Char) :=
  match cs with
  | '-' :: rest => (digits? rest.length rest).map fun (n, rest) => (-Int.ofNat n, rest)
  | '+' :: rest => (digits? rest.length rest).map fun (n, rest) => (Int.ofNat n, rest)
  | _ => (digits? 4 cs).map fun (n, rest) => (Int.ofNat n, rest)

def date? (cs : List Char) : Option (Date × List Char) := do
  let (year, cs) ← year? (trimLeft cs)
  let cs ← char? '-' (trimLeft cs)
  let (month, cs) ← digits? 2 (trimLeft cs)
  let cs ← char? '-' (trimLeft cs)
  let (day, cs) ← digits? 2 (trimLeft cs)
  return (⟨year, month, day⟩, cs)

/-- The fraction of a second: a point and at least one digit. -/
def skipFraction? : List Char → Option (List Char)
  | '.' :: rest => (digits? 1 rest).map fun _ => rest.dropWhile Char.isDigit
  | cs => some cs

/-- The second of the day. The sixtieth second is a leap second and counts as the one before. -/
def time? (cs : List Char) : Option (Nat × List Char) := do
  let (hour, cs) ← digits? 2 (trimLeft cs)
  let cs ← char? ':' (trimLeft cs)
  let (minute, cs) ← digits? 2 (trimLeft cs)
  let cs ← char? ':' (trimLeft cs)
  let (second, cs) ← digits? 2 (trimLeft cs)
  let cs ← skipFraction? cs
  if 24 ≤ hour ∨ 60 ≤ minute ∨ 60 < second then none
  else return (hour * 3600 + minute * 60 + min second 59, cs)

private def twoDigits? : List Char → Option (Nat × List Char)
  | a :: b :: rest =>
    if a.isDigit && b.isDigit then some (Decimal.Numeral.ofDigits 10 [a, b], rest) else none
  | _ => none

/-- The offset from universal time, in seconds. -/
def offset? (cs : List Char) : Option (Int × List Char) :=
  match cs with
  | u :: t :: c :: rest =>
    if [u, t, c].map Char.toLower = ['u', 't', 'c'] then some (0, rest) else written cs
  | _ => written cs
where
  written : List Char → Option (Int × List Char)
    | [] => none
    | sign :: rest => do
      if sign = 'Z' ∨ sign = 'z' then return (0, rest)
      if ¬['+', '-', '−'].contains sign then none
      let (hours, rest) ← twoDigits? rest
      let (minutes, rest) ← twoDigits? (rest.dropWhile fun c => c == ':' || isBlank c)
      if 60 ≤ minutes ∨ 24 ≤ hours then none
      let seconds := Int.ofNat (hours * 3600 + minutes * 60)
      return (if sign = '+' then seconds else -seconds, rest)

/-- Whether a date and a time of day exist and, in universal time, lie within the calendar. -/
def inCalendar (d : Date) (second : Nat) (offset : Int) : Bool :=
  d.exists && firstYear ≤ d.year && d.year ≤ lastYear
    && !(d.year == firstYear && d.month == 1 && d.day == 1 && Int.ofNat second < offset)
    && !(d.year == lastYear && d.month == 12 && d.day == 31 && 86400 ≤ Int.ofNat second - offset)

def parse? (cs : List Char) : Option Unit := do
  let (date, cs) ← date? cs
  match cs with
  | [] => none
  | separator :: cs =>
    if ¬['T', 't', ' '].contains separator then none
    let (second, cs) ← time? cs
    let (offset, cs) ← offset? (trimLeft cs)
    if inCalendar date second offset && cs.all isBlank then some () else none

def isValid (s : String) : Bool := (parse? s.toList).isSome

/-! ### Writing -/

/-- The date of a day, counted from the first of January 1970. Years are taken to begin in March, so that
    a leap day is the last of its year, and come in eras of 400. -/
def Date.ofDay (day : Nat) : Date :=
  let shifted := day + 719468
  let era := shifted / 146097
  let inEra := shifted % 146097
  let year := (inEra - inEra / 1460 + inEra / 36524 - inEra / 146096) / 365
  let inYear := inEra - (365 * year + year / 4 - year / 100)
  let month := (5 * inYear + 2) / 153
  ⟨Int.ofNat (era * 400 + year + if month < 10 then 0 else 1), if month < 10 then month + 3 else month - 9,
    inYear - (153 * month + 2) / 5 + 1⟩

/-- The digits of a number, with zeros in front of it up to a width. -/
def padded (width n : Nat) : String :=
  let ds := Nat.toDigits 10 n
  String.ofList (List.replicate (width - ds.length) '0' ++ ds)

/-- The text of a point in universal time, counted in seconds from the beginning of 1970. -/
def write (seconds : Nat) : String :=
  let date := Date.ofDay (seconds / 86400)
  let second := seconds % 86400
  s!"{padded 4 date.year.toNat}-{padded 2 date.month}-{padded 2 date.day}T"
    ++ s!"{padded 2 (second / 3600)}:{padded 2 (second / 60 % 60)}:{padded 2 (second % 60)}Z"

end Timestamp

end Dataflow
