import Dataflow.Decimal.Shortest

/-! # Writing reals

A layout says how the digits of a real are set out. Both layouts of the system write the shortest
decimal; they differ in where positional notation ends, in whether whole numbers keep a `.0`, and in
which of two equally near decimals is taken. -/

namespace Dataflow.Decimal

structure Layout where
  /-- Powers of ten of the first digit that are written positionally; `none` is no limit. -/
  lowest : Option Int
  highest : Option Int
  /-- Whether a whole number in positional notation ends in `.0`. -/
  point : Bool
  tie : Tie

/-- Display text: always positional, a whole number without a point, and a tie goes up. -/
def Layout.plain : Layout := ⟨none, none, false, .up⟩

/-- Stored text: positional from `10 ^ -5` and below `10 ^ 16`, and a tie goes to the even digit. -/
def Layout.stored : Layout := ⟨some (-5), some 15, true, .even⟩

namespace Layout

def isPositional (l : Layout) (power : Int) : Bool :=
  l.lowest.all (· ≤ power) && l.highest.all (power ≤ ·)

def zeros (n : Nat) : List Char := List.replicate n '0'

def positional (l : Layout) (d : Digits) : List Char :=
  let cs := d.digits.map Nat.digitChar
  let stop := if l.point then ['.', '0'] else []
  if cs.isEmpty then '0' :: stop
  else if d.point ≤ 0 then ['0', '.'] ++ zeros (-d.point).toNat ++ cs
  else if cs.length ≤ d.point.toNat then cs ++ zeros (d.point.toNat - cs.length) ++ stop
  else cs.take d.point.toNat ++ ['.'] ++ cs.drop d.point.toNat

def scientific (d : Digits) : List Char :=
  let cs := d.digits.map Nat.digitChar
  let power := d.point - 1
  cs.take 1 ++ (if cs.length ≤ 1 then [] else '.' :: cs.drop 1) ++ ['e', if power < 0 then '-' else '+']
    ++ Nat.toDigits 10 power.natAbs

def ofDigits (l : Layout) (d : Digits) : List Char :=
  if d.digits.isEmpty || l.isPositional (d.point - 1) then l.positional d else scientific d

end Layout

/-- The name of a real that has no decimal. -/
def nonFinite? (x : Float) : Option String :=
  match Real.ofFloat x with
  | .notANumber => some "NaN"
  | .infinite false => some "inf"
  | .infinite true => some "-inf"
  | .finite _ => none

def Layout.write (l : Layout) (x : Float) : String :=
  match Real.ofFloat x with
  | .finite b => String.ofList ((if b.negative then ['-'] else []) ++ l.ofDigits (b.shortest l.tie))
  | .notANumber => "NaN"
  | .infinite false => "inf"
  | .infinite true => "-inf"

end Dataflow.Decimal
