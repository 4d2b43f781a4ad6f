/-! # The shortest decimal of a binary number

A finite real is `mantissa · 2 ^ exponent`. The numbers that round to it form an interval between the
midpoints to its neighbours, ends included when the mantissa is even. `Binary.shortest` finds the
decimal in that interval that has the fewest digits and, of those, lies nearest. -/

namespace Dataflow.Decimal

/-- What a finite real is: `± mantissa · 2 ^ exponent`. `narrow` marks a mantissa at the foot of its
    binade, whose lower neighbour is only half as far away as the upper one. -/
structure Binary where
  negative : Bool
  mantissa : Nat
  exponent : Int
  narrow : Bool
  deriving DecidableEq, Repr

/-- A real, by kind. -/
inductive Real where
  | notANumber
  | infinite (negative : Bool)
  | finite (b : Binary)

def Real.ofFloat (x : Float) : Real :=
  let bits := x.toBits.toNat
  let negative := decide (Nat.pow 2 63 ≤ bits)
  let biased := bits / Nat.pow 2 52 % 2048
  let fraction := bits % Nat.pow 2 52
  if biased = 2047 then
    if fraction = 0 then .infinite negative else .notANumber
  else if biased = 0 then
    .finite ⟨negative, fraction, -1074, false⟩
  else
    .finite ⟨negative, Nat.pow 2 52 + fraction, Int.ofNat biased - 1075, decide (fraction = 0 ∧ 1 < biased)⟩

/-- A decimal `0.d₁d₂… · 10 ^ point`, without a zero at either end of its digits. -/
structure Digits where
  digits : List Nat
  point : Int
  deriving DecidableEq, Repr

/-- A non-negative rational `num / den`. -/
structure Ratio where
  num : Nat
  den : Nat

namespace Ratio

/-- `n · base ^ e`. -/
def scaled (n base : Nat) (e : Int) : Ratio := ⟨n * Nat.pow base e.toNat, Nat.pow base (-e).toNat⟩

def lt (a b : Ratio) : Bool := a.num * b.den < b.num * a.den

def le (a b : Ratio) : Bool := a.num * b.den ≤ b.num * a.den

def floor (a : Ratio) : Nat := a.num / a.den

/-- Divided by `10 ^ e`. -/
def shift (a : Ratio) (e : Int) : Ratio := ⟨a.num * Nat.pow 10 (-e).toNat, a.den * Nat.pow 10 e.toNat⟩

end Ratio

/-- The least `k` below `bound` with `1 ≤ r · 10 ^ k`, or `bound`. -/
def leadingZeros (r : Ratio) (bound : Nat) : Nat :=
  ((List.range bound).find? fun k => r.den ≤ r.num * Nat.pow 10 k).getD bound

/-- The exponent of the first digit: the greatest `e` with `10 ^ e ≤ r`, for a positive `r` above
    `10 ^ -400`. -/
def Ratio.magnitude (r : Ratio) : Int :=
  if r.den ≤ r.num then Int.ofNat (Nat.toDigits 10 r.floor).length - 1 else -Int.ofNat (leadingZeros r 400)

/-- Which of two equally near decimals is taken. -/
inductive Tie where
  | up | even
  deriving DecidableEq, Repr

namespace Binary

/-- In units of `2 ^ (exponent - 2)`: the value, and the ends of the interval that rounds to it. -/
def units (b : Binary) : Nat × Nat × Nat :=
  (4 * b.mantissa, 4 * b.mantissa - (if b.narrow then 1 else 2), 4 * b.mantissa + 2)

def value (b : Binary) : Ratio := .scaled b.units.1 2 (b.exponent - 2)

/-- Whether a decimal rounds to the real. -/
def rounds (b : Binary) (r : Ratio) : Bool :=
  let low := Ratio.scaled b.units.2.1 2 (b.exponent - 2)
  let high := Ratio.scaled b.units.2.2 2 (b.exponent - 2)
  if b.mantissa % 2 = 0 then low.le r && r.le high else low.lt r && r.lt high

/-- The multiple of `10 ^ step` that rounds to the real and lies nearest to it, if there is one: it is
    next to the real on one side or the other. -/
def onGrid? (b : Binary) (tie : Tie) (step : Int) : Option Nat :=
  let below := (b.value.shift step).floor
  let fits n := b.rounds (.scaled n 10 step)
  let middle := Ratio.scaled (2 * below + 1) 10 step
  let double : Ratio := ⟨2 * b.value.num, b.value.den⟩
  match fits below, fits (below + 1) with
  | true, false => some below
  | false, true => some (below + 1)
  | false, false => none
  | true, true =>
    if double.lt middle then some below
    else if middle.lt double then some (below + 1)
    else match tie with
      | .up => some (below + 1)
      | .even => some (if below % 2 = 0 then below else below + 1)

def digitsOf (n : Nat) : List Nat := (Nat.toDigits 10 n).map fun c => c.toNat - '0'.toNat

/-- The decimal `n · 10 ^ step`. -/
def normal (n : Nat) (step : Int) : Digits :=
  let all := digitsOf n
  ⟨(all.reverse.dropWhile (· == 0)).reverse, step + Int.ofNat all.length⟩

/-- The real itself, as `2 ^ -k = 5 ^ k · 10 ^ -k`. -/
def exact (b : Binary) : Digits :=
  normal (b.mantissa * Nat.pow 2 b.exponent.toNat * Nat.pow 5 (-b.exponent).toNat) (-Int.ofNat (-b.exponent).toNat)

/-- The shortest decimal, from one digit up; seventeen digits always do. -/
def shortest (b : Binary) (tie : Tie) : Digits :=
  if b.mantissa = 0 then ⟨[], 0⟩
  else
    let top := b.value.magnitude
    let grids := (List.range 17).map fun k => top - Int.ofNat k
    (grids.findSome? fun step => (b.onGrid? tie step).map (normal · step)).getD b.exact

end Binary

end Dataflow.Decimal
