/-! # Reading octets as characters

A text file is a sequence of octets, and not every one is UTF-8. Octets that make up no character are
kept as a hole, so that a reader can decide where a hole does harm. -/

namespace Dataflow.Text

/-- A character, or a hole: octets that make up none. -/
abbrev Symbol := Option Char

/-- The symbols of a text, none of them a hole. -/
def symbols (s : String) : List Symbol := s.toList.map some

namespace Utf8

/-- Where a reader stands between two octets: between characters, or inside one that has `owed` more
    octets, the next of them from `low` to `high`, the bits so far being `value`. -/
inductive State where
  | start
  | inside (owed : Nat) (low high : UInt8) (value : Nat)
  deriving DecidableEq, Repr

/-- The first octet of a character fixes how many follow and, as every character has one written form
    and surrogates have none, what the second may be. -/
def first (b : UInt8) : List Symbol × State :=
  if b < 0x80 then ([some (Char.ofNat b.toNat)], .start)
  else if 0xC2 ≤ b && b ≤ 0xDF then ([], .inside 1 0x80 0xBF (b.toNat % 32))
  else if b == 0xE0 then ([], .inside 2 0xA0 0xBF 0)
  else if b == 0xED then ([], .inside 2 0x80 0x9F 13)
  else if 0xE1 ≤ b && b ≤ 0xEF then ([], .inside 2 0x80 0xBF (b.toNat % 16))
  else if b == 0xF0 then ([], .inside 3 0x90 0xBF 0)
  else if b == 0xF4 then ([], .inside 3 0x80 0x8F 4)
  else if 0xF1 ≤ b && b ≤ 0xF3 then ([], .inside 3 0x80 0xBF (b.toNat % 8))
  else ([none], .start)

def step : State → UInt8 → List Symbol × State
  | .start, b => first b
  | .inside owed low high value, b =>
    if low ≤ b && b ≤ high then
      let value := value * 64 + b.toNat % 64
      if owed ≤ 1 then ([some (Char.ofNat value)], .start)
      else ([], .inside (owed - 1) 0x80 0xBF value)
    else (none :: (first b).1, (first b).2)

def run : State → List UInt8 → List Symbol
  | .start, [] => []
  | .inside .., [] => [none]
  | s, b :: rest => (step s b).1 ++ run (step s b).2 rest

end Utf8

def decodeUtf8 (octets : List UInt8) : List Symbol := Utf8.run .start octets

end Dataflow.Text
