import Dataflow.Json.Basic
import Dataflow.Text.Utf8

/-! # The tokens of JSON

The scanner takes one symbol at a time and keeps what it needs of the token it is in. -/

namespace Dataflow

namespace Json

inductive Token where
  | openObject | closeObject | openArray | closeArray | comma | colon
  | word (literal : List Char)
  | number (literal : List Char)
  | string (s : Option String)
  deriving DecidableEq, Repr

/-- A piece of a string literal: a character, a UTF-16 unit that is a surrogate, or a hole. -/
inductive Piece where
  | char (c : Char)
  | unit (n : Nat)
  | hole
  deriving DecidableEq, Repr

/-- The text that pieces denote: a high surrogate must be followed by a low one. -/
def textOf? : List Piece → Option (List Char)
  | [] => some []
  | .char c :: rest => (textOf? rest).map (c :: ·)
  | .unit high :: .unit low :: rest =>
    if high < 0xDC00 ∧ 0xDC00 ≤ low then
      (textOf? rest).map (Char.ofNat (0x10000 + (high - 0xD800) * 0x400 + (low - 0xDC00)) :: ·)
    else none
  | _ => none

/-- The piece that the four digits of a Unicode escape write. -/
def Piece.ofUnit (n : Nat) : Piece := if 0xD800 ≤ n ∧ n < 0xE000 then .unit n else .char (Char.ofNat n)

/-- What the scanner is in the middle of; pieces and characters are kept in reverse. -/
inductive Scan where
  | between
  | word (done : List Char)
  | number (done : List Char)
  | string (done : List Piece)
  | escape (done : List Piece)
  | unicode (done : List Piece) (digits : List Char)

def isSpace (c : Char) : Bool := c == ' ' || c == '\n' || c == '\t' || c == '\r'

def startsNumber (c : Char) : Bool := c.isDigit || c == '-'

def continuesNumber (c : Char) : Bool :=
  c.isDigit || c == '-' || c == '+' || c == '.' || c == 'e' || c == 'E'

def isHex (c : Char) : Bool := c.isDigit || ('a' ≤ c && c ≤ 'f') || ('A' ≤ c && c ≤ 'F')

/-- The character that a single letter after a backslash stands for. -/
def escaped? : Char → Option Char
  | '"' => some '"'
  | '\\' => some '\\'
  | '/' => some '/'
  | 'b' => some '\x08'
  | 'f' => some '\x0c'
  | 'n' => some '\n'
  | 'r' => some '\r'
  | 't' => some '\t'
  | _ => none

/-- The tokens that one character completes between tokens, and where it leaves the scanner. -/
def begin? (c : Char) : Option (List Token × Scan) :=
  if isSpace c then some ([], .between)
  else if c.isAlpha then some ([], .word [c])
  else if startsNumber c then some ([], .number [c])
  else match c with
    | '{' => some ([.openObject], .between)
    | '}' => some ([.closeObject], .between)
    | '[' => some ([.openArray], .between)
    | ']' => some ([.closeArray], .between)
    | ',' => some ([.comma], .between)
    | ':' => some ([.colon], .between)
    | '"' => some ([], .string [])
    | _ => none

def numberToken? (reversed : List Char) : Option Token :=
  match Decimal.Numeral.ofChars? reversed.reverse with
  | some n => if n.isJson then some (.number reversed.reverse) else none
  | none => none

/-- The token that is complete when the text ends or another token begins. -/
def Scan.finish? : Scan → Option (List Token)
  | .between => some []
  | .word done => some [.word done.reverse]
  | .number done => (numberToken? done).map ([·])
  | _ => none

def Scan.step? : Scan → Text.Symbol → Option (List Token × Scan)
  | .string done, none => some ([], .string (.hole :: done))
  | _, none => none
  | .between, some c => begin? c
  | .word done, some c =>
    if c.isAlpha then some ([], .word (c :: done))
    else (begin? c).map fun (tokens, s) => (.word done.reverse :: tokens, s)
  | .number done, some c =>
    if continuesNumber c then some ([], .number (c :: done))
    else do
      let token ← numberToken? done
      let (tokens, s) ← begin? c
      return (token :: tokens, s)
  | .string done, some c =>
    if c = '"' then some ([.string ((textOf? done.reverse).map String.ofList)], .between)
    else if c = '\\' then some ([], .escape done)
    else if c.toNat < 0x20 then none
    else some ([], .string (.char c :: done))
  | .escape done, some c =>
    if c = 'u' then some ([], .unicode done [])
    else (escaped? c).map fun x => ([], .string (.char x :: done))
  | .unicode done digits, some c =>
    if !isHex c then none
    else if digits.length < 3 then some ([], .unicode done (c :: digits))
    else some ([], .string (.ofUnit (Decimal.Numeral.ofDigits 16 (c :: digits).reverse) :: done))

end Json

end Dataflow
