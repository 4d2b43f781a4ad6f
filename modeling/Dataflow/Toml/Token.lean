import Dataflow.Decimal.Numeral

/-! # The tokens of TOML

The scanner takes one character at a time. Strings are decoded on the way; everything that is neither
punctuation nor a string nor a comment is an atom, whose meaning depends on where it stands. -/

namespace Dataflow

namespace Toml

inductive Token where
  | dot | equals | comma | openBracket | closeBracket | openBrace | closeBrace
  | blank | comment | newline
  | atom (cs : List Char)
  | string (s : String) (multi : Bool)
  deriving DecidableEq, Repr

/-- The two kinds of quotes: escapes have a meaning in a basic string only. -/
inductive Quote where
  | basic | literal
  deriving DecidableEq, Repr

def Quote.char : Quote → Char
  | basic => '"'
  | literal => '\''

/-- What the scanner is in the middle of; characters are kept in reverse. -/
inductive Scan where
  | between
  | blank
  | carriage
  | comment
  | atom (done : List Char)
  /-- After the first or second of the quotes that open a string. -/
  | opening (q : Quote) (second : Bool)
  | line (q : Quote) (done : List Char)
  | lineEscape (done : List Char)
  | lineCode (done : List Char) (left : Nat) (code : Nat)
  /-- At the start of a string of several lines, where a line break does not count. -/
  | blockStart (q : Quote) (carriage : Bool)
  /-- Inside a string of several lines, after so many quotes in a row. -/
  | block (q : Quote) (done : List Char) (quotes : Nat)
  | blockCarriage (q : Quote) (done : List Char)
  | blockEscape (done : List Char)
  | blockCode (done : List Char) (left : Nat) (code : Nat)
  /-- After a backslash at the end of a line: blanks and line breaks do not count. -/
  | fold (done : List Char) (broken carriage : Bool)

/-- Characters that may stand in a comment or a string as they are. -/
def isPlain (c : Char) : Bool := c == '\t' || (0x20 ≤ c.toNat && c.toNat != 0x7F)

def isSpace (c : Char) : Bool := c == ' ' || c == '\t'

def endsAtom (c : Char) : Bool :=
  isSpace c || ['.', '=', ',', '[', ']', '{', '}', '#', '\r', '\n', '"', '\''].contains c

/-- The character that a single letter after a backslash stands for. -/
def escaped? : Char → Option Char
  | 'b' => some '\x08'
  | 't' => some '\t'
  | 'n' => some '\n'
  | 'f' => some '\x0c'
  | 'r' => some '\r'
  | 'e' => some '\x1b'
  | '"' => some '"'
  | '\\' => some '\\'
  | _ => none

/-- The number of hexadecimal digits after the letter of a numeric escape. -/
def codeLength? : Char → Option Nat
  | 'x' => some 2
  | 'u' => some 4
  | 'U' => some 8
  | _ => none

def hexDigit? (c : Char) : Option Nat :=
  if c.isDigit || ('a' ≤ c && c ≤ 'f') || ('A' ≤ c && c ≤ 'F') then some (Decimal.Numeral.ofDigits.digit c)
  else none

def charOf? (code : Nat) : Option Char := if code.isValidChar then some (Char.ofNat code) else none

def begin? (c : Char) : Option (List Token × Scan) :=
  match c with
  | ' ' | '\t' => some ([], .blank)
  | '\n' => some ([.newline], .between)
  | '\r' => some ([], .carriage)
  | '#' => some ([], .comment)
  | '.' => some ([.dot], .between)
  | '=' => some ([.equals], .between)
  | ',' => some ([.comma], .between)
  | '[' => some ([.openBracket], .between)
  | ']' => some ([.closeBracket], .between)
  | '{' => some ([.openBrace], .between)
  | '}' => some ([.closeBrace], .between)
  | '"' => some ([], .opening .basic false)
  | '\'' => some ([], .opening .literal false)
  | c => some ([], .atom [c])

/-- A token, and then what a character begins. -/
def thenBegin? (t : Token) (c : Char) : Option (List Token × Scan) :=
  (begin? c).map fun (tokens, s) => (t :: tokens, s)

private def stringOf (reversed : List Char) (multi : Bool) : Token := .string (String.ofList reversed.reverse) multi

/-- A string of several lines that ends after `quotes` quotes, three of which close it. -/
private def blockToken (q : Quote) (done : List Char) (quotes : Nat) : Token :=
  stringOf (List.replicate (quotes - 3) q.char ++ done) true

/-- A character inside a string of several lines that is no quote. -/
def inBlock? (q : Quote) (done : List Char) (c : Char) : Option (List Token × Scan) :=
  if c = '\\' ∧ q = .basic then some ([], .blockEscape done)
  else if c = '\n' then some ([], .block q (c :: done) 0)
  else if c = '\r' then some ([], .blockCarriage q (c :: done))
  else if isPlain c then some ([], .block q (c :: done) 0)
  else none

def blockStep? (q : Quote) (done : List Char) (quotes : Nat) (c : Char) : Option (List Token × Scan) :=
  if c = q.char then
    if quotes = 4 then some ([blockToken q done 5], .between) else some ([], .block q done (quotes + 1))
  else if 3 ≤ quotes then thenBegin? (blockToken q done quotes) c
  else inBlock? q (List.replicate quotes q.char ++ done) c

/-- The next digit of a numeric escape, with what follows when it is the last. -/
private def codeStep? (left code : Nat) (c : Char) (more : Nat → Nat → Scan) (last : Char → Scan) :
    Option (List Token × Scan) := do
  let code := code * 16 + (← hexDigit? c)
  if left ≤ 1 then return ([], last (← charOf? code)) else return ([], more (left - 1) code)

/-- A character inside a string of one line. -/
def inLine? (q : Quote) (done : List Char) (c : Char) : Option (List Token × Scan) :=
  if c = q.char then some ([stringOf done false], .between)
  else if c = '\\' ∧ q = .basic then some ([], .lineEscape done)
  else if isPlain c then some ([], .line q (c :: done))
  else none

def Scan.step? : Scan → Char → Option (List Token × Scan)
  | .between, c => begin? c
  | .blank, c => if isSpace c then some ([], .blank) else thenBegin? .blank c
  | .carriage, c => if c = '\n' then some ([.newline], .between) else none
  | .comment, c =>
    if c = '\n' ∨ c = '\r' then thenBegin? .comment c
    else if isPlain c then some ([], .comment) else none
  | .atom done, c =>
    if endsAtom c then thenBegin? (.atom done.reverse) c else some ([], .atom (c :: done))
  | .opening q false, c => if c = q.char then some ([], .opening q true) else inLine? q [] c
  | .opening q true, c =>
    if c = q.char then some ([], .blockStart q false) else thenBegin? (.string "" false) c
  | .line q done, c => inLine? q done c
  | .lineEscape done, c => match codeLength? c with
    | some n => some ([], .lineCode done n 0)
    | none => (escaped? c).map fun x => ([], .line .basic (x :: done))
  | .lineCode done left code, c =>
    codeStep? left code c (.lineCode done) fun x => .line .basic (x :: done)
  | .blockStart q false, c =>
    if c = '\n' then some ([], .block q [] 0)
    else if c = '\r' then some ([], .blockStart q true)
    else blockStep? q [] 0 c
  | .blockStart q true, c => if c = '\n' then some ([], .block q [] 0) else none
  | .block q done quotes, c => blockStep? q done quotes c
  | .blockCarriage q done, c => if c = '\n' then some ([], .block q (c :: done) 0) else none
  | .blockEscape done, c => match codeLength? c with
    | some n => some ([], .blockCode done n 0)
    | none =>
      if isSpace c then some ([], .fold done false false)
      else if c = '\n' then some ([], .fold done true false)
      else if c = '\r' then some ([], .fold done false true)
      else (escaped? c).map fun x => ([], .block .basic (x :: done) 0)
  | .blockCode done left code, c =>
    codeStep? left code c (.blockCode done) fun x => .block .basic (x :: done) 0
  | .fold done _ true, c => if c = '\n' then some ([], .fold done true false) else none
  | .fold done broken false, c =>
    if isSpace c then some ([], .fold done broken false)
    else if c = '\n' then some ([], .fold done true false)
    else if c = '\r' then some ([], .fold done broken true)
    else if broken then blockStep? .basic done 0 c
    else none

/-- The token that is complete at the end of the text. -/
def Scan.finish? : Scan → Option (List Token)
  | .between => some []
  | .blank => some [.blank]
  | .comment => some [.comment]
  | .atom done => some [.atom done.reverse]
  | .opening _ true => some [.string "" false]
  | .block q done quotes => if 3 ≤ quotes then some [blockToken q done quotes] else none
  | _ => none

end Toml

end Dataflow
