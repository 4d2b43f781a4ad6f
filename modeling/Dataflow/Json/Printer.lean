import Dataflow.Json.Basic

/-! # Writing JSON

Compactly, without a space, or spread out, each item on a line of its own and two spaces in for each
level. -/

namespace Dataflow

namespace Json

inductive Spacing where
  | compact | spread
  deriving DecidableEq, Repr

/-- The written form of a character inside a string literal. -/
def escape (c : Char) : List Char :=
  if c = '"' then ['\\', '"']
  else if c = '\\' then ['\\', '\\']
  else if c = '\x08' then ['\\', 'b']
  else if c = '\x0c' then ['\\', 'f']
  else if c = '\n' then ['\\', 'n']
  else if c = '\r' then ['\\', 'r']
  else if c = '\t' then ['\\', 't']
  else if c.toNat < 0x20 then
    ['\\', 'u', '0', '0', Nat.digitChar (c.toNat / 16), Nat.digitChar (c.toNat % 16)]
  else [c]

def quote (s : String) : List Char := '"' :: s.toList.flatMap escape ++ ['"']

/-- What stands before an item at a depth. -/
def Spacing.newline : Spacing → Nat → List Char
  | .compact, _ => []
  | .spread, depth => '\n' :: List.replicate (2 * depth) ' '

def Spacing.colon : Spacing → List Char
  | .compact => [':']
  | .spread => [':', ' ']

mutual

def chars (sp : Spacing) (depth : Nat) : Doc → List Char
  | .null => "null".toList
  | .bool true => "true".toList
  | .bool false => "false".toList
  | .number literal => literal.toList
  | .string s => quote s
  | .array [] => ['[', ']']
  | .array (j :: rest) =>
    '[' :: sp.newline (depth + 1) ++ chars sp (depth + 1) j ++ itemChars sp (depth + 1) rest
      ++ sp.newline depth ++ [']']
  | .object [] => ['{', '}']
  | .object ((name, j) :: rest) =>
    '{' :: sp.newline (depth + 1) ++ quote name ++ sp.colon ++ chars sp (depth + 1) j
      ++ memberChars sp (depth + 1) rest ++ sp.newline depth ++ ['}']

/-- The items after the first. -/
def itemChars (sp : Spacing) (depth : Nat) : List Doc → List Char
  | [] => []
  | j :: rest => ',' :: sp.newline depth ++ chars sp depth j ++ itemChars sp depth rest

def memberChars (sp : Spacing) (depth : Nat) : List (String × Doc) → List Char
  | [] => []
  | (name, j) :: rest =>
    ',' :: sp.newline depth ++ quote name ++ sp.colon ++ chars sp depth j ++ memberChars sp depth rest

end

def print (sp : Spacing) (j : Doc) : String := String.ofList (chars sp 0 j)

end Json

end Dataflow
