/-! # References to variables

A reference is `${`, then a name of one or more characters other than `}`, then `}`. Reading from left to
right, a text is taken apart into references and other characters. A reference to a variable that has a
value is replaced by it, which is not read again, and one to any other variable stays as it is. -/

namespace Dataflow

namespace Substitution

inductive Piece where
  | plain (c : Char)
  | reference (name : List Char)
  deriving DecidableEq, Repr

def Piece.text : Piece → List Char
  | plain c => [c]
  | reference name => '$' :: '{' :: name ++ ['}']

/-- Where a reader stands: outside of references, after a `$`, or inside the name, which is kept in
    reverse. -/
inductive State where
  | outside
  | dollar
  | inside (name : List Char)
  deriving DecidableEq, Repr

/-- What is held back of the text. -/
def State.held : State → List Char
  | outside => []
  | dollar => ['$']
  | inside name => '$' :: '{' :: name.reverse

/-- The pieces of the rest of a text, and of what is held back of it. -/
def pieces : State → List Char → List Piece
  | s, [] => s.held.map .plain
  | .outside, c :: rest =>
    if c = '$' then pieces .dollar rest else .plain c :: pieces .outside rest
  | .dollar, c :: rest =>
    if c = '{' then pieces (.inside []) rest
    else if c = '$' then .plain '$' :: pieces .dollar rest
    else .plain '$' :: .plain c :: pieces .outside rest
  | .inside name, c :: rest =>
    if c ≠ '}' then pieces (.inside (c :: name)) rest
    else if name.isEmpty then .plain '$' :: .plain '{' :: .plain '}' :: pieces .outside rest
    else .reference name.reverse :: pieces .outside rest

/-- What stands for a piece. -/
def resolve (value? : String → Option String) : Piece → List Char
  | .plain c => [c]
  | .reference name => match value? (String.ofList name) with
    | some value => value.toList
    | none => (Piece.reference name).text

/-- The variables that a text refers to. -/
def names (text : String) : List String :=
  (pieces .outside text.toList).filterMap fun
    | .plain _ => none
    | .reference name => some (String.ofList name)

end Substitution

/-- Replaces the references in a text. -/
def substitute (value? : String → Option String) (text : String) : String :=
  String.ofList ((Substitution.pieces .outside text.toList).flatMap (Substitution.resolve value?))

end Dataflow
