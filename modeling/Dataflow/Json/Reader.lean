import Dataflow.Json.Token

/-! # Reading JSON

The scanner takes one symbol at a time and the reader one token at a time. The arrays and objects that it
is inside of are kept on a stack, each with what it has already, in reverse. -/

namespace Dataflow

namespace Json

inductive Frame where
  | array (done : List Raw)
  | object (done : List (Option String × Raw))
  /-- An object after the name of a member. -/
  | member (done : List (Option String × Raw)) (name : Option String)

/-- What may come next. -/
inductive Expect where
  /-- The document or an item; after an opening bracket the array may also end. -/
  | value (mayClose : Bool)
  | name (mayClose : Bool)
  | colon
  /-- A comma, or the end of the innermost array or object. -/
  | more
  | nothing (document : Raw)

structure Read where
  stack : List Frame
  expect : Expect

/-- Puts a value where it belongs. -/
def place (j : Raw) : List Frame → Option Read
  | [] => some ⟨[], .nothing j⟩
  | .array done :: stack => some ⟨.array (j :: done) :: stack, .more⟩
  | .member done name :: stack => some ⟨.object ((name, j) :: done) :: stack, .more⟩
  | .object _ :: _ => none

/-- The value that a token is by itself. -/
def Token.value? : Token → Option Raw
  | .word literal => match String.ofList literal with
    | "null" => some .null
    | "true" => some (.bool true)
    | "false" => some (.bool false)
    | _ => none
  | .number literal => some (.number (String.ofList literal))
  | .string s => some (.string s)
  | _ => none

def Read.step? (r : Read) (t : Token) : Option Read :=
  match r.expect, t, r.stack with
  | .value _, .openArray, stack => some ⟨.array [] :: stack, .value true⟩
  | .value _, .openObject, stack => some ⟨.object [] :: stack, .name true⟩
  | .value true, .closeArray, .array [] :: stack => place (.array []) stack
  | .value _, t, stack => do place (← t.value?) stack
  | .name _, .string s, .object done :: stack => some ⟨.member done s :: stack, .colon⟩
  | .name true, .closeObject, .object [] :: stack => place (.object []) stack
  | .colon, .colon, stack => some ⟨stack, .value false⟩
  | .more, .comma, .array done :: stack => some ⟨.array done :: stack, .value false⟩
  | .more, .comma, .object done :: stack => some ⟨.object done :: stack, .name false⟩
  | .more, .closeArray, .array done :: stack => place (.array done.reverse) stack
  | .more, .closeObject, .object done :: stack => place (.object done.reverse) stack
  | _, _, _ => none

def run? : Read → List Token → Option Read
  | r, [] => some r
  | r, t :: rest => do run? (← r.step? t) rest

/-- Takes symbols one at a time, through the scanner to the reader. -/
def feed? : Scan → Read → List Text.Symbol → Option Read
  | s, r, [] => match s.finish? with
    | none => none
    | some tokens => run? r tokens
  | s, r, x :: rest => match s.step? x with
    | none => none
    | some (tokens, s) => match run? r tokens with
      | none => none
      | some r => feed? s r rest

/-- Reads a whole text. -/
def parse? (text : List Text.Symbol) : Option Raw := do
  match (← feed? .between ⟨[], .value false⟩ text).expect with
  | .nothing j => some j
  | _ => none

end Json

end Dataflow
