import Dataflow.Toml.Scalar
import Dataflow.Toml.Token

/-! # Reading TOML

The reader takes one token at a time. It keeps the document so far, the table that the last header named,
and a stack of the arrays and inline tables that it is inside of. -/

namespace Dataflow

namespace Toml

inductive Frame where
  /-- The value of a key of the current table. -/
  | line (path : List String)
  | array (done : List Value)
  /-- An inline table, and the key that gets the next value. -/
  | table (done : Entries) (path : List String)

/-- What may come next. Keys and atoms are kept in reverse. -/
inductive Mode where
  | start
  /-- After the opening bracket of a header. -/
  | bracket
  | header (item : Bool) (parts : List String) (want : Bool)
  /-- After the first closing bracket of the header of an array item. -/
  | closing (parts : List String)
  | key (parts : List String) (want : Bool)
  | value
  | scalar (done : List Char)
  /-- After a date and a blank. -/
  | dated (done : List Char)
  /-- After a value inside an array or an inline table. -/
  | after
  /-- At the next key of an inline table. -/
  | name
  /-- After a header or a key and its value. -/
  | done

structure Read where
  root : Entries
  /-- The path of the current table. -/
  current : List String
  stack : List Frame
  mode : Mode

/-- The levels of arrays and inline tables that a value may have. -/
def maxDepth : Nat := 80

def isBareKey (cs : List Char) : Bool :=
  !cs.isEmpty && cs.all fun c => c.isAlphanum || c == '_' || c == '-'

/-- The part of a key that a token is. -/
def Token.part? : Token → Option String
  | .atom cs => if isBareKey cs then some (String.ofList cs) else none
  | .string s false => some s
  | _ => none

/-- A path and its last part. -/
def splitPath? (path : List String) : Option (List String × String) :=
  path.getLast?.map fun key => (path.dropLast, key)

/-- Gives the innermost key or array the value that is complete. -/
def Read.give? (r : Read) (v : Value) : Option Read :=
  match r.stack with
  | [] => none
  | .line path :: stack => do
    let (above, key) ← splitPath? path
    let (_, root) ← update? false r.current (insert? above key v) .header r.root
    return { r with root, stack, mode := .done }
  | .array done :: stack => some { r with stack := .array (v :: done) :: stack, mode := .after }
  | .table done path :: stack => do
    let (above, key) ← splitPath? path
    let (_, done) ← insert? above key v .inline done
    return { r with stack := .table done [] :: stack, mode := .after }

/-- Closes the innermost array. -/
def Read.closeArray? (r : Read) : Option Read :=
  match r.stack with
  | .array done :: stack => { r with stack }.give? (.array false done.reverse)
  | _ => none

def Read.closeTable? (r : Read) : Option Read :=
  match r.stack with
  | .table done _ :: stack => { r with stack }.give? (.table .inline done)
  | _ => none

def Read.push? (r : Read) (f : Frame) (mode : Mode) : Option Read :=
  if maxDepth < r.stack.length then none else some { r with stack := f :: r.stack, mode }

def Read.inArray (r : Read) : Bool :=
  match r.stack with
  | .array _ :: _ => true
  | _ => false

/-- A token after a value or a header. -/
def Read.afterValue? (r : Read) (t : Token) : Option Read :=
  match r.mode, t with
  | .done, .blank | .done, .comment => some r
  | .done, .newline => some { r with mode := .start }
  | .after, .blank | .after, .comment | .after, .newline => some r
  | .after, .comma => some { r with mode := if r.inArray then .value else .name }
  | .after, .closeBracket => r.closeArray?
  | .after, .closeBrace => r.closeTable?
  | _, _ => none

/-- The value that an atom and what belongs to it stand for. -/
def Read.endScalar? (r : Read) (reversed : List Char) : Option Read := do r.give? (← scalar? reversed.reverse)

def Read.valueStep? (r : Read) : Token → Option Read
  | .blank => some r
  | .newline | .comment => if r.inArray then some r else none
  | .string s _ => r.give? (.text s)
  | .atom cs => some { r with mode := .scalar cs.reverse }
  | .dot => some { r with mode := .scalar ['.'] }
  | .openBracket => r.push? (.array []) .value
  | .openBrace => r.push? (.table [] []) .name
  | .closeBracket => r.closeArray?
  | _ => none

/-- The equals sign after a key. -/
def Read.assign? (r : Read) (path : List String) : Option Read :=
  match r.stack with
  | [] => some { r with stack := [.line path], mode := .value }
  | .table done _ :: stack => some { r with stack := .table done path :: stack, mode := .value }
  | _ => none

/-- The closing bracket of a header. -/
def Read.enter? (r : Read) (item : Bool) (path : List String) : Option Read := do
  let (above, key) ← splitPath? path
  let (_, root) ← (if item then openItem? above key else openTable? above key) .header r.root
  return { r with root, current := path, mode := .done }

def Read.headerStep? (r : Read) (item : Bool) (parts : List String) (want : Bool) (t : Token) : Option Read :=
  match want, t with
  | _, .blank => some { r with mode := .header item parts want }
  | true, t => do return { r with mode := .header item ((← t.part?) :: parts) false }
  | false, .dot => some { r with mode := .header item parts true }
  | false, .closeBracket => if item then some { r with mode := .closing parts } else r.enter? false parts.reverse
  | false, _ => none

def Read.step? (r : Read) (t : Token) : Option Read :=
  match r.mode, t with
  | .start, .blank | .start, .comment | .start, .newline => some r
  | .start, .openBracket => some { r with mode := .bracket }
  | .start, t => do return { r with mode := .key [← t.part?] false }
  | .bracket, .openBracket => some { r with mode := .header true [] true }
  | .bracket, t => r.headerStep? false [] true t
  | .header item parts want, t => r.headerStep? item parts want t
  | .closing parts, .closeBracket => r.enter? true parts.reverse
  | .closing _, _ => none
  | .key _ _, .blank => some r
  | .key parts true, t => do return { r with mode := .key ((← t.part?) :: parts) false }
  | .key parts false, .dot => some { r with mode := .key parts true }
  | .key parts false, .equals => r.assign? parts.reverse
  | .key _ false, _ => none
  | .value, t => r.valueStep? t
  | .scalar done, .atom cs => some { r with mode := .scalar (cs.reverse ++ done) }
  | .scalar done, .dot => some { r with mode := .scalar ('.' :: done) }
  | .scalar done, .blank =>
    if isDate done.reverse then some { r with mode := .dated done }
    else do (← r.endScalar? done).afterValue? .blank
  | .scalar done, t => do (← r.endScalar? done).afterValue? t
  | .dated done, .atom cs => some { r with mode := .scalar (cs.reverse ++ ' ' :: done) }
  | .dated done, t => do (← r.endScalar? done).afterValue? t
  | .name, .blank | .name, .newline | .name, .comment => some r
  | .name, .closeBrace => r.closeTable?
  | .name, t => do return { r with mode := .key [← t.part?] false }
  | .after, t | .done, t => r.afterValue? t

/-- The document, if the text may end here. -/
def Read.finish? (r : Read) : Option Entries :=
  match r.mode with
  | .start | .done => some r.root
  | .scalar done | .dated done => do
    let r ← r.endScalar? done
    match r.mode with
    | .done => some r.root
    | _ => none
  | _ => none

def run? : Read → List Token → Option Read
  | r, [] => some r
  | r, t :: rest => match r.step? t with
    | none => none
    | some r => run? r rest

def feed? : Scan → Read → List Char → Option Read
  | s, r, [] => match s.finish? with
    | none => none
    | some tokens => run? r tokens
  | s, r, c :: rest => match s.step? c with
    | none => none
    | some (tokens, s) => match run? r tokens with
      | none => none
      | some r => feed? s r rest

/-- Reads a document; a byte order mark in front of it does not count. -/
def parse? (text : String) : Option Entries := do
  let cs := match text.toList with
    | '\uFEFF' :: rest => rest
    | cs => cs
  (← feed? .between ⟨[], [], [], .start⟩ cs).finish?

end Toml

end Dataflow
