import Dataflow.Description

/-! # Editing descriptions in place

A description is edited where it stands, or at a property that a path of names leads to. An edit that fails
stops where it is, and what it changed before stays changed. -/

namespace Dataflow

/-- Changing a description in place. -/
abbrev Editing := ExceptT Error (StateM Description)

namespace Editing

/-- Changes a declared property where it stands. -/
def property (name : String) (change : Editing Unit) : Editing Unit := do
  let p ← liftM ((← get).property name)
  let (result, changed) := change.run.run p
  modify (·.add name changed)
  liftM result

/-- Changes the description that a path of property names leads to. -/
def path : List String → Editing Unit → Editing Unit
  | [], change => change
  | name :: rest, change => property name (path rest change)

def setValue (v : Value) : Editing Unit := do
  let d ← get
  if v.type ≠ d.type then throw (.typeMismatch d.type v.type)
  set (Description.mk d.type d.doc (some v) d.properties)

def setPrimitive {α : Type} [Primitive α] (x : α) : Editing Unit := do setValue (← liftM (Primitive.toValue x))

/-- Takes the place of a description of the same type, and its documentation. -/
def replace (filled : Description) : Editing Unit := do
  let d ← get
  if d.type ≠ filled.type then throw (.typeMismatch d.type filled.type)
  set (d.withDoc "")
  set (filled.withDoc d.doc)

end Editing

/-- One edit of a description. -/
inductive Edit : Type 1 where
  /-- Declares a property of a primitive type. -/
  | addPrimitive (α : Type) [Primitive α] (name doc : String)
  /-- Declares a property of the shape of a type, with a documentation of its own. -/
  | addDescribed (name doc : String) (shape : Description)
  | add (name : String) (p : Description)
  | setValue (v : Value)
  | set {α : Type} [Primitive α] (x : α)
  | setProperty {α : Type} [Primitive α] (name : String) (x : α)
  | fill (name : String) (filled : Description)

namespace Edit

def act : Edit → Editing Unit
  | addPrimitive α name doc => modify (·.addPrimitive α name doc)
  | addDescribed name doc shape => modify (·.add name (shape.withDoc doc))
  | add name p => modify (·.add name p)
  | setValue v => Editing.setValue v
  | set x => Editing.setPrimitive x
  | setProperty name x => Editing.property name (Editing.setPrimitive x)
  | fill name filled => Editing.property name (Editing.replace filled)

/-- Edits the description that a path leads to. -/
def actAt (path : List String) (edit : Edit) : Editing Unit := Editing.path path edit.act

/-- The property that an edit adds or changes, unless it is about the description itself. -/
def name? : Edit → Option String
  | addPrimitive _ name _ | addDescribed name _ _ | add name _ | setProperty name _ | fill name _ => some name
  | setValue _ | set _ => none

/-- The descriptions that an edit puts into another. -/
def given : Edit → List Description
  | addDescribed _ _ p | add _ p | fill _ p => [p]
  | addPrimitive .. | setValue _ | set _ | setProperty .. => []

/-- What an edit makes of a description. -/
def apply : Edit → Description → Result Description
  | addPrimitive α name doc, d => .ok (d.addPrimitive α name doc)
  | addDescribed name doc shape, d => .ok (d.add name (shape.withDoc doc))
  | add name p, d => .ok (d.add name p)
  | setValue v, d => d.setValue v
  | set x, d => d.set x
  | setProperty name x, d => d.setProperty name x
  | fill name filled, d => d.fill name filled

end Edit

end Dataflow
