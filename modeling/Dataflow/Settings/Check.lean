import Dataflow.Error
import Dataflow.Text.Blank

/-! # Checks of settings

Each check names the field that it refuses, the value in it and the reason. -/

namespace Dataflow

namespace Check

def path (field value : String) : Result Unit :=
  if value.isEmpty then .error (.configValue field value "Path cannot be empty")
  else if value.toList.contains '\x00' then .error (.configValue field value "Path contains null bytes")
  else .ok ()

def atLeast (field : String) (value least : Nat) : Result Unit :=
  if value < least then .error (.configValue field (toString value) s!"Value must be at least {least}")
  else .ok ()

def nonBlank (field value : String) : Result Unit :=
  if Text.isBlankText value then
    .error (.configValue field value "Value cannot be empty or whitespace-only")
  else .ok ()

/-- Refuses what is less than `low` or greater than `high`. -/
def range {α : Type} [LT α] [DecidableLT α] (shown : α → String) (field : String) (value low high : α) :
    Result Unit :=
  if value < low ∨ high < value then
    .error (.configValue field (shown value) s!"Value must be between {shown low} and {shown high}")
  else .ok ()

/-- What stands between the slashes of a path. -/
def parts (path : String) : List String := (path.toList.splitOn '/').map String.ofList

/-- The last part of a path that names a file: slashes and parts `.` at the end do not count, and a part
    `..` names none. -/
def fileName? (path : String) : Option String :=
  match ((parts path).filter fun part => part != "" && part != ".").getLast? with
  | some ".." => none
  | last => last

/-- What follows the last point of a file name, unless that point comes first. -/
def extension? (path : String) : Option String := do
  let name ← fileName? path
  let after := name.toList.reverse.takeWhile (· ≠ '.')
  let before := name.toList.length - after.length
  if before ≤ 1 then none else some (String.ofList after.reverse)

def extensions (field : String) (files allowed : List String) : Result Unit :=
  let listed := ", ".intercalate allowed
  files.forM fun file =>
    match extension? file with
    | some ext =>
      if allowed.contains ext then .ok ()
      else .error (.configValue field file
        s!"Unsupported file extension: {ext}. Allowed extensions: {listed}")
    | none => .error (.configValue field file "File has no extension or invalid filename")

end Check

end Dataflow
