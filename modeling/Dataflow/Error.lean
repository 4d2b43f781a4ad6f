/-! # Errors

Every way in which building, reading, refining, evaluating or configuring a model can fail, with the
text shown for it, the part of the system it belongs to, how grave it is and what to do about it. -/

namespace Dataflow

inductive Error where
  /-- Two sizes that have to agree do not. -/
  | dimensionMismatch (context : String) (expected actual : Nat)
  | notFound (name : String)
  | typeMismatch (expected actual : String)
  | unknownType (name : String)
  /-- A node refers to one that does not come before it. -/
  | cyclicReference (node referenced : Nat)
  | unboundInput (node : Nat)
  | compute (message : String)
  | transform (message : String)
  /-- An integer has no archived form. -/
  | outOfRange (value type : String)
  | io (message : String)
  /-- A text is not the written form of what was to be read. -/
  | serialization (message : String)
  | config (message : String)
  | configCheck (field message : String)
  | configValue (field value reason : String)
  | configMissing (field : String)
  /-- The program stops. Only a slice of a signal ends so, when its end wraps around. -/
  | crash (message : String)
  deriving DecidableEq, Repr

abbrev Result := Except Error

namespace Error

def message : Error → String
  | dimensionMismatch context expected actual =>
    s!"Dimension mismatch in {context}: expected {expected}, got {actual}"
  | notFound name => s!"Not found: {name}"
  | typeMismatch expected actual => s!"Type mismatch: expected {expected}, found {actual}"
  | unknownType name => s!"Unknown type: {name}"
  | cyclicReference node referenced =>
    s!"Cyclic reference: node {node} references node {referenced}, which is not inserted before it"
  | unboundInput node => s!"Input node {node} has no bound value"
  | compute message => s!"Compute error: {message}"
  | transform message => s!"Transform error: {message}"
  | outOfRange value type => s!"Value {value} does not fit in an archived {type}"
  | io message => s!"IO error: {message}"
  | serialization message => s!"Serialization error: {message}"
  | config message => s!"Configuration error: {message}"
  | configCheck field message => s!"Configuration validation failed for '{field}': {message}"
  | configValue field value reason => s!"Invalid value '{value}' for '{field}': {reason}"
  | configMissing field => s!"Missing required configuration: {field}"
  | crash message => message

/-- The part of the system an error belongs to. -/
inductive Category where
  | graph | reflection | archive | configuration | system
  deriving DecidableEq, Repr

def Category.name : Category → String
  | graph => "Graph"
  | reflection => "Reflection"
  | archive => "Archive"
  | configuration => "Configuration"
  | system => "System"

/-- How a message of the category is introduced to a user. -/
def Category.heading : Category → String
  | graph => "Pipeline graph error"
  | reflection => "Object description error"
  | archive => "Archive error"
  | configuration => "Configuration problem"
  | system => "System error"

def category : Error → Category
  | dimensionMismatch .. | cyclicReference .. | unboundInput _ | compute _ | transform _ => .graph
  | notFound _ | typeMismatch .. => .reflection
  | unknownType _ | outOfRange .. | serialization _ => .archive
  | config _ | configCheck .. | configValue .. | configMissing _ => .configuration
  | io _ | crash _ => .system

/-- How grave an error is, which decides the exit status of the command. -/
inductive Severity where
  | low | medium | high | critical
  deriving DecidableEq, Repr

def Severity.name : Severity → String
  | low => "Low"
  | medium => "Medium"
  | high => "High"
  | critical => "Critical"

def Severity.exitStatus : Severity → UInt8
  | low => 0
  | medium => 2
  | high => 1
  | critical => 3

def severity : Error → Severity
  | unboundInput _ => .medium
  | io _ | crash _ => .critical
  | _ => .high

def suggestion : Error → String
  | dimensionMismatch .. => "Check that connected port sizes agree with the node's expected dimension"
  | notFound _ => "Check the property or port name"
  | typeMismatch .. => "Check the element type of the connected ports or stored values"
  | unknownType _ => "Register the node type in the serialization context before reading the archive"
  | cyclicReference .. => "Nodes may only reference outputs of nodes inserted before them"
  | unboundInput _ => "Provide input values with --inputs"
  | compute _ => "Check input values for overflow or division by zero"
  | transform _ => "Make sure every node maps all of its output ports"
  | outOfRange .. => "Keep stored integers within the 64-bit signed range"
  | io _ => "Check that the file exists and permissions are correct"
  | serialization _ => "Check that the archive is valid JSON produced by this tool"
  | config _ | configCheck .. | configValue .. | configMissing _ => "Fix the configuration and try again"
  | crash _ => "Keep ranges of elements within 64-bit sizes"

/-- The message under the heading of its category. -/
def friendly (e : Error) : String := s!"{e.category.heading}: {e.message}"

end Error

end Dataflow
