import Dataflow.Decimal.Numeral
import Dataflow.Settings.Basic
import Dataflow.Settings.Check

/-! # Command line flags

A flag is a switch, or takes a value that stands behind it or after `=`. A value that stands behind its
flag is looked at when the next flag or the end is reached. Lists are separated by commas and may be
given in several pieces. -/

namespace Dataflow

structure Flags where
  model : Option String
  outputPath : String
  refine : Bool
  maxPasses : Nat
  verify : Bool
  inputs : List Float
  weights : List Float
  bias : Float
  describe : Bool
  verbose : Bool
  logJson : Bool

namespace Flags

/-- Why a command line is not understood. -/
inductive Fault where
  | unknownArgument | valueValidation | invalidValue | argumentConflict | tooManyValues | displayHelp
  deriving DecidableEq, Repr

def Fault.name : Fault → String
  | unknownArgument => "UnknownArgument"
  | valueValidation => "ValueValidation"
  | invalidValue => "InvalidValue"
  | argumentConflict => "ArgumentConflict"
  | tooManyValues => "TooManyValues"
  | displayHelp => "DisplayHelp"

inductive Switch where
  | refine | verify | describe | verbose | logJson
  deriving DecidableEq, Repr

inductive Valued where
  | model | outputPath | maxPasses | inputs | weights | bias
  deriving DecidableEq, Repr

inductive Flag where
  | switch (s : Switch)
  | option (o : Valued)
  | help

def flag? : String → Option Flag
  | "model" => some (.option .model)
  | "output-path" => some (.option .outputPath)
  | "refine" => some (.switch .refine)
  | "max-passes" => some (.option .maxPasses)
  | "verify" => some (.switch .verify)
  | "inputs" => some (.option .inputs)
  | "weights" => some (.option .weights)
  | "bias" => some (.option .bias)
  | "describe" => some (.switch .describe)
  | "verbose" => some (.switch .verbose)
  | "log-json" => some (.switch .logJson)
  | "help" => some .help
  | _ => none

/-- Whether whatever comes next is the value, even if it looks like a flag. -/
def Valued.takesHyphens : Valued → Bool
  | inputs | weights | bias => true
  | _ => false

/-- What has been given so far. -/
structure Given where
  switches : List Switch := []
  model : Option String := none
  outputPath : Option String := none
  maxPasses : Option Nat := none
  inputs : Option (List Float) := none
  weights : Option (List Float) := none
  bias : Option Float := none

namespace Given

def turnOn (g : Given) (s : Switch) : Except Fault Given :=
  if g.switches.contains s then .error .argumentConflict else .ok { g with switches := s :: g.switches }

private def once {α : Type} (present : Option α) (value : Option α) : Except Fault (Option α) :=
  match present, value with
  | some _, _ => .error .argumentConflict
  | none, none => .error .valueValidation
  | none, some x => .ok (some x)

private def reals (present : Option (List Float)) (value : String) : Except Fault (Option (List Float)) :=
  match (value.splitOn ",").mapM Decimal.real? with
  | some xs => .ok (some (present.getD [] ++ xs))
  | none => .error .valueValidation

def accept (g : Given) (o : Valued) (value : String) : Except Fault Given :=
  match o with
  | .model => do return { g with model := ← once g.model (some value) }
  | .outputPath => do return { g with outputPath := ← once g.outputPath (some value) }
  | .maxPasses => do return { g with maxPasses := ← once g.maxPasses (Decimal.size? value) }
  | .inputs => do return { g with inputs := ← reals g.inputs value }
  | .weights => do return { g with weights := ← reals g.weights value }
  | .bias => do return { g with bias := ← once g.bias (Decimal.real? value) }

def toFlags (g : Given) : Flags where
  model := g.model
  outputPath := g.outputPath.getD "./output"
  refine := g.switches.contains .refine
  maxPasses := g.maxPasses.getD Settings.defaultMaxPasses
  verify := g.switches.contains .verify
  inputs := g.inputs.getD []
  weights := g.weights.getD Settings.defaultWeights
  bias := g.bias.getD Settings.defaultBias
  describe := g.switches.contains .describe
  verbose := g.switches.contains .verbose
  logJson := g.switches.contains .logJson

end Given

/-- An option that is not settled yet. -/
inductive Pending where
  | nothing
  | awaits (o : Valued)
  | has (o : Valued) (value : String)

def settle (g : Given) : Pending → Except Fault Given
  | .nothing => .ok g
  | .awaits _ => .error .invalidValue
  | .has o value => g.accept o value

/-- The name and the value in a text `name=value`, or the name alone. -/
def splitFlag (cs : List Char) : String × Option String :=
  let name := cs.takeWhile (· ≠ '=')
  match cs.dropWhile (· ≠ '=') with
  | _ :: value => (String.ofList name, some (String.ofList value))
  | [] => (String.ofList name, none)

/-- A flag with two hyphens. -/
def long (g : Given) (p : Pending) (cs : List Char) : Except Fault (Given × Pending) :=
  let (name, value) := splitFlag cs
  match flag? name, value with
  | none, _ => .error .unknownArgument
  | some (.option o), some value => do return (← (← settle g p).accept o value, .nothing)
  | some (.option o), none => do return (← settle g p, .awaits o)
  | some (.switch s), none => do return (← (← settle g p).turnOn s, .nothing)
  | some .help, none => do
    discard (settle g p)
    throw .displayHelp
  | some _, some _ => .error .tooManyValues

/-- A flag with one hyphen: help is the only one. -/
def short (g : Given) (p : Pending) : List Char → Except Fault (Given × Pending)
  | 'h' :: _ => do
    discard (settle g p)
    throw .displayHelp
  | _ => .error .unknownArgument

/-- An argument that looks like no flag is the value of the option in front of it. -/
def plain (g : Given) (p : Pending) (arg : String) : Except Fault (Given × Pending) :=
  match p with
  | .awaits o => .ok (g, .has o arg)
  | _ => .error .unknownArgument

def Pending.takesHyphens : Pending → Bool
  | .awaits o => o.takesHyphens
  | _ => false

def argument (g : Given) (p : Pending) (arg : String) : Except Fault (Given × Pending) :=
  if p.takesHyphens then plain g p arg
  else match arg.toList with
    | '-' :: '-' :: cs => long g p cs
    | '-' :: c :: cs => short g p (c :: cs)
    | _ => plain g p arg

def parseFrom : Given → Pending → List String → Except Fault Given
  | g, p, [] => settle g p
  | g, p, arg :: rest =>
    if arg = "--" ∧ p.takesHyphens = false then
      if rest.isEmpty then settle g p else .error .unknownArgument
    else do
      let (g, p) ← argument g p arg
      parseFrom g p rest

def parse (args : List String) : Except Fault Flags := do return (← parseFrom {} .nothing args).toFlags

def settings (f : Flags) : Settings where
  modelPath := f.model
  outputPath := f.outputPath
  refine := f.refine
  maxPasses := f.maxPasses
  verify := f.verify
  inputs := f.inputs
  weights := f.weights
  bias := f.bias
  modelFile := Settings.defaultModelFile
  reportFile := Settings.defaultReportFile

def check (f : Flags) : Result Unit := do
  Check.path "output_path" f.outputPath
  Check.range toString "max_passes" f.maxPasses 1 Settings.maxPassesLimit
  match f.model with
  | some path => do
    Check.path "model" path
    Check.extensions "model" [path] ["json"]
  | none => Check.atLeast "weights" f.weights.length 1
  if f.verify && !f.refine then throw (.configCheck "verify" "--verify requires --refine")

end Flags

end Dataflow
