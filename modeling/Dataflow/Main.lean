import Std.Time.DateTime
import Dataflow.Pipeline
import Dataflow.Settings.File
import Dataflow.Settings.Flags

/-! # The command

Runs the pipeline over local files. The settings come from flags or, if the only argument is the path of
a TOML file, from that file. -/

namespace Dataflow

namespace Command

/-- The text of a file, or why there is none. -/
def attempt {α : Type} (act : IO α) : ExceptT Error IO α := do
  match ← act.toBaseIO with
  | .ok x => return x
  | .error e => throw (.io (toString e))

/-- The path of the directory that a file is in. -/
def directory (path : String) : String := "/".intercalate (path.splitOn "/").dropLast

/-- Local files; the directory of a file is made when the file is written. -/
def localFiles : Storage IO where
  read path := do return Text.decodeUtf8 (← attempt (IO.FS.readBinFile path)).data.toList
  write path text := do
    if directory path ≠ "" then attempt (IO.FS.createDirAll (directory path))
    attempt (IO.FS.writeFile path text)

def now : IO String := do
  return Timestamp.write (← Std.Time.Timestamp.now).toSecondsSinceUnixEpoch.val.toNat

def describeAll (m : Model Builtin) : Result String := do
  return String.join (← m.nodes.mapM fun n => do return (← Describe.describe n).display)

/-- Checks the settings, describes the model if that is asked for, and runs. -/
def run (settings : Settings) (check : Result Unit) (describe : Bool) : ExceptT Error IO Unit := do
  liftM check
  if describe then IO.print (← liftM (describeAll (← Pipeline.fetch localFiles settings)))
  IO.println s!"Model stored: {← Pipeline.run localFiles (← now) settings}"

/-- Tells of a failure and gives the exit status. -/
def report (outcome : Result Unit) : IO UInt32 := do
  match outcome with
  | .ok _ => return 0
  | .error (.crash message) =>
    IO.eprintln message
    return 101
  | .error e =>
    IO.eprintln e.friendly
    IO.eprintln e.suggestion
    return e.severity.exitStatus.toUInt32

def usage : String :=
  "usage: dataflow SETTINGS.toml\n"
    ++ "       dataflow [--model FILE] [--output-path DIR] [--refine] [--max-passes N] [--verify]\n"
    ++ "                [--inputs X,...] [--weights X,...] [--bias X] [--describe]"

/-- Reads a settings file, with references to environment variables. -/
def readSettings (path : String) : ExceptT Error IO SettingsFile := do
  let text ← attempt (IO.FS.readFile path)
  let names := Substitution.names text
  let env ← names.filterMapM fun name => do return (← IO.getEnv name).map (name, ·)
  liftM (SettingsFile.parse (fun name => env.lookup name) text)

def runFile (path : String) : ExceptT Error IO Unit := do
  let f ← readSettings path
  run f.settings f.check false

end Command

end Dataflow

open Dataflow in
def main (args : List String) : IO UInt32 := do
  match args with
  | [path] =>
    if path.endsWith ".toml" then return ← Command.report (← (Command.runFile path).run)
  | _ => pure ()
  match Flags.parse args with
  | .ok f => Command.report (← (Command.run f.settings f.check f.describe).run)
  | .error fault =>
    IO.eprintln s!"{fault.name}\n{Command.usage}"
    return if fault = .displayHelp then 0 else 2
