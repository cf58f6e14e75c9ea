import JoinPlan.Configuration
import JoinPlan.Data.Run
import JoinPlan.Request.Decode

/-!
# Command line

`init` writes an initial configuration directory, and `explain` prints the SQL
statement a request starts with.
-/

namespace JoinPlan.CommandLine

/-- The files a request is explained from. -/
structure RequestFiles where
  configuration : String
  request : String
  context : Option String

inductive Command
  | init (directory : String)
  | explain (files : RequestFiles)

/-- Options in pairs of a name and a value. -/
def pairs? : List String → Option (List (String × String))
  | [] => some []
  | name :: value :: rest => (pairs? rest).map ((name, value) :: ·)
  | [_] => none

def parse? : List String → Option Command
  | "init" :: rest => do
      let options ← pairs? rest
      some (.init (← Assoc.get? "--configuration" options))
  | "explain" :: rest => do
      let options ← pairs? rest
      let configuration ← Assoc.get? "--configuration" options
      let request ← Assoc.get? "--request" options
      some (.explain { configuration, request, context := Assoc.get? "--context" options })
  | _ => none

def usage : String :=
  "usage: init --configuration DIR\n" ++
    "       explain --configuration DIR --request FILE [--context FILE]"

def configurationFile (directory : String) : String := directory ++ "/configuration.json"

/-- The statement a request starts with, or why there is none. -/
def explainText (settings : Settings) (request : Request) (context : Context) :
    Except String String :=
  (explain ⟨settings.dialect, settings.minify⟩ ⟨settings.schema, context⟩ request).mapError
    PlanError.message

def readFile {α : Type} (decode : String → Option α) (path : String) : IO α := do
  match decode (← IO.FS.readFile path) with
  | some value => pure value
  | none => throw (IO.userError ("unable to parse " ++ path))

/-- A configuration put to use with the environment of the process. -/
def loadSettings (directory : String) : IO Settings := do
  let configuration ← readFile Configuration.parse? (configurationFile directory)
  let found ← configuration.variableNames.mapM fun name => do pure (name, ← IO.getEnv name)
  match configuration.resolve fun name => (Assoc.get? name found).join with
  | .ok settings => pure settings
  | .error error => throw (IO.userError error.message)

def runCommand : Command → IO Unit
  | .init directory => do
      IO.FS.createDirAll directory
      IO.FS.writeFile (configurationFile directory) (Configuration.initial.text?.getD "")
  | .explain files => do
      let settings ← loadSettings files.configuration
      let request ← readFile Request.parse? files.request
      let context ←
        match files.context with
        | some path => readFile Json.parse? path
        | none => pure .null
      match explainText settings request context with
      | .ok sql => IO.println sql
      | .error message => throw (IO.userError message)

end JoinPlan.CommandLine

def main (args : List String) : IO UInt32 := do
  match JoinPlan.CommandLine.parse? args with
  | none =>
      IO.eprintln JoinPlan.CommandLine.usage
      pure 2
  | some command =>
      try
        JoinPlan.CommandLine.runCommand command
        pure 0
      catch error =>
        IO.eprintln (toString error)
        pure 1
