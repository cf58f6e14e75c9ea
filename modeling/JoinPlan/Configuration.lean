import JoinPlan.Schema.Decode
import JoinPlan.Schema.Encode
import JoinPlan.Sql.Dialect

/-!
# Configuration

A configuration names the format's version, the dialect, how aliases are handed
out, the database to send statements to, and the schema.  It is kept as indented
JSON, in this order.  The URI of the database is a secret, so it may be left to
the environment; it is looked up when the configuration is put to use, and only
sending statements needs it.
-/

namespace JoinPlan

open Json

/-- A text, or the environment variable that holds it. -/
inductive Secret
  | plain (value : String)
  | variable (name : String)
deriving DecidableEq, Repr

structure Configuration where
  /-- The version of the format. -/
  version : Nat
  dialect : Dialect
  /-- Whether aliases are as short as possible. -/
  minify : Bool
  connectionUri : Option Secret
  schema : Schema

/-- A configuration put to use. -/
structure Settings where
  dialect : Dialect
  minify : Bool
  connectionUri : Option String
  schema : Schema

/-- Why a configuration cannot be put to use. -/
inductive SetupError
  | unsupportedVersion (version : Nat)
  | missingVariable (name : String)
  | missingConnectionUri
deriving DecidableEq, Repr

namespace Configuration

def currentVersion : Nat := 1

/-- The number of values a version can take. -/
def versionLimit : Nat := 4294967296

/-- The configuration to start from. -/
def initial : Configuration where
  version := currentVersion
  dialect := .sqlite
  minify := false
  connectionUri := none
  schema := .empty

end Configuration

def SetupError.message : SetupError → String
  | .unsupportedVersion version =>
      "unsupported configuration version " ++ toString version ++
        "; the current version is " ++ toString Configuration.currentVersion
  | .missingVariable name =>
      "invalid connection URI: the environment variable " ++ name ++ " is not set"
  | .missingConnectionUri => "the configuration has no connection URI"

/-! ### Reading and writing -/

def Dialect.decode (value : Json) : Option Dialect :=
  value.choice?.bind fun name => Dialect.all.find? fun dialect => dialect.choice == name

/-- A secret's only field is the text or the variable; of both the text counts. -/
def Secret.decode (value : Json) : Option Secret :=
  (((value.objectFields? ["value"]).bind (required string? "value")).map .plain).or
    (((value.objectFields? ["variable"]).bind (required string? "variable")).map .variable)

def Secret.encode : Secret → Json
  | .plain value => .object [("value", .string value)]
  | .variable name => .object [("variable", .string name)]

namespace Configuration

def decodeVersion (value : Json) : Option Nat :=
  value.count?.filter fun version => version < versionLimit

def form : Form :=
  .record
    [("version", .whole), ("dialect", .whole), ("minify", .whole), ("connectionUri", .whole),
      ("schema", Schema.form)]

def decode (value : Json) : Option Configuration := do
  let fields ← value.fields? form.names
  let version ← required decodeVersion "version" fields
  let dialect ← defaulted Dialect.decode initial.dialect "dialect" fields
  let minify ← defaulted bool? initial.minify "minify" fields
  let connectionUri ← optional Secret.decode "connectionUri" fields
  let schema ← defaulted Schema.decode initial.schema "schema" fields
  some { version, dialect, minify, connectionUri, schema }

/-- A configuration has no text if an option of its schema is computed. -/
def encode (configuration : Configuration) : Option Json := do
  let schema ← configuration.schema.encode
  some (.object
    ([("version", .ofNat configuration.version),
        ("dialect", .string configuration.dialect.choice),
        ("minify", .bool configuration.minify)] ++
      member "connectionUri" Secret.encode configuration.connectionUri ++
      [("schema", schema)]))

/-- Reads a configuration from its text. -/
def parse? (text : String) : Option Configuration :=
  (Json.readAs? form text).bind decode

/-- The text a configuration is kept as. -/
def text? (configuration : Configuration) : Option String :=
  configuration.encode.map fun value => value.indentedText ++ "\n"

/-! ### Use -/

/-- The environment variables a configuration refers to. -/
def variableNames (configuration : Configuration) : List String :=
  match configuration.connectionUri with
  | some (.variable name) => [name]
  | _ => []

/-- The text of a secret. -/
def reveal (environment : String → Option String) : Secret → Except SetupError String
  | .plain value => .ok value
  | .variable name =>
      match environment name with
      | some value => .ok value
      | none => .error (.missingVariable name)

/-- Checks the version and looks up the secret. -/
def resolve (configuration : Configuration) (environment : String → Option String) :
    Except SetupError Settings := do
  if configuration.version ≠ currentVersion then
    .error (.unsupportedVersion configuration.version)
  else
    let connectionUri ← configuration.connectionUri.mapM (reveal environment)
    .ok {
      dialect := configuration.dialect
      minify := configuration.minify
      connectionUri
      schema := configuration.schema }

end Configuration

/-- The URI of the database to send statements to. -/
def Settings.database (settings : Settings) : Except SetupError String :=
  match settings.connectionUri with
  | some uri => .ok uri
  | none => .error .missingConnectionUri

end JoinPlan
