import JoinPlan.Plan.Prune
import JoinPlan.Plan.Selecting

/-!
# Compiling a request

The requested field is compiled on the request's type; every occurrence of the
field adds its selections to the first.  A node fetch asks for one row of a type
instead, by its key or a condition: it is compiled on a type made for it, whose
only field is the requested row.
-/

namespace JoinPlan.Plan

/-- The requested field with the selections of all its occurrences. -/
def mergedField (request : Request) : Except RequestError RequestedField :=
  match request.fields with
  | [] => .error .noFields
  | first :: rest =>
      .ok { first with selections := first.selections ++ rest.flatMap (·.selections) }

/-- The type to blame when the requested field is no table. -/
def blamedType (type : TypeDefinition) (field : String) : String :=
  match type.field? field with
  | some definition => definition.type.namedType
  | none => field

/-- Compiles the requested field on a type, and merges dependencies. -/
def compileOn (env : Environment) (request : Request) (type : TypeDefinition) :
    Compile (Table Node) := do
  let field ← mergedField request
  let scope : Scope := ⟨request.parentType, type, none⟩
  let node ← compileField env request.fragments scope false none none field.name field.args
    field.selections (selectAll env request.fragments field.selections)
  match node with
  | .table table => modifyGet table.prune.run
  | _ => Compile.fail (.notATable (blamedType type field.name))

/-- Compiles a request, with the aliases handed out. -/
def compileWith (env : Environment) (request : Request) : Compile (Table Node) := do
  match env.schema.type? request.parentType with
  | none => Compile.fail (.unknownType request.parentType)
  | some type => compileOn env request type

def compile (env : Environment) (minify : Bool) (request : Request) :
    Except PlanError (Table Node) :=
  (compileWith env request).run' (Namespace.fresh minify)

/-! ### Node fetches -/

/-- How the row of a node fetch is found. -/
inductive NodeCondition
  /-- The value of the unique key, or of each of its columns. -/
  | key (value : Json)
  | condition (condition : RowCondition)

/-- The values of the columns of a key. -/
def keyValues (typeName : String) (key : UniqueKey) (value : Json) :
    Except ConfigurationError (List Json) :=
  match key, value with
  | .one _, value => .ok [value]
  | .many columns, .array values =>
      if columns.length = values.length then .ok values
      else .error (.compositeKeyMismatch typeName columns.length values.length)
  | .many columns, _ => .error (.compositeKeyMismatch typeName columns.length 1)

/-- A key column of a table equal to a value. -/
def keyTerm (dialect : Dialect) (table : String) (term : String × Json) : String :=
  table ++ "." ++ dialect.quote term.1 ++ " = " ++ dialect.literal term.2

/-- The condition that a table's key has a value. -/
def keyCondition (dialect : Dialect) (typeName : String) (key : UniqueKey) (value : Json) :
    Except ConfigurationError RowCondition := do
  let values ← keyValues typeName key value
  let terms := key.toList.zip values
  .ok (.computed fun table _ _ => some (" AND ".intercalate (terms.map (keyTerm dialect table))))

def foundCondition (dialect : Dialect) (typeName : String) (table : TableOptions) :
    NodeCondition → Except ConfigurationError RowCondition
  | .condition condition => .ok condition
  | .key value => keyCondition dialect typeName table.uniqueKey value

/-- A type whose only field is a row of `typeName` under a condition. -/
def nodeType (field typeName : String) (condition : RowCondition) : TypeDefinition where
  kind := .object
  fields :=
    [(field, ⟨.named typeName, { FieldOptions.empty with condition := some condition }⟩)]
  interfaces := []
  possibleTypes := []
  table := none

def compileNodeWith (env : Environment) (dialect : Dialect) (typeName : String)
    (found : NodeCondition) (request : Request) : Compile (Table Node) := do
  let some type := env.schema.type? typeName
    | Compile.fail (.unknownType typeName)
  let some table := type.table
    | Compile.fail (.notATable typeName)
  let condition ← foundCondition dialect typeName table found
  match request.fields with
  | [] => throw (.request .noFields)
  | field :: _ => compileOn env request (nodeType field.name typeName condition)

/-- Compiles a request for one row of a type. -/
def compileNode (env : Environment) (dialect : Dialect) (minify : Bool) (typeName : String)
    (found : NodeCondition) (request : Request) : Except PlanError (Table Node) :=
  (compileNodeWith env dialect typeName found request).run' (Namespace.fresh minify)

end JoinPlan.Plan
