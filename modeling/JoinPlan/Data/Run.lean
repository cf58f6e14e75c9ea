import JoinPlan.Data.Batch
import JoinPlan.Plan.Compile

/-!
# Running a request

A request is compiled, its root statement is sent, the rows are nested, and the
tables fetched in batches are filled in.  From a list of rows those are dropped
for which a batched field of the root found nothing.  A node fetch returns its
object with the name of its type.
-/

namespace JoinPlan

open Plan

/-- How statements are written. -/
structure RunOptions where
  dialect : Dialect
  /-- Whether aliases are as short as possible. -/
  minify : Bool

namespace Plan

/-- Shapes the rows of a root statement. -/
def Table.rootData (root : Table Node) (rows : List Row) : Except RequestError Json :=
  root.connect (root.resolveUnions (root.shape.nest rows))

/-- The data of a plan; none when there is nothing to select. -/
def Table.fetch (executor : Executor) (dialect : Dialect) (context : Context)
    (root : Table Node) : Session (Option Json) := do
  let sql ← Session.ofPlan (root.statementText ⟨context, dialect, []⟩)
  if sql.isEmpty then pure none
  else
    let rows ← Session.execute executor sql
    let data ← Session.ofRequest (root.rootData rows)
    some <$> root.fillBatches executor dialect context data

/-- The fields of the root's shared children that are fetched in batches without
a junction. -/
def Table.batchedFields (root : Table Node) : List String :=
  (root.shared.filterMap Node.table?).filterMap fun child =>
    match child.info.relation with
    | some (.batch _ _) => some child.info.fieldName
    | _ => none

/-- Whether a row has a value for every field. -/
def hasAll (fields : List String) (row : Json) : Bool :=
  fields.all fun field =>
    match row.get? field with
    | none => false
    | some value => !value.isNull

/-- Drops the rows of a list for which a batched field found nothing. -/
def Table.keepMatched (root : Table Node) : Json → Json
  | .array rows => .array (rows.filter (hasAll root.batchedFields))
  | data => data

end Plan

/-- The data a request selects. -/
def run (executor : Executor) (options : RunOptions) (env : Environment)
    (request : Request) : Session Json := do
  let root ← Session.ofPlan (compile env options.minify request)
  match ← root.fetch executor options.dialect env.context with
  | none => pure (.object [])
  | some data => pure (root.keepMatched data)

/-- Adds the name of a type to an object. -/
def withTypeName (typeName : String) : Json → Json
  | .object members => .object (Assoc.insert "__typename" (.string typeName) members)
  | data => data

/-- The row of a type found by a condition. -/
def fetchNode (executor : Executor) (options : RunOptions) (env : Environment)
    (typeName : String) (found : NodeCondition) (request : Request) : Session Json := do
  let root ← Session.ofPlan
    (compileNode env options.dialect options.minify typeName found request)
  match ← root.fetch executor options.dialect env.context with
  | none => pure .null
  | some data => pure (withTypeName typeName data)

/-- The statement a request starts with. -/
def explain (options : RunOptions) (env : Environment) (request : Request) :
    Except PlanError String := do
  let root ← compile env options.minify request
  root.statementText ⟨env.context, options.dialect, []⟩

end JoinPlan
