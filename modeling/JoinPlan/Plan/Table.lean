import JoinPlan.Alias
import JoinPlan.Plan.Node
import JoinPlan.Request.Basic

/-!
# Tables of a plan

Setting up the node of a field that is backed by a table: its relation to the
parent, its ordering, and the columns fetched with it whatever is selected.  The
first of them identifies a row.  Aliases are handed out in a fixed order, the
table's own first.
-/

namespace JoinPlan.Plan

/-- Compiling hands out aliases and may find a mistake. -/
abbrev Compile := StateT Namespace (Except PlanError)

/-- What a request is compiled with. -/
structure Environment where
  schema : Schema
  context : Context

namespace Compile

def fail {α : Type} (error : ConfigurationError) : Compile α :=
  throw (.configuration error)

def refuse (refused : Bool) (error : ConfigurationError) : Compile Unit :=
  if refused then fail error else pure ()

def table (name : String) : Compile String := modifyGet fun names => names.table name

def column (name : String) : Compile String := modifyGet fun names => names.column name

end Compile

/-- A field backed by a table, with its list and connection wrappers taken off. -/
structure TableField where
  name : String
  args : Arguments
  options : FieldOptions
  typeName : String
  kind : TypeKind
  table : TableOptions
  many : Bool
  paginate : Bool

/-- A column fetched under its own name. -/
def ownColumn (name : String) (owner : Option String) : Compile Column := do
  let aliasName ← Compile.column name
  pure { name, fieldName := name, aliasName, owner }

/-- The property of a key of several columns: the first three letters of each. -/
def compositeName (columns : List String) : String :=
  "#".intercalate (columns.map fun column => String.ofList (column.toList.take 3))

/-- The node that fetches a unique key. -/
def keyNode (key : UniqueKey) (owner : Option String) : Compile Node :=
  match key with
  | .one name => Node.column <$> ownColumn name owner
  | .many names => do
      let fieldName := compositeName names
      let aliasName ← Compile.column fieldName
      pure (.composite names fieldName aliasName owner)

def resolveTerms {α : Type} (terms : α → Except ConfigurationError (List SortTerm))
    (args : Arguments) (context : Context) :
    Option (Computed α) → Except ConfigurationError (Option (List SortTerm))
  | none => .ok none
  | some option => some <$> terms (option.resolve args context)

/-- How the rows of a junction are fetched, with the nodes that identify them. -/
def junctionFetch (fieldName aliasName : String) (junction : JunctionOptions) :
    Compile (JunctionFetch × List Node) :=
  match junction.sqlJoins, junction.sqlBatch with
  | some (toJunction, toTarget), _ => pure (.joins toJunction toTarget, [])
  | none, some batch =>
      match junction.uniqueKey with
      | none => Compile.fail (.missingJunctionUniqueKey fieldName)
      | some key => do
          let identity ← keyNode key (some aliasName)
          let thisKey ← ownColumn batch.thisKey (some aliasName)
          let parentKey ← ownColumn batch.parentKey none
          pure (.batch batch.sqlJoin thisKey parentKey, [identity])
  | none, none => Compile.fail (.junctionWithoutFetch fieldName)

def junctionNode (env : Environment) (field : TableField) (junction : JunctionOptions) :
    Compile (Junction × List Node) := do
  let reference := junction.sqlTable.resolve field.args env.context
  let aliasName ← Compile.table reference
  let orderBy ← resolveTerms OrderByOption.terms field.args env.context junction.orderBy
  let sortKey ←
    resolveTerms SortKeyOption.terms field.args env.context
      (if field.paginate then junction.sortKey else none)
  let fetched ← junctionFetch field.name aliasName junction
  let includes :=
    match junction.includes with
    | none => []
    | some includes => includes.resolve field.args env.context
  pure (
    { reference, aliasName, includes
      condition := junction.condition
      orderBy, sortKey
      fetch := fetched.1 },
    fetched.2)

/-- How a table is reached from its parent, with the nodes the relation needs. -/
def relation (env : Environment) (field : TableField) :
    Compile (Option Relation × List Node) :=
  match field.options.sqlJoin, field.options.junction, field.options.sqlBatch with
  | some condition, _, _ => pure (some (.join condition), [])
  | none, some junction, _ => do
      let reached ← junctionNode env field junction
      pure (some (.junction reached.1), reached.2)
  | none, none, some batch => do
      let thisKey ← ownColumn batch.thisKey none
      let parentKey ← ownColumn batch.parentKey none
      pure (some (.batch thisKey parentKey), [])
  | none, none, none => pure (none, [])

def relationJunction? : Option Relation → Option Junction
  | some (.junction junction) => some junction
  | _ => none

/-- The sort key of a paginated field, which needs an ordering of some kind. -/
def paginatedSortKey (env : Environment) (field : TableField) (hasOrder : Bool)
    (junction : Option Junction) : Except ConfigurationError (Option (List SortTerm)) := do
  let sortKey ← resolveTerms SortKeyOption.terms field.args env.context field.options.sortKey
  let junctionSortKey := junction.bind Junction.sortKey
  if sortKey.isSome && junctionSortKey.isSome then
    .error (.duplicateOrdering field.name "sortKey")
  else if sortKey.isNone && junctionSortKey.isNone && !hasOrder then
    .error (.missingSortKey field.name)
  else .ok sortKey

def fieldSortKey (env : Environment) (field : TableField) (hasOrder : Bool)
    (junction : Option Junction) : Except ConfigurationError (Option (List SortTerm)) :=
  if field.paginate then paginatedSortKey env field hasOrder junction else .ok none

/-- Columns fetched under their own names. -/
def ownColumns (names : List String) (owner : Option String) : Compile (List Node) :=
  names.mapM fun name => Node.column <$> ownColumn name owner

/-- The columns a paginated field is paged by: those of its sort key, or the
number of all rows. -/
def pagingColumns (paginate : Bool) (sortKey : Option (List SortTerm))
    (junction : Option Junction) : Compile (List Node) :=
  let owner := junction.map Junction.aliasName
  match paginate, sortKey, junction.bind Junction.sortKey with
  | false, _, _ => pure []
  | true, some terms, _ => ownColumns (terms.map SortTerm.column) none
  | true, none, some terms => ownColumns (terms.map SortTerm.column) owner
  | true, none, none => ownColumns [Sql.totalColumn] owner

/-- The columns a table always fetches; they are built from its alias. -/
def alwaysFetched (env : Environment) (field : TableField) (aliasName : String) :
    Compile (List Node) :=
  match field.table.alwaysFetch with
  | none => pure []
  | some columns =>
      ownColumns
        (columns.toList.map fun column => column.fragment aliasName field.args env.context) none

/-- The node of a field backed by a table, before anything selected on it. -/
def newTable (env : Environment) (field : TableField) : Compile (Table Node) := do
  let reference := field.table.sqlTable.resolve field.args env.context
  let aliasName ← Compile.table field.name
  let orderBy ← resolveTerms OrderByOption.terms field.args env.context field.options.orderBy
  let reached ← relation env field
  let junction := relationJunction? reached.1
  let junctionOrders := (junction.bind Junction.orderBy).isSome
  Compile.refuse (orderBy.isSome && junctionOrders) (.duplicateOrdering field.name "orderBy")
  let limit := field.options.limit.map (Computed.resolve field.args env.context)
  let hasOrder := orderBy.isSome || junctionOrders
  Compile.refuse (limit.isSome && !hasOrder) (.limitWithoutOrdering field.name)
  let sortKey ← fieldSortKey env field hasOrder junction
  let key ← keyNode field.table.uniqueKey none
  let always ← alwaysFetched env field aliasName
  let paging ← pagingColumns field.paginate sortKey junction
  pure {
    info := {
      fieldName := field.name
      typeName := field.typeName
      isAbstract := field.kind.isAbstract
      reference, aliasName
      args := field.args
      many := field.many
      paginate := field.paginate
      orderBy, sortKey, limit
      condition := field.options.condition
      relation := reached.1 }
    shared := reached.2 ++ [key] ++ always ++ paging
    typed := [] }

end JoinPlan.Plan
