import JoinPlan.Plan.Table

/-!
# Compiling selections

Selections on a table's type become its children.  A field is compiled within a
scope, the type it is selected on and the junction that may lay options over its
fields; a field selected again adds its selections to the table already there.

On an object type a fragment applies when its condition names the type or one of
its interfaces.  On an interface or a union a fragment for an object type fills
the children of that type, and any other fragment the shared ones.  A fragment is
followed only where it is spread and applies: `select` recurses on the selections
as they are written, and `selectSpread` counts the fragments entered on the way.

The rows of a connection are selected under `edges` and, there, under `node`.
Compiling walks through these wrappers in place; fragments inside them that are
not defined are looked for beforehand, the outer wrapper first.
-/

namespace JoinPlan.Plan

/-- The type whose selections are compiled. -/
structure Scope where
  typeName : String
  type : TypeDefinition
  /-- The junction of the table selected from. -/
  junction : Option Junction

/-- Whether a fragment with a condition applies to the scope's type. -/
def Scope.matches (scope : Scope) : Option String → Bool
  | none => true
  | some condition => condition == scope.typeName || scope.type.interfaces.contains condition

/-- Where selections stand: on the rows themselves, or on the wrappers of a
connection. -/
inductive Place
  | rows
  | edges (edgeType : String)
  | connection (connectionType edgeType : String)

/-- The children of a table while they are compiled. -/
structure Children where
  shared : List Node
  typed : List (String × List Node)

namespace Children

/-- The shared children, or those of a concrete type. -/
def bucket (children : Children) : Option String → List Node
  | none => children.shared
  | some type => (Assoc.get? type children.typed).getD []

def setBucket (children : Children) (type : Option String) (nodes : List Node) : Children :=
  match type with
  | none => { children with shared := nodes }
  | some type => { children with typed := Assoc.put type nodes children.typed }

end Children

def isTableOf (field : String) (node : Node) : Bool :=
  match node.table? with
  | some table => table.info.fieldName == field
  | none => false

/-- Puts a node in the place of one of the nodes, or after them. -/
def putNode (nodes : List Node) (place : Option Nat) (node : Node) : List Node :=
  match place with
  | some index => nodes.set index node
  | none => nodes ++ [node]

/-! ### Wrappers -/

/-- Whether a fragment without a name is looked into inside a wrapper. -/
def entersWrapper (typeName : String) : Option String → Bool
  | none => true
  | some condition => condition == typeName

mutual

/-- The first undefined fragment among the selections on a wrapper, given those
below a field and below a spread. -/
def undefinedAmong (typeName : String) (field : String → List Selection → Option String)
    (spread : String → Option String) : List Selection → Option String
  | [] => none
  | selection :: rest =>
      undefinedAt typeName field spread selection <|>
        undefinedAmong typeName field spread rest

def undefinedAt (typeName : String) (field : String → List Selection → Option String)
    (spread : String → Option String) : Selection → Option String
  | .field name _ selections => field name selections
  | .inline condition selections =>
      if entersWrapper typeName condition then undefinedAmong typeName field spread selections
      else none
  | .spread fragment => spread fragment

end

/-- The first undefined fragment below a spread on a wrapper, the spread fragment
included; fragments are followed so deep. -/
def undefinedBelow (fragments : Fragments) (typeName : String)
    (field : String → List Selection → Option String) : Nat → String → Option String
  | 0, name => some name
  | depth + 1, name =>
      match fragments.named? name with
      | none => some name
      | some fragment =>
          undefinedAmong typeName field (undefinedBelow fragments typeName field depth)
            fragment.selections

/-- The first undefined fragment on a wrapper, given those below its fields. -/
def undefinedOn (fragments : Fragments) (typeName : String)
    (field : String → List Selection → Option String) (selections : List Selection) :
    Option String :=
  undefinedAmong typeName field (undefinedBelow fragments typeName field fragments.depth)
    selections

/-- The first undefined fragment on a connection, or failing that on its edges. -/
def undefinedInConnection (fragments : Fragments) (connectionType edgeType : String)
    (selections : List Selection) : Option String :=
  let onEdges (name : String) (selections : List Selection) : Option String :=
    if name = "edges" then undefinedOn fragments edgeType (fun _ _ => none) selections else none
  undefinedOn fragments connectionType (fun _ _ => none) selections <|>
    undefinedOn fragments connectionType onEdges selections

/-- The type of a connection's rows and the place their selections stand in. -/
def unwrapConnection (schema : Schema) (fragments : Fragments) (connectionType : String)
    (connection : TypeDefinition) (selections : List Selection) :
    Except ConfigurationError (String × Place) := do
  let some edges := connection.field? "edges"
    | .error (.unknownField "edges" connectionType)
  let edgeType := edges.type.namedType
  let some edge := schema.type? edgeType
    | .error (.unknownType edgeType)
  let some node := edge.field? "node"
    | .error (.unknownField "node" edgeType)
  match undefinedInConnection fragments connectionType edgeType selections with
  | some fragment => .error (.unknownFragment fragment)
  | none => .ok (node.type.namedType, .connection connectionType edgeType)

/-! ### Fields -/

/-- A field's definition in its scope: its type, its options, and the alias of
the junction they belong to. -/
structure ScopedField where
  type : TypeRef
  options : FieldOptions
  owner : Option String

def Scope.field? (scope : Scope) (name : String) : Option ScopedField :=
  (scope.type.field? name).map fun definition =>
    let included := scope.junction.bind fun junction =>
      (Assoc.get? name junction.includes).map fun options => (junction.aliasName, options)
    match included with
    | some (aliasName, overlay) =>
        ⟨definition.type, definition.options.overlaid overlay, some aliasName⟩
    | none => ⟨definition.type, definition.options, none⟩

/-- The type of a field's rows, whether it is a list, and how it is wrapped. -/
structure FieldTarget where
  typeName : String
  many : Bool
  paginate : Bool
  place : Place

def fieldTarget (schema : Schema) (fragments : Fragments) (name : String) (field : ScopedField)
    (selections : List Selection) : Except ConfigurationError FieldTarget := do
  let (many, item) :=
    match field.type.nullable with
    | .list item => (true, item.nullable)
    | type => (false, type)
  let typeName := item.namedType
  let connection? := (schema.type? typeName).filter fun type =>
    type.kind == .object && type.isConnection
  match connection? with
  | some connection => do
      let (rowType, place) ← unwrapConnection schema fragments typeName connection selections
      .ok ⟨rowType, true, field.options.sqlPaginate, place⟩
  | none =>
      if field.options.sqlPaginate then .error (.paginationOnNonConnection name typeName)
      else .ok ⟨typeName, many, false, .rows⟩

/-- A table below another is reached in exactly one way. -/
def checkRelation (nested : Bool) (options : FieldOptions) (name parentType : String) :
    Except ConfigurationError Unit :=
  let ways := [options.sqlJoin.isSome, options.sqlBatch.isSome, options.junction.isSome]
  match nested, ways.count true with
  | false, _ => .ok ()
  | true, 0 => .error (.missingRelation name parentType)
  | true, 1 => .ok ()
  | true, _ => .error (.ambiguousRelation name parentType)

/-- The table behind a type, for a field that does not ignore it. -/
def backingTable? (schema : Schema) (typeName : String) (options : FieldOptions) :
    Option (TypeDefinition × TableOptions) := do
  let type ← schema.type? typeName
  let table ← type.table
  if type.kind.isComposite && !options.ignoreTable then some (type, table) else none

/-- A column with the alias it is fetched under. -/
def namedColumn (name : String) : Compile (String × String) := do
  let aliasName ← Compile.column name
  pure (name, aliasName)

/-- A field without a table of its own: an expression, the columns it is computed
from, or a column. -/
def compileLeaf (scope : Scope) (bucket : Option String) (name : String) (args : Arguments)
    (field : ScopedField) : Compile Node :=
  let asked :=
    match bucket with
    | some type => name ++ "@" ++ type
    | none => name
  match field.options.sqlExpr, field.options.sqlDeps with
  | some sql, _ => do
      let aliasName ← Compile.column asked
      pure (.expression sql name aliasName args field.owner)
  | none, some names => do
      let columns ← names.mapM namedColumn
      pure (.dependencies (Assoc.distinct columns) field.owner)
  | none, none =>
      let hasColumns := scope.type.kind == .object || scope.type.kind == .interface
      if field.options.sqlColumn.isSome || hasColumns then do
        let aliasName ← Compile.column asked
        pure (.column ⟨field.options.sqlColumn.getD name, name, aliasName, field.owner⟩)
      else pure .nothing

/-- The table a field is selected as: the one already there, or a new one. -/
def tableOf (env : Environment) (field : TableField) : Option (Table Node) → Compile (Table Node)
  | some table => pure table
  | none => newTable env field

/-- What a new table fetches after its selections: the key its rows are grouped by,
if it is fetched in batches. -/
def lastColumns (info : TableInfo) : Option (Table Node) → List Node
  | some _ => []
  | none =>
      match info.batchKeys? with
      | some (thisKey, _) => [.column thisKey]
      | none => []

/-- A table's node with its children filled in. -/
def compileTable (env : Environment) (field : TableField) (type : TypeDefinition)
    (existing : Option (Table Node)) (fill : Scope → Children → Compile Children) :
    Compile Node := do
  let table ← tableOf env field existing
  let scope : Scope := ⟨field.typeName, type, table.info.junction?⟩
  let children ← fill scope ⟨table.shared, table.typed⟩
  let info := { table.info with isAbstract := field.kind.isAbstract }
  pure (.table ⟨info, children.shared ++ lastColumns info existing, children.typed⟩)

/-- Compiles a field selected in a scope.  `existing` is the table the field was
already selected as, and `fill` compiles the field's selections. -/
def compileField (env : Environment) (fragments : Fragments) (scope : Scope) (nested : Bool)
    (bucket : Option String) (existing : Option (Table Node)) (name : String) (args : Arguments)
    (selections : List Selection) (fill : Place → Scope → Children → Compile Children) :
    Compile Node := do
  if ['_', '_'] <+: name.toList then return .nothing
  let some field := scope.field? name
    | Compile.fail (.unknownField name scope.typeName)
  if field.options.ignoreAll then return .nothing
  let target ← fieldTarget env.schema fragments name field selections
  match backingTable? env.schema target.typeName field.options with
  | some (type, table) =>
      checkRelation nested field.options name scope.typeName
      let tableField : TableField := {
        name, args, table
        options := field.options
        typeName := target.typeName
        kind := type.kind
        many := target.many
        paginate := target.paginate }
      compileTable env tableField type existing (fill target.place)
  | none => compileLeaf scope bucket name args field

/-! ### Selections -/

/-- The scope of a fragment on an abstract type, and the bucket it fills. -/
def conditionScope (schema : Schema) (scope : Scope) (bucket : Option String)
    (condition : String) : Except ConfigurationError (Scope × Option String) :=
  match schema.type? condition with
  | none => .error (.unknownType condition)
  | some type =>
      .ok (⟨condition, type, scope.junction⟩,
        if type.kind = .object then some condition else bucket)

/-- The scope and the bucket of a fragment on the rows, if it applies. -/
def rowsScope (schema : Schema) (scope : Scope) (bucket condition : Option String) :
    Except ConfigurationError (Option (Scope × Option String)) :=
  if scope.type.kind = .object then
    .ok (if scope.matches condition then some (scope, bucket) else none)
  else some <$> conditionScope schema scope bucket (condition.getD scope.typeName)

/-- The scope and the bucket of a fragment without a name, if it applies. -/
def inlineScope (schema : Schema) (place : Place) (scope : Scope)
    (bucket condition : Option String) :
    Except ConfigurationError (Option (Scope × Option String)) :=
  match place with
  | .rows => rowsScope schema scope bucket condition
  | .edges typeName | .connection typeName _ =>
      .ok (if entersWrapper typeName condition then some (scope, bucket) else none)

/-- The scope and the bucket of a fragment that is spread, if it applies.  Inside a
wrapper it does whatever its condition. -/
def spreadScope (schema : Schema) (place : Place) (scope : Scope) (bucket : Option String)
    (condition : String) : Except ConfigurationError (Option (Scope × Option String)) :=
  match place with
  | .rows => rowsScope schema scope bucket (some condition)
  | .edges _ | .connection _ _ => .ok (some (scope, bucket))

/-- Compiles what is selected under a name into the children of a table. -/
abbrev SpreadCompiler :=
  Place → Scope → Option String → String → Children → Compile Children

mutual

/-- Compiles selections, in order, into the children of a table. -/
def select (env : Environment) (fragments : Fragments) (spread : SpreadCompiler) (place : Place)
    (scope : Scope) (bucket : Option String) : List Selection → Children → Compile Children
  | [], children => pure children
  | selection :: rest, children => do
      let children ← selectOne env fragments spread place scope bucket selection children
      select env fragments spread place scope bucket rest children

def selectOne (env : Environment) (fragments : Fragments) (spread : SpreadCompiler)
    (place : Place) (scope : Scope) (bucket : Option String) :
    Selection → Children → Compile Children
  | .field name args selections, children =>
      match place with
      | .rows => do
          let nodes := children.bucket bucket
          let index := nodes.findIdx? (isTableOf name)
          let existing := (index.bind fun index => nodes[index]?).bind Node.table?
          let node ← compileField env fragments scope true bucket existing name args selections
            fun place scope children =>
              select env fragments spread place scope none selections children
          pure (children.setBucket bucket (putNode nodes index node))
      | .edges _ =>
          if name = "node" then
            select env fragments spread .rows scope bucket selections children
          else pure children
      | .connection _ edgeType =>
          if name = "edges" then
            select env fragments spread (.edges edgeType) scope bucket selections children
          else pure children
  | .inline condition selections, children => do
      match ← (inlineScope env.schema place scope bucket condition : Except ConfigurationError _)
      with
      | some (scope, bucket) =>
          select env fragments spread place scope bucket selections children
      | none => pure children
  | .spread fragment, children => spread place scope bucket fragment children

end

/-- Compiles the selections of a fragment where it is spread; fragments are
followed so deep, and what is spread below counts as not defined. -/
def selectSpread (env : Environment) (fragments : Fragments) : Nat → SpreadCompiler
  | 0, _, _, _, name, _ => Compile.fail (.unknownFragment name)
  | depth + 1, place, scope, bucket, name, children => do
      let some fragment := fragments.named? name
        | Compile.fail (.unknownFragment name)
      match ← (spreadScope env.schema place scope bucket fragment.condition :
          Except ConfigurationError _) with
      | some (scope, bucket) =>
          select env fragments (selectSpread env fragments depth) place scope bucket
            fragment.selections children
      | none => pure children

/-- Compiles the selections on a table, with the fragments of their request. -/
def selectAll (env : Environment) (fragments : Fragments) (selections : List Selection)
    (place : Place) (scope : Scope) (children : Children) : Compile Children :=
  select env fragments (selectSpread env fragments fragments.depth) place scope none selections
    children

end JoinPlan.Plan
