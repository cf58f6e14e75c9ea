import JoinPlan.Schema.Basic

/-!
# Writing a schema

Options are written in the order in which they are declared, and those that are
not set are left out; the three flags of a field are always written.  A computed
option has no text, and neither has a schema that holds one.
-/

namespace JoinPlan

/-- A member, if the value is there. -/
def member {α : Type} (key : String) (encode : α → Json) : Option α → Object
  | none => []
  | some value => [(key, encode value)]

/-- A member, if the value is there; no text if the value has none. -/
def memberM {α : Type} (key : String) (encode : α → Option Json) : Option α → Option Object
  | none => some []
  | some value => (encode value).map fun json => [(key, json)]

def encodeStrings (texts : List String) : Json :=
  .array (texts.map .string)

def OneOrMany.encode {α : Type} (item : α → Option Json) : OneOrMany α → Option Json
  | .one value => item value
  | .many values => (values.mapM item).map .array

def Builder.encode {F : Type} : Builder F → Option Json
  | .template text => some (.string text)
  | .computed _ => none

def Computed.encode {α : Type} (literal : α → Json) : Computed α → Option Json
  | .literal value => some (literal value)
  | .computed _ => none

def UniqueKey.encode : UniqueKey → Json
  | .one column => .string column
  | .many columns => encodeStrings columns

def TableOptions.encode (table : TableOptions) : Option Json := do
  let sqlTable ← table.sqlTable.encode .string
  let alwaysFetch ← memberM "alwaysFetch" (OneOrMany.encode Builder.encode) table.alwaysFetch
  some (.object
    ([("sqlTable", sqlTable), ("uniqueKey", UniqueKey.encode table.uniqueKey)] ++ alwaysFetch))

def OrderingOption.encode (ordering : OrderingOption) : Json :=
  .object [("column", .string ordering.column), ("direction", .string ordering.direction)]

def OrderByOption.encode : OrderByOption → Json
  | .column name => .string name
  | .mapping directions => .object (Assoc.mapValues .string directions)
  | .list orderings => .array (orderings.map OrderingOption.encode)

def SortKeyOption.encode : SortKeyOption → Json
  | .key direction columns =>
      .object [("order", .string direction), ("key", UniqueKey.encode columns)]
  | .list orderings => .array (orderings.map OrderingOption.encode)

def BatchOption.encode (batch : BatchOption) : Json :=
  .object [("thisKey", .string batch.thisKey), ("parentKey", .string batch.parentKey)]

def JunctionBatchOption.encode (batch : JunctionBatchOption) : Option Json := do
  let sqlJoin ← batch.sqlJoin.encode
  some (.object
    [("thisKey", .string batch.thisKey), ("parentKey", .string batch.parentKey),
      ("sqlJoin", sqlJoin)])

def encodeJoins (joins : JoinCondition × JoinCondition) : Option Json := do
  some (.array [← joins.1.encode, ← joins.2.encode])

mutual

/-- The members of a field's options. -/
def FieldOptions.members : FieldOptions → Option Object
  | ⟨sqlColumn, sqlExpr, sqlDeps, sqlJoin, sqlBatch, junction, condition, orderBy, sortKey,
      limit, sqlPaginate, ignoreTable, ignoreAll⟩ => do
      let sqlExpr ← memberM "sqlExpr" Builder.encode sqlExpr
      let sqlJoin ← memberM "sqlJoin" Builder.encode sqlJoin
      let junction ← junctionMember junction
      let condition ← memberM "where" Builder.encode condition
      let orderBy ← memberM "orderBy" (Computed.encode OrderByOption.encode) orderBy
      let sortKey ← memberM "sortKey" (Computed.encode SortKeyOption.encode) sortKey
      let limit ← memberM "limit" (Computed.encode Json.ofNat) limit
      some (member "sqlColumn" .string sqlColumn ++ sqlExpr ++
        member "sqlDeps" encodeStrings sqlDeps ++ sqlJoin ++
        member "sqlBatch" BatchOption.encode sqlBatch ++ junction ++ condition ++ orderBy ++
        sortKey ++ limit ++
        [("sqlPaginate", .bool sqlPaginate), ("ignoreTable", .bool ignoreTable),
          ("ignoreAll", .bool ignoreAll)])

def junctionMember : Option JunctionOptions → Option Object
  | none => some []
  | some junction => junction.members.map fun members => [("junction", .object members)]

/-- The members of a junction. -/
def JunctionOptions.members : JunctionOptions → Option Object
  | ⟨sqlTable, sqlJoins, sqlBatch, uniqueKey, condition, orderBy, sortKey, includes⟩ => do
      let sqlTable ← sqlTable.encode .string
      let sqlJoins ← memberM "sqlJoins" encodeJoins sqlJoins
      let sqlBatch ← memberM "sqlBatch" JunctionBatchOption.encode sqlBatch
      let condition ← memberM "where" Builder.encode condition
      let orderBy ← memberM "orderBy" (Computed.encode OrderByOption.encode) orderBy
      let sortKey ← memberM "sortKey" (Computed.encode SortKeyOption.encode) sortKey
      let includes ← includesMember includes
      some ([("sqlTable", sqlTable)] ++ sqlJoins ++ sqlBatch ++
        member "uniqueKey" UniqueKey.encode uniqueKey ++ condition ++ orderBy ++ sortKey ++
        includes)

def includesMember : Option (Computed (List (String × FieldOptions))) → Option Object
  | none => some []
  | some includes => (includesObject includes).map fun members => [("include", .object members)]

def includesObject : Computed (List (String × FieldOptions)) → Option Object
  | .literal fields => includedFields fields
  | .computed _ => none

def includedFields : List (String × FieldOptions) → Option Object
  | [] => some []
  | field :: rest => do some ((← includedField field) :: (← includedFields rest))

def includedField : String × FieldOptions → Option (String × Json)
  | (name, options) => options.members.map fun members => (name, .object members)

end

def FieldOptions.encode (options : FieldOptions) : Option Json :=
  options.members.map .object

def FieldDefinition.encode (field : FieldDefinition) : Option Json :=
  field.options.members.map fun members =>
    .object (("type", .string field.type.text) :: members)

/-- The entries of a dictionary, each written by `value`. -/
def encodeEntries {α : Type} (value : α → Option Json) (entries : List (String × α)) :
    Option Json :=
  (entries.mapM fun entry => (value entry.2).map fun json => (entry.1, json)).map .object

/-- A list of texts, unless it is empty. -/
def stringsMember (key : String) (texts : List String) : Object :=
  if texts.isEmpty then [] else [(key, encodeStrings texts)]

def TypeDefinition.encode (type : TypeDefinition) : Option Json := do
  let fields ← encodeEntries FieldDefinition.encode type.fields
  let table ← memberM "table" TableOptions.encode type.table
  some (.object
    ([("kind", .string type.kind.text), ("fields", fields)] ++
      stringsMember "interfaces" type.interfaces ++
      stringsMember "possibleTypes" type.possibleTypes ++ table))

def Schema.encode (schema : Schema) : Option Json := do
  some (.object [("types", ← encodeEntries TypeDefinition.encode schema.types)])

end JoinPlan
