import JoinPlan.Json.Record
import JoinPlan.Schema.Basic

/-!
# Reading a schema

Where an option has several forms, the first that fits is taken.  A field's
options stand beside its type in one object; options laid over a target's fields
by a junction are records of their own, so reading follows the nesting of
junctions.  It goes as deep as a text can nest.

The form of a record says what reading it asks for.  A value that may have
several forms, and a field with its type and options in one object, are asked
for whole, unknown members included.
-/

namespace JoinPlan

open Json

def OneOrMany.decode {α : Type} (item : Json → Option α) (value : Json) :
    Option (OneOrMany α) :=
  ((item value).map .one).or ((listOf item value).map .many)

def Builder.decode {F : Type} (value : Json) : Option (Builder F) :=
  value.string?.map .template

def Computed.decode {α : Type} (literal : Json → Option α) (value : Json) :
    Option (Computed α) :=
  (literal value).map .literal

def TypeRef.decode (value : Json) : Option TypeRef :=
  value.string?.bind fun text => (TypeRef.parse text).toOption

def UniqueKey.decode (value : Json) : Option UniqueKey :=
  OneOrMany.decode string? value

def TableOptions.form : Form := .ofNames ["sqlTable", "uniqueKey", "alwaysFetch"]

def TableOptions.decode (value : Json) : Option TableOptions := do
  let fields ← value.fields? TableOptions.form.names
  let sqlTable ← required (Computed.decode string?) "sqlTable" fields
  let uniqueKey ← required UniqueKey.decode "uniqueKey" fields
  let alwaysFetch ← optional (OneOrMany.decode Builder.decode) "alwaysFetch" fields
  some { sqlTable, uniqueKey, alwaysFetch }

def OrderingOption.decode (value : Json) : Option OrderingOption := do
  let fields ← value.fields? ["column", "direction"]
  let column ← required string? "column" fields
  let direction ← defaulted string? "ASC" "direction" fields
  some { column, direction }

def OrderByOption.decode (value : Json) : Option OrderByOption :=
  (value.string?.map .column).or
    (((mappingOf string? value).map fun directions => .mapping (Assoc.distinct directions)).or
      ((listOf OrderingOption.decode value).map .list))

def SortKeyOption.decodeKey (value : Json) : Option SortKeyOption := do
  let fields ← value.objectFields? ["order", "key"]
  let direction ← required string? "order" fields
  let columns ← required (OneOrMany.decode string?) "key" fields
  some (.key direction columns)

def SortKeyOption.decode (value : Json) : Option SortKeyOption :=
  (SortKeyOption.decodeKey value).or ((listOf OrderingOption.decode value).map .list)

def BatchOption.form : Form := .ofNames ["thisKey", "parentKey"]

def BatchOption.decode (value : Json) : Option BatchOption := do
  let fields ← value.fields? BatchOption.form.names
  let thisKey ← required string? "thisKey" fields
  let parentKey ← required string? "parentKey" fields
  some { thisKey, parentKey }

def JunctionBatchOption.form : Form := .ofNames ["thisKey", "parentKey", "sqlJoin"]

def JunctionBatchOption.decode (value : Json) : Option JunctionBatchOption := do
  let fields ← value.fields? JunctionBatchOption.form.names
  let thisKey ← required string? "thisKey" fields
  let parentKey ← required string? "parentKey" fields
  let sqlJoin ← required Builder.decode "sqlJoin" fields
  some { thisKey, parentKey, sqlJoin }

/-- Two join conditions. -/
def decodeJoins : Json → Option (JoinCondition × JoinCondition)
  | .array [first, second] => do some (← Builder.decode first, ← Builder.decode second)
  | _ => none

/-- The form of a junction; `included` is that of the options laid over a field. -/
def JunctionOptions.form (included : Form) : Form :=
  .record
    [("sqlTable", .whole), ("sqlJoins", .whole), ("sqlBatch", JunctionBatchOption.form),
      ("uniqueKey", .whole), ("where", .whole), ("orderBy", .whole), ("sortKey", .whole),
      ("include", .dictionary included)]

/-- Reads a junction; `included` reads the options laid over a field. -/
def JunctionOptions.decode (included : Json → Option FieldOptions) (value : Json) :
    Option JunctionOptions := do
  let fields ← value.fields? (JunctionOptions.form .whole).names
  let sqlTable ← required (Computed.decode string?) "sqlTable" fields
  let sqlJoins ← optional decodeJoins "sqlJoins" fields
  let sqlBatch ← optional JunctionBatchOption.decode "sqlBatch" fields
  let uniqueKey ← optional UniqueKey.decode "uniqueKey" fields
  let condition ← optional Builder.decode "where" fields
  let orderBy ← optional (Computed.decode OrderByOption.decode) "orderBy" fields
  let sortKey ← optional (Computed.decode SortKeyOption.decode) "sortKey" fields
  let includes ← optional (Computed.decode (dictionaryOf included)) "include" fields
  some { sqlTable, sqlJoins, sqlBatch, uniqueKey, condition, orderBy, sortKey, includes }

/-- The form of options; `junction` is that of their junction. -/
def FieldOptions.formWith (junction : Form) : Form :=
  .record
    [("sqlColumn", .whole), ("sqlExpr", .whole), ("sqlDeps", .whole), ("sqlJoin", .whole),
      ("sqlBatch", BatchOption.form), ("junction", junction), ("where", .whole),
      ("orderBy", .whole), ("sortKey", .whole), ("limit", .whole), ("sqlPaginate", .whole),
      ("ignoreTable", .whole), ("ignoreAll", .whole)]

/-- The form of options whose junctions nest at most so deep. -/
def FieldOptions.formWithin : Nat → Form
  | 0 => .whole
  | levels + 1 =>
      FieldOptions.formWith (JunctionOptions.form (FieldOptions.formWithin levels))

def FieldOptions.form : Form := FieldOptions.formWithin nestingLimit

def FieldOptions.names : List String := (FieldOptions.formWith .whole).names

/-- The options among the fields of a record; `included` reads the options a
junction lays over a field. -/
def FieldOptions.ofFields (included : Json → Option FieldOptions) (fields : Fields) :
    Option FieldOptions := do
  let sqlColumn ← optional string? "sqlColumn" fields
  let sqlExpr ← optional Builder.decode "sqlExpr" fields
  let sqlDeps ← optional (listOf string?) "sqlDeps" fields
  let sqlJoin ← optional Builder.decode "sqlJoin" fields
  let sqlBatch ← optional BatchOption.decode "sqlBatch" fields
  let junction ← optional (JunctionOptions.decode included) "junction" fields
  let condition ← optional Builder.decode "where" fields
  let orderBy ← optional (Computed.decode OrderByOption.decode) "orderBy" fields
  let sortKey ← optional (Computed.decode SortKeyOption.decode) "sortKey" fields
  let limit ← optional (Computed.decode count?) "limit" fields
  let sqlPaginate ← defaulted bool? false "sqlPaginate" fields
  let ignoreTable ← defaulted bool? false "ignoreTable" fields
  let ignoreAll ← defaulted bool? false "ignoreAll" fields
  some { sqlColumn, sqlExpr, sqlDeps, sqlJoin, sqlBatch, junction, condition, orderBy,
         sortKey, limit, sqlPaginate, ignoreTable, ignoreAll }

/-- Reads options whose junctions nest at most so deep. -/
def FieldOptions.decodeWithin : Nat → Json → Option FieldOptions
  | 0, _ => none
  | levels + 1, value =>
      (value.fields? FieldOptions.names).bind
        (FieldOptions.ofFields (FieldOptions.decodeWithin levels))

def FieldOptions.decode : Json → Option FieldOptions :=
  FieldOptions.decodeWithin nestingLimit

/-- A field's type and options, side by side in one object. -/
def FieldDefinition.decode (value : Json) : Option FieldDefinition := do
  let fields ← value.objectFields? ("type" :: FieldOptions.names)
  let type ← required TypeRef.decode "type" fields
  let options ← FieldOptions.ofFields FieldOptions.decode fields
  some { type, options }

def TypeKind.decode (value : Json) : Option TypeKind :=
  value.choice?.bind fun name => TypeKind.all.find? fun kind => kind.text == name

def TypeDefinition.form : Form :=
  .record
    [("kind", .whole), ("fields", .whole), ("interfaces", .whole), ("possibleTypes", .whole),
      ("table", TableOptions.form)]

def TypeDefinition.decode (value : Json) : Option TypeDefinition := do
  let fields ← value.fields? TypeDefinition.form.names
  let kind ← required TypeKind.decode "kind" fields
  let definitions ← defaulted (dictionaryOf FieldDefinition.decode) [] "fields" fields
  let interfaces ← defaulted (listOf string?) [] "interfaces" fields
  let possibleTypes ← defaulted (listOf string?) [] "possibleTypes" fields
  let table ← optional TableOptions.decode "table" fields
  some { kind, fields := definitions, interfaces, possibleTypes, table }

def Schema.form : Form := .record [("types", .dictionary TypeDefinition.form)]

def Schema.decode (value : Json) : Option Schema := do
  let fields ← value.fields? Schema.form.names
  let types ← defaulted (dictionaryOf TypeDefinition.decode) [] "types" fields
  some { types }

end JoinPlan
