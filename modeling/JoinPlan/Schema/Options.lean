import JoinPlan.Schema.Builder

/-!
# Options of types and fields

A type may be backed by a table.  A field whose type is backed by a table says
how its rows are reached from the rows of its parent: by a join, by a batch of
key values, or through a junction table, which is itself joined or batched.  A
junction may lay options over those of the target's fields, which then belong to
the junction table.
-/

namespace JoinPlan

/-- One item, or a list of them. -/
inductive OneOrMany (α : Type)
  | one (item : α)
  | many (items : List α)
deriving DecidableEq

def OneOrMany.toList {α : Type} : OneOrMany α → List α
  | .one item => [item]
  | .many items => items

/-- The columns that identify a row. -/
abbrev UniqueKey := OneOrMany String

structure TableOptions where
  /-- A table's name, or any SQL that yields a relation. -/
  sqlTable : Computed String
  uniqueKey : UniqueKey
  /-- Columns fetched whatever is selected. -/
  alwaysFetch : Option (OneOrMany TableFragment)

/-- A column and the direction it is written with, as the schema gives them. -/
structure OrderingOption where
  column : String
  direction : String
deriving DecidableEq

inductive OrderByOption
  | column (name : String)
  /-- Columns with their directions, in order of priority. -/
  | mapping (directions : List (String × String))
  | list (orderings : List OrderingOption)
deriving DecidableEq

inductive SortKeyOption
  /-- Columns that share a direction. -/
  | key (direction : String) (columns : OneOrMany String)
  | list (orderings : List OrderingOption)
deriving DecidableEq

def SortKeyOption.columns : SortKeyOption → List String
  | .key _ columns => columns.toList
  | .list orderings => orderings.map OrderingOption.column

/-- Matches a key on a table's rows with a key on its parent's rows. -/
structure BatchOption where
  thisKey : String
  parentKey : String
deriving DecidableEq

/-- A junction fetched in batches; its rows are joined to the target's. -/
structure JunctionBatchOption where
  thisKey : String
  parentKey : String
  sqlJoin : JoinCondition

mutual

structure JunctionOptions where
  sqlTable : Computed String
  /-- From the parent to the junction and from the junction to the target. -/
  sqlJoins : Option (JoinCondition × JoinCondition)
  sqlBatch : Option JunctionBatchOption
  uniqueKey : Option UniqueKey
  condition : Option RowCondition
  orderBy : Option (Computed OrderByOption)
  sortKey : Option (Computed SortKeyOption)
  /-- Options laid over those of the target's fields. -/
  includes : Option (Computed (List (String × FieldOptions)))

structure FieldOptions where
  sqlColumn : Option String
  sqlExpr : Option TableFragment
  /-- Columns the field is computed from, fetched in place of a column of its own. -/
  sqlDeps : Option (List String)
  sqlJoin : Option JoinCondition
  sqlBatch : Option BatchOption
  junction : Option JunctionOptions
  condition : Option RowCondition
  orderBy : Option (Computed OrderByOption)
  sortKey : Option (Computed SortKeyOption)
  limit : Option (Computed Nat)
  sqlPaginate : Bool
  ignoreTable : Bool
  ignoreAll : Bool

end

namespace FieldOptions

def empty : FieldOptions where
  sqlColumn := none
  sqlExpr := none
  sqlDeps := none
  sqlJoin := none
  sqlBatch := none
  junction := none
  condition := none
  orderBy := none
  sortKey := none
  limit := none
  sqlPaginate := false
  ignoreTable := false
  ignoreAll := false

/-- These options with others laid over them: an option the others set takes
their value, and a flag is set when either sets it. -/
def overlaid (base overlay : FieldOptions) : FieldOptions where
  sqlColumn := overlay.sqlColumn <|> base.sqlColumn
  sqlExpr := overlay.sqlExpr <|> base.sqlExpr
  sqlDeps := overlay.sqlDeps <|> base.sqlDeps
  sqlJoin := overlay.sqlJoin <|> base.sqlJoin
  sqlBatch := overlay.sqlBatch <|> base.sqlBatch
  junction := overlay.junction <|> base.junction
  condition := overlay.condition <|> base.condition
  orderBy := overlay.orderBy <|> base.orderBy
  sortKey := overlay.sortKey <|> base.sortKey
  limit := overlay.limit <|> base.limit
  sqlPaginate := overlay.sqlPaginate || base.sqlPaginate
  ignoreTable := overlay.ignoreTable || base.ignoreTable
  ignoreAll := overlay.ignoreAll || base.ignoreAll

end FieldOptions

end JoinPlan
