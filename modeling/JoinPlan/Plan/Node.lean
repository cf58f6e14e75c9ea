import JoinPlan.SortOrder
import JoinPlan.Schema.Basic

/-!
# Plans

A plan is the selection tree with everything needed to fetch it.  A table node
stands for the rows of a field, with the relation to its parent's rows, and has
two kinds of children: the shared ones, and for an interface or union those
selected for one concrete type.  A table in a batch relation is fetched by a
statement of its own once its parent's rows are there, so it bounds the
statement of its parent.
-/

namespace JoinPlan.Plan

/-- A column of a table. -/
structure Column where
  name : String
  /-- The property its value becomes. -/
  fieldName : String
  aliasName : String
  /-- The alias of the table that has the column, if it is not the node's own. -/
  owner : Option String
deriving DecidableEq, Repr

/-- How the rows of a junction are fetched. -/
inductive JunctionFetch
  /-- Joined from the parent to the junction and from there to the target. -/
  | joins (toJunction toTarget : JoinCondition)
  /-- Fetched for a batch of parent keys, with the target joined. -/
  | batch (toTarget : JoinCondition) (thisKey parentKey : Column)

/-- The intermediate table of a many-to-many relation. -/
structure Junction where
  reference : String
  aliasName : String
  /-- Options of the target's fields that belong to the junction. -/
  includes : List (String × FieldOptions)
  condition : Option RowCondition
  orderBy : Option (List SortTerm)
  sortKey : Option (List SortTerm)
  fetch : JunctionFetch

/-- How the rows of a table are reached from the rows of its parent. -/
inductive Relation
  | join (condition : JoinCondition)
  | junction (junction : Junction)
  | batch (thisKey parentKey : Column)

/-- What a table node says besides its children. -/
structure TableInfo where
  fieldName : String
  /-- The type the rows have. -/
  typeName : String
  /-- Whether that type is an interface or a union. -/
  isAbstract : Bool
  reference : String
  aliasName : String
  args : Arguments
  /-- A list of rows rather than one. -/
  many : Bool
  paginate : Bool
  orderBy : Option (List SortTerm)
  /-- Only set on paginated tables. -/
  sortKey : Option (List SortTerm)
  limit : Option Nat
  condition : Option RowCondition
  /-- Missing at the root. -/
  relation : Option Relation

/-- A table node with children of some form. -/
structure Table (Child : Type) where
  info : TableInfo
  shared : List Child
  /-- The children of each concrete type. -/
  typed : List (String × List Child)

inductive Node
  | table (table : Table Node)
  | column (column : Column)
  /-- Columns a field is computed from, with their aliases by name. -/
  | dependencies (columns : List (String × String)) (owner : Option String)
  /-- The columns of a key of several columns, as one value. -/
  | composite (names : List String) (fieldName aliasName : String) (owner : Option String)
  | expression (sql : TableFragment) (fieldName aliasName : String) (args : Arguments)
      (owner : Option String)
  /-- A field nothing is fetched for. -/
  | nothing

namespace Node

def table? : Node → Option (Table Node)
  | .table node => some node
  | _ => none

/-- The field a node fetches by itself. -/
def fieldName? : Node → Option String
  | .table node => some node.info.fieldName
  | .column node => some node.fieldName
  | .composite _ fieldName _ _ => some fieldName
  | .expression _ fieldName _ _ _ => some fieldName
  | .dependencies _ _ => none
  | .nothing => none

end Node

namespace TableInfo

def junction? (info : TableInfo) : Option Junction :=
  match info.relation with
  | some (.junction junction) => some junction
  | _ => none

/-- The key on the table's rows and the key on its parent's rows it is matched
with, when the table is fetched in batches. -/
def batchKeys? (info : TableInfo) : Option (Column × Column) :=
  match info.relation with
  | some (.batch thisKey parentKey) => some (thisKey, parentKey)
  | some (.junction junction) =>
      match junction.fetch with
      | .batch _ thisKey parentKey => some (thisKey, parentKey)
      | .joins _ _ => none
  | _ => none

/-- Whether the table is fetched by a statement of its own. -/
def isBoundary (info : TableInfo) : Bool := info.batchKeys?.isSome

/-- The table's sort key, or failing that its junction's. -/
def effectiveSortKey? (info : TableInfo) : Option (List SortTerm) :=
  info.sortKey <|> info.junction?.bind Junction.sortKey

/-- The table's ordering, or failing that its junction's. -/
def effectiveOrderBy? (info : TableInfo) : Option (List SortTerm) :=
  info.orderBy <|> info.junction?.bind Junction.orderBy

/-- The alias of the table's junction, or failing that its own. -/
def junctionAlias (info : TableInfo) : String :=
  (info.junction?.map Junction.aliasName).getD info.aliasName

end TableInfo

namespace Table

/-- All children: the shared ones first, then those of each concrete type. -/
def children {Child : Type} (table : Table Child) : List Child :=
  table.shared ++ table.typed.flatMap Prod.snd

/-- The tables among the children. -/
def tables (table : Table Node) : List (Table Node) :=
  table.children.filterMap Node.table?

end Table

end JoinPlan.Plan
