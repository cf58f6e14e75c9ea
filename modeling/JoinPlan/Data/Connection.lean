import JoinPlan.Json.Printer
import JoinPlan.Plan.Statement

/-!
# Connections

The list of a paginated field becomes a connection: edges with a cursor each, and
what is known of the pages around.  Over a sort key the cursor of a row holds its
key, and a row beyond the page size shows that another page follows; rows that
were fetched backwards are turned around.  Over an ordering the cursor is the
row's number in the whole list, whose length comes with the rows.
-/

namespace JoinPlan

namespace Connection

def edge (cursor : String) (node : Json) : Json :=
  .ofMembers [("cursor", .string cursor), ("node", node)]

def cursorOf? (edge : Json) : Json := edge.getD "cursor"

def pageInfo (edges : List Json) (hasNextPage hasPreviousPage : Bool) : Json :=
  .ofMembers
    [("hasNextPage", .bool hasNextPage), ("hasPreviousPage", .bool hasPreviousPage),
      ("startCursor", (edges.head?.map cursorOf?).getD .null),
      ("endCursor", (edges.getLast?.map cursorOf?).getD .null)]

/-- The values of a row's sort key. -/
def keyOf (columns : List String) (row : Json) : Json :=
  .ofMembers (columns.map fun column => (column, row.getD column))

/-- The rows of a page over a sort key, and whether there is a page after it and
before it. -/
def keyedPage (args : PageArguments) (rows : List Json) : List Json × Bool × Bool :=
  match args.first, args.last with
  | some first, _ => (rows.take first, first < rows.length, false)
  | none, some last => ((rows.take last).reverse, false, last < rows.length)
  | none, none => (rows, false, false)

/-- The connection of a page over a sort key. -/
def overSortKey (args : PageArguments) (columns : List String) (rows : List Json) : Json :=
  let (page, hasNextPage, hasPreviousPage) := keyedPage args rows
  let edges := page.map fun row => edge (Cursor.encode (keyOf columns row)) row
  .ofMembers [("edges", .array edges), ("pageInfo", pageInfo edges hasNextPage hasPreviousPage)]

/-- The number of rows a total says, as a number or as its text. -/
def totalOf : Json → Nat
  | .string text => (Text.count? text).getD 0
  | value => value.count?.getD 0

/-- The number of rows in the whole list, from the first row of a page. -/
def totalOfRows (rows : List Json) : Nat :=
  (rows.head?.map fun row => totalOf (row.getD Sql.totalColumn)).getD 0

/-- Edges whose cursors count from `offset`. -/
def numberedEdges (offset : Nat) : List Json → List Json
  | [] => []
  | row :: rest => edge (Cursor.encodeOffset offset) row :: numberedEdges (offset + 1) rest

/-- The connection of a page over an ordering. -/
def overOrdering (args : PageArguments) (rows : List Json) : Except RequestError Json := do
  let offset ← Paging.startAfter args.after
  let total := totalOfRows rows
  let kept := min (min rows.length (args.first.getD rows.length)) (total - offset)
  let edges := numberedEdges offset (rows.take kept)
  .ok (.ofMembers
    [("edges", .array edges), ("pageInfo", pageInfo edges (offset + kept < total) false),
      ("total", .ofNat total)])

end Connection

namespace Plan

/-- The rows a value holds. -/
def rowsOf : Json → List Json
  | .array rows => rows
  | .null => []
  | value => [value]

/-- The connection of one page of a table's rows. -/
def TableInfo.connection (info : TableInfo) (data : Json) : Except RequestError Json := do
  let rows := rowsOf data
  let args ← PageArguments.read info.paginate info.limit info.args
  match info.effectiveSortKey?, info.effectiveOrderBy? with
  | some sortKey, _ => .ok (Connection.overSortKey args (sortKey.map SortTerm.column) rows)
  | none, some _ => Connection.overOrdering args rows
  | none, none => .ok (.array rows)

/-- Applies a change that may fail to the objects a value is or lists, in order. -/
def onObjectsM {ε : Type} (change : Object → Except ε Object) : Json → Except ε Json
  | .array items => do return .array (← onItems items)
  | .object members => do return .object (← change members)
  | value => .ok value
where
  onItems : List Json → Except ε (List Json)
    | [] => .ok []
    | item :: rest => do
        let item ← onObjectsM change item
        let rest ← onItems rest
        return item :: rest

/-- Applies a change that may fail to the value of a property, if it is there. -/
def onPropertyM {ε : Type} (name : String) (change : Json → Except ε Json) (object : Object) :
    Except ε Object :=
  match Assoc.get? name object with
  | none => .ok object
  | some value => do return Assoc.insert name (← change value) object

mutual

/-- Builds the connections of the fields fetched with a table, below its objects. -/
def Table.connectChildren : Table Node → Json → Except RequestError Json
  | ⟨_, shared, typed⟩ =>
      onObjectsM fun object => do
        let object ← connectNodes shared object
        connectBuckets typed object

def Node.connect : Node → Object → Except RequestError Object
  | .table child =>
      if child.info.isBoundary then .ok
      else
        onPropertyM child.info.fieldName fun value => do
          let value ← child.connectChildren value
          if child.info.paginate then child.info.connection value else .ok value
  | _ => .ok

def connectNodes : List Node → Object → Except RequestError Object
  | [], object => .ok object
  | node :: rest, object => do
      let object ← node.connect object
      connectNodes rest object

def connectBuckets : List (String × List Node) → Object → Except RequestError Object
  | [], object => .ok object
  | bucket :: rest, object => do
      let object ← connectBucket bucket object
      connectBuckets rest object

def connectBucket : String × List Node → Object → Except RequestError Object
  | (_, nodes), object => connectNodes nodes object

end

/-- Turns the list of every paginated field fetched with a table, and of the table
itself, into a connection. -/
def Table.connect (table : Table Node) (data : Json) : Except RequestError Json := do
  let data ← table.connectChildren data
  if table.info.paginate then table.info.connection data else .ok data

end Plan

end JoinPlan
