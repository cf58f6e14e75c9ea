import JoinPlan.Data.Connection
import JoinPlan.Data.Nest
import JoinPlan.Data.Session
import JoinPlan.Data.Union
import JoinPlan.Json.Pointer

/-!
# Batches

Tables fetched in batches are filled in level by level.  The boundaries of a
level are the tables that are reached from the level above without crossing
another boundary.  Each gets one statement, for the distinct keys of its parents;
when all statements of the level have been answered, the rows are put into the
parents with their key, and the tables fetched make the next level.  Objects are
addressed by pointers into the data.
-/

namespace JoinPlan.Plan

open Json (Pointer)

/-- A table, and the pointers of objects: its own when it is in the data, its
parents' when it is a boundary to be fetched. -/
structure Located where
  table : Table Node
  objects : List Pointer

/-- Keys are matched by their text: texts as they are, anything else as JSON. -/
def keyText? : Json → Option String
  | .null => none
  | .string text => some text
  | value => some value.text

/-- The pointers below `pointer` of the items that pass, by their index. -/
def pointersOf (pointer : Pointer) (items : List Json) (passes : Json → Bool) :
    List Pointer :=
  (items.zipIdx.filter fun item => passes item.1).map fun item =>
    pointer.child (Json.indexToken item.2)

/-- The pointers of a table's objects held at a pointer: those of a list or of a
connection, or of a single object. -/
def objectsAt (data : Json) (pointer : Pointer) (info : TableInfo) : List Pointer :=
  match data.resolve? pointer with
  | some (.array items) => pointersOf pointer items Json.isObject
  | some (.object members) =>
      if info.paginate then
        match Assoc.get? "edges" members with
        | some (.array edges) =>
            (pointersOf (pointer.child "edges") edges fun edge => (edge.getD "node").isObject).map
              fun edge => edge.child "node"
        | _ => []
      else [pointer]
  | _ => []

mutual

/-- The boundaries below the objects of a table, with the pointers of their
parents. -/
def Table.boundaries (data : Json) : Table Node → List Pointer → List Located
  | ⟨_, shared, typed⟩, objects =>
      if objects.isEmpty then []
      else nodesBoundaries data shared objects ++ bucketsBoundaries data typed objects

def Node.boundaries (data : Json) : Node → List Pointer → List Located
  | .table child, objects =>
      if child.info.isBoundary then [⟨child, objects⟩]
      else
        child.boundaries data
          (objects.flatMap fun object =>
            objectsAt data (object.child child.info.fieldName) child.info)
  | _, _ => []

def nodesBoundaries (data : Json) : List Node → List Pointer → List Located
  | [], _ => []
  | node :: rest, objects => node.boundaries data objects ++ nodesBoundaries data rest objects

def bucketsBoundaries (data : Json) : List (String × List Node) → List Pointer → List Located
  | [], _ => []
  | bucket :: rest, objects =>
      bucketBoundaries data bucket objects ++ bucketsBoundaries data rest objects

def bucketBoundaries (data : Json) : String × List Node → List Pointer → List Located
  | (_, nodes), objects => nodesBoundaries data nodes objects

end

/-- The key of an object, with its text. -/
def keyOf? (fieldName : String) (object : Json) : Option (String × Json) := do
  let key ← object.get? fieldName
  let text ← keyText? key
  some (text, key)

/-- The distinct keys of a boundary's parents, in order of first appearance.
Missing and null keys match nothing. -/
def batchScope (data : Json) (boundary : Located) : List Json :=
  match boundary.table.info.batchKeys? with
  | none => []
  | some (_, parentKey) =>
      let keys := boundary.objects.filterMap fun parent =>
        (data.resolve? parent).bind (keyOf? parentKey.fieldName)
      (Assoc.distinctBy Prod.fst keys).map Prod.snd

/-- Objects by the text of their key. -/
abbrev Groups := List (String × List Json)

/-- Groups the objects fetched for a boundary by the key they match. -/
def groupByKey (thisKey : Column) (objects : List Json) : Groups :=
  Assoc.group (fun object => (keyOf? thisKey.fieldName object).map Prod.fst) objects

/-- Shapes the rows of a boundary's statement. -/
def Table.batchObjects (table : Table Node) (rows : List Row) :
    Except RequestError (List Json) := do
  let data := table.resolveUnions (table.shape.asMany.nest rows)
  let data ← table.connectChildren data
  .ok (data.array?.getD [])

/-- Fetches the objects of a boundary for the keys of its parents. -/
def fetchBatch (executor : Executor) (dialect : Dialect) (context : Context)
    (table : Table Node) (scope : List Json) : Session Groups :=
  match table.info.batchKeys? with
  | none => pure []
  | some (thisKey, _) =>
      if scope.isEmpty then pure []
      else do
        let sql ← Session.ofPlan (table.statementText ⟨context, dialect, scope⟩)
        if sql.isEmpty then pure []
        else
          let rows ← Session.execute executor sql
          let objects ← Session.ofRequest (table.batchObjects rows)
          pure (groupByKey thisKey objects)

/-- The value of a batched field for the objects that match a parent. -/
def batchValue (info : TableInfo) (objects : List Json) : Except RequestError Json :=
  if info.paginate then info.connection (.array objects)
  else if info.many then .ok (.array objects)
  else .ok (objects.headD .null)

/-- Puts the matching objects into one parent, returning the pointers of the
objects put there. -/
def spliceInto (info : TableInfo) (parentKey : Column) (groups : Groups) (data : Json)
    (parent : Pointer) : Except RequestError (Json × List Pointer) :=
  match (data.resolve? parent).bind Json.object? with
  | none => .ok (data, [])
  | some object => do
      let objects :=
        ((keyOf? parentKey.fieldName (.object object)).bind fun key =>
          Assoc.get? key.1 groups).getD []
      let value ← batchValue info objects
      let data := data.modify (fun _ => .object (Assoc.insert info.fieldName value object)) parent
      .ok (data, objectsAt data (parent.child info.fieldName) info)

def spliceAll (info : TableInfo) (parentKey : Column) (groups : Groups) :
    List Pointer → Json → Except RequestError (Json × List Pointer)
  | [], data => .ok (data, [])
  | parent :: rest, data => do
      let (data, first) ← spliceInto info parentKey groups data parent
      let (data, others) ← spliceAll info parentKey groups rest data
      .ok (data, first ++ others)

/-- Puts the objects of a boundary into its parents, returning the table with the
pointers of its objects. -/
def splice (data : Json) (boundary : Located) (groups : Groups) :
    Except RequestError (Json × Located) :=
  match boundary.table.info.batchKeys? with
  | none => .ok (data, ⟨boundary.table, []⟩)
  | some (_, parentKey) => do
      let (data, objects) ←
        spliceAll boundary.table.info parentKey groups boundary.objects data
      .ok (data, ⟨boundary.table, objects⟩)

def spliceLevel : List (Located × Groups) → Json → Except RequestError (Json × List Located)
  | [], data => .ok (data, [])
  | (boundary, groups) :: rest, data => do
      let (data, first) ← splice data boundary groups
      let (data, others) ← spliceLevel rest data
      .ok (data, first :: others)

/-- The boundaries of a level. -/
def levelBoundaries (data : Json) (level : List Located) : List Located :=
  level.flatMap fun located => located.table.boundaries data located.objects

/-- Fetches the boundaries of a level one after the other, for the keys found in
the data before any of them. -/
def fetchLevel (executor : Executor) (dialect : Dialect) (context : Context)
    (boundaries : List (Table Node × List Json)) : Session (List Groups) :=
  boundaries.mapM fun boundary =>
    fetchBatch executor dialect context boundary.1 boundary.2

/-- Fills in the levels below some tables, at most `height` of them. -/
def fillLevels (executor : Executor) (dialect : Dialect) (context : Context) :
    Nat → List Located → Json → Session Json
  | 0, _, data => pure data
  | height + 1, level, data => do
      let boundaries := levelBoundaries data level
      if boundaries.isEmpty then pure data
      else
        let scopes := boundaries.map fun boundary => (boundary.table, batchScope data boundary)
        let groups ← fetchLevel executor dialect context scopes
        let (data, next) ← Session.ofRequest (spliceLevel (boundaries.zip groups) data)
        fillLevels executor dialect context height next data

mutual

/-- The number of tables on the longest way down from a table. -/
def Table.height : Table Node → Nat
  | ⟨_, shared, typed⟩ => max (nodesHeight shared) (bucketsHeight typed) + 1

def Node.height : Node → Nat
  | .table child => child.height
  | _ => 0

def nodesHeight : List Node → Nat
  | [] => 0
  | node :: rest => max node.height (nodesHeight rest)

def bucketsHeight : List (String × List Node) → Nat
  | [] => 0
  | bucket :: rest => max (bucketHeight bucket) (bucketsHeight rest)

def bucketHeight : String × List Node → Nat
  | (_, nodes) => nodesHeight nodes

end

/-- Fills in every field below a table that is fetched in batches.  A level of
boundaries lies below the one before it, so there are fewer levels than the
table is high. -/
def Table.fillBatches (executor : Executor) (dialect : Dialect) (context : Context)
    (root : Table Node) (data : Json) : Session Json :=
  fillLevels executor dialect context root.height
    [⟨root, objectsAt data "" root.info⟩] data

end JoinPlan.Plan
