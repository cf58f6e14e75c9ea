import JoinPlan.Plan.Node

/-!
# Shapes

A shape says which column of a flat row becomes which property of nested data.
Its first property identifies an object among the rows.  The output alias of a
column is its own alias after the aliases of the tables on the way to it, the
first of them left out.  A table fetched later only leaves the key it is matched
by, and what is selected for a concrete type is kept apart by the type's name.
-/

namespace JoinPlan

/-- Where the value of a property comes from: an output column, or an object of
further properties. -/
inductive Property
  | column (aliasName : String)
  | object (many : Bool) (properties : List (String × Property))

structure Shape where
  /-- A list of objects rather than one. -/
  many : Bool
  properties : List (String × Property)

namespace Shape

/-- The column that identifies an object: the first property, if it is a column. -/
def identity? (shape : Shape) : Option String :=
  match shape.properties with
  | (_, .column aliasName) :: _ => some aliasName
  | _ => none

def asMany (shape : Shape) : Shape := { shape with many := true }

end Shape

namespace Plan

/-- What precedes the output alias of a column below a path of tables. -/
def pathText (path : List String) : String :=
  String.join ((path.drop 1).map fun aliasName => aliasName ++ "__")

def outputAlias (path : List String) (aliasName : String) : String := pathText path ++ aliasName

/-- What follows the name of a property selected for a concrete type. -/
def typeMark : Option String → String
  | none => ""
  | some type => "@" ++ type

mutual

/-- The properties of a table's objects, given the path to the table. -/
def Table.properties (path : List String) : Table Node → List (String × Property)
  | ⟨_, shared, typed⟩ =>
      Assoc.distinct (nodesProperties path none shared ++ bucketsProperties path typed)

/-- The properties a child gives its table's objects. -/
def Node.properties (path : List String) (type : Option String) : Node → List (String × Property)
  | .column node =>
      [(node.fieldName ++ typeMark type, .column (outputAlias path node.aliasName))]
  | .composite _ fieldName aliasName _ =>
      [(fieldName ++ typeMark type, .column (outputAlias path aliasName))]
  | .expression _ fieldName aliasName _ _ =>
      [(fieldName ++ typeMark type, .column (outputAlias path aliasName))]
  | .dependencies columns _ =>
      columns.map fun entry =>
        (entry.1 ++ typeMark type, .column (outputAlias path entry.2))
  | .table child =>
      match child.info.batchKeys? with
      | some (_, parentKey) =>
          [(parentKey.fieldName ++ typeMark type, .column (outputAlias path parentKey.aliasName))]
      | none =>
          [(child.info.fieldName ++ typeMark type,
            .object child.info.many (child.properties (path ++ [child.info.aliasName])))]
  | .nothing => []

def nodesProperties (path : List String) (type : Option String) :
    List Node → List (String × Property)
  | [] => []
  | node :: rest => node.properties path type ++ nodesProperties path type rest

def bucketsProperties (path : List String) :
    List (String × List Node) → List (String × Property)
  | [] => []
  | bucket :: rest => bucketProperties path bucket ++ bucketsProperties path rest

def bucketProperties (path : List String) : String × List Node → List (String × Property)
  | (type, nodes) => nodesProperties path (some type) nodes

end

/-- The shape of the rows of a statement that starts at a table. -/
def Table.shape (root : Table Node) : Shape :=
  ⟨root.info.many, root.properties [root.info.aliasName]⟩

end Plan

end JoinPlan
