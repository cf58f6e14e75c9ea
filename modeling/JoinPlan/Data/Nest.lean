import JoinPlan.Data.Rows
import JoinPlan.Plan.Shape

/-!
# Nesting rows

Flat rows become nested objects by following a shape.  At every level rows with
the same identity are one object, and objects keep the order in which they first
appear.  A joined row that was not there has no identity: it becomes null, or is
left out of its list.
-/

namespace JoinPlan

namespace Shape

/-- The columns of the properties that are columns. -/
def columns (properties : List (String × Property)) : List String :=
  properties.filterMap fun entry =>
    match entry.2 with
    | .column aliasName => some aliasName
    | .object _ _ => none

/-- The value of a column in a row, null when it is missing. -/
def cell (row : Row) (aliasName : String) : Json := (Assoc.get? aliasName row).getD .null

/-- The text that tells a row's object from others: that of its first property,
or of all its columns when an object comes first.  A row in which these are null
has no object. -/
def identityText? (properties : List (String × Property)) (row : Row) : Option String :=
  match (⟨true, properties⟩ : Shape).identity? with
  | some aliasName =>
      let value := cell row aliasName
      if value.isNull then none else some value.text
  | none =>
      let values := (columns properties).map (cell row)
      if values.all Json.isNull then none else some (Json.array values).text

/-- The rows of each object, in order of first appearance. -/
def groups (properties : List (String × Property)) (rows : List Row) : List (List Row) :=
  (Assoc.group (identityText? properties) rows).map Prod.snd

/-- A list of objects, or the first of them. -/
def gather (many : Bool) (objects : List Json) : Json :=
  if many then .array objects else objects.headD .null

end Shape

mutual

/-- The value of a property for some rows. -/
def Property.nest : Property → List Row → Json
  | .column aliasName, rows => (rows.head?.map fun row => Shape.cell row aliasName).getD .null
  | .object many properties, rows =>
      Shape.gather many
        ((Shape.groups properties rows).map fun group =>
          .ofMembers (nestProperties properties group))

/-- The properties of the object the rows belong to. -/
def nestProperties : List (String × Property) → List Row → Object
  | [], _ => []
  | entry :: rest, rows => nestEntry entry rows :: nestProperties rest rows

def nestEntry : String × Property → List Row → String × Json
  | (name, property), rows => (name, property.nest rows)

end

/-- The data of a shape for the rows of a statement. -/
def Shape.nest (shape : Shape) (rows : List Row) : Json :=
  (Property.object shape.many shape.properties).nest rows

end JoinPlan
