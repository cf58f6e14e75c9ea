import JoinPlan.Schema.Options
import JoinPlan.Schema.TypeRef

/-!
# Schema

The types a request may select from, by name.  Objects, interfaces and unions
have selections; the rows of an interface or a union are each of a concrete
type.  An object type with the fields `edges` and `pageInfo` is a connection,
the wrapper of a paginated list.
-/

namespace JoinPlan

inductive TypeKind
  | object
  | interface
  | union
  | scalar
  | enum
deriving DecidableEq, Repr

namespace TypeKind

def all : List TypeKind := [.object, .interface, .union, .scalar, .enum]

def text : TypeKind → String
  | .object => "object"
  | .interface => "interface"
  | .union => "union"
  | .scalar => "scalar"
  | .enum => "enum"

def isComposite : TypeKind → Bool
  | .object | .interface | .union => true
  | .scalar | .enum => false

def isAbstract : TypeKind → Bool
  | .interface | .union => true
  | .object | .scalar | .enum => false

end TypeKind

structure FieldDefinition where
  type : TypeRef
  options : FieldOptions

structure TypeDefinition where
  kind : TypeKind
  fields : List (String × FieldDefinition)
  /-- The interfaces an object type implements. -/
  interfaces : List String
  /-- The members of a union, or the implementations of an interface. -/
  possibleTypes : List String
  table : Option TableOptions

namespace TypeDefinition

def field? (type : TypeDefinition) (name : String) : Option FieldDefinition :=
  Assoc.get? name type.fields

def isConnection (type : TypeDefinition) : Bool :=
  Assoc.contains "edges" type.fields && Assoc.contains "pageInfo" type.fields

end TypeDefinition

/-- The types by name, sorted. -/
structure Schema where
  types : List (String × TypeDefinition)

namespace Schema

def empty : Schema := ⟨[]⟩

def type? (schema : Schema) (name : String) : Option TypeDefinition :=
  Assoc.get? name schema.types

end Schema

end JoinPlan
