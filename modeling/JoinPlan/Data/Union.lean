import JoinPlan.Json.Basic
import JoinPlan.Plan.Shape

/-!
# Resolving unions

What is selected for one concrete type of an interface or union is fetched under
the property's name with the type after it.  In every object these properties are
folded into one without the type: of the values that are not null the first
stands.
-/

namespace JoinPlan.Plan

/-- Folds the property marked with a type into the one without the mark. -/
def collapse (type name : String) (object : Object) : Object :=
  let marked := name ++ typeMark (some type)
  let value := Assoc.get? marked object
  let rest := Assoc.erase marked object
  match Assoc.get? name rest with
  | none | some .null => Assoc.insert name (value.getD .null) rest
  | some _ => rest

/-- The properties a child has in the objects of its table. -/
def Node.propertyNames : Node → List String
  | .dependencies columns _ => Assoc.keys columns
  | .table child =>
      match child.info.batchKeys? with
      | some (_, parentKey) => [parentKey.fieldName]
      | none => [child.info.fieldName]
  | node => node.fieldName?.toList

/-- Folds the properties of the children of one type. -/
def collapseBucket (object : Object) (bucket : String × List Node) : Object :=
  (bucket.2.flatMap Node.propertyNames).foldl
    (fun object name => collapse bucket.1 name object) object

/-- Applies a change to the objects a value is or lists. -/
def onObjects (change : Object → Object) : Json → Json
  | .array items => .array (onItems items)
  | .object members => .object (change members)
  | value => value
where
  onItems : List Json → List Json
    | [] => []
    | item :: rest => onObjects change item :: onItems rest

/-- Applies a change to the value of a property, if it is there. -/
def onProperty (name : String) (change : Json → Json) (object : Object) : Object :=
  match Assoc.get? name object with
  | none => object
  | some value => Assoc.insert name (change value) object

mutual

/-- Resolves the unions in the objects of a table and of the tables joined to it. -/
def Table.resolveUnions : Table Node → Json → Json
  | ⟨_, shared, typed⟩ =>
      onObjects fun object =>
        resolveBuckets typed (resolveNodes shared (typed.foldl collapseBucket object))

def Node.resolveUnions : Node → Object → Object
  | .table child =>
      if child.info.isBoundary then id
      else onProperty child.info.fieldName child.resolveUnions
  | _ => id

def resolveNodes : List Node → Object → Object
  | [], object => object
  | node :: rest, object => resolveNodes rest (node.resolveUnions object)

def resolveBuckets : List (String × List Node) → Object → Object
  | [], object => object
  | bucket :: rest, object => resolveBuckets rest (resolveBucket bucket object)

def resolveBucket : String × List Node → Object → Object
  | (_, nodes), object => resolveNodes nodes object

end

end JoinPlan.Plan
