import JoinPlan.Json.Form

/-!
# Records written in JSON

A record is written as an object of its fields, or as the list of their values
in the order of the record.  In an object members with other keys are passed
over, and a field given twice is a mistake.  A field left out and a field that is
null are the same where the field may be missing; where it has a default, only a
field left out takes it.
-/

namespace JoinPlan.Json

/-- The fields of a record as they are written. -/
abbrev Fields := List (String × Json)

/-- The members of an object that are fields, if none of them is given twice. -/
def memberFields? (known : List String) (members : Object) : Option Fields :=
  let fields := members.filter fun member => known.contains member.1
  if (Assoc.distinct fields).length = fields.length then some fields else none

def objectFields? (known : List String) : Json → Option Fields
  | .object members => memberFields? known members
  | _ => none

def listFields? (known : List String) (items : List Json) : Option Fields :=
  if items.length ≤ known.length then some (known.zip items) else none

/-- The fields of a record in either form. -/
def fields? (known : List String) : Json → Option Fields
  | .object members => memberFields? known members
  | .array items => listFields? known items
  | _ => none

variable {α : Type}

def required (decode : Json → Option α) (key : String) (fields : Fields) : Option α :=
  (Assoc.get? key fields).bind decode

def optional (decode : Json → Option α) (key : String) (fields : Fields) :
    Option (Option α) :=
  match Assoc.get? key fields with
  | none | some .null => some none
  | some value => (decode value).map some

def defaulted (decode : Json → Option α) (fallback : α) (key : String) (fields : Fields) :
    Option α :=
  match Assoc.get? key fields with
  | none => some fallback
  | some value => decode value

/-- A list of values, all of the form read by `decode`. -/
def listOf (decode : Json → Option α) (value : Json) : Option (List α) :=
  value.array?.bind fun items => items.mapM decode

/-- An object whose values all have the form read by `decode`, in order of
writing. -/
def mappingOf (decode : Json → Option α) (value : Json) : Option (List (String × α)) :=
  value.object?.bind fun members =>
    members.mapM fun member => (decode member.2).map fun decoded => (member.1, decoded)

/-- The same, by name. -/
def dictionaryOf (decode : Json → Option α) (value : Json) : Option (List (String × α)) :=
  (mappingOf decode value).map Assoc.sorted

/-- The name of a choice, written alone or as the only key of an object, with
nothing under it. -/
def choice? : Json → Option String
  | .string name => some name
  | .object [(name, .null)] => some name
  | _ => none

end JoinPlan.Json
