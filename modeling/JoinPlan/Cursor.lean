import JoinPlan.Error
import JoinPlan.Json.Form
import JoinPlan.Text.Base64

/-!
# Cursors

A cursor is the base64 text of a JSON value: the number of a row counted from the
start of the list, or the values of a row's sort key columns.  Reading refuses
what is not such a value, and a sort key cursor that has other keys than the
columns of the sort key.
-/

namespace JoinPlan.Cursor

def encode (value : Json) : String := Text.Base64.encodeText value.text

def decode (cursor : String) : Except RequestError Json :=
  match (Text.Base64.decodeText? cursor).bind Json.parse? with
  | some value => .ok value
  | none => .error (.malformedCursor cursor)

/-- The cursor of the row with a number. -/
def encodeOffset (offset : Nat) : String := encode (.ofNat offset)

def decodeOffset (cursor : String) : Except RequestError Nat := do
  match (← decode cursor).count? with
  | some offset => .ok offset
  | none => .error (.malformedCursor cursor)

/-- The values of a sort key, if they are those of the columns. -/
def checkColumns (columns : List String) (values : Object) : Except RequestError Object :=
  match (Assoc.keys values).find? fun key => !columns.contains key with
  | some extra => .error (.cursorKeyNotInSortKey extra)
  | none =>
      match columns.find? fun column => !Assoc.contains column values with
      | some missing => .error (.cursorMissingKey missing)
      | none => .ok values

def decodeSortKey (cursor : String) (columns : List String) : Except RequestError Object := do
  match ← decode cursor with
  | .object values => checkColumns columns values
  | _ => .error (.malformedCursor cursor)

end JoinPlan.Cursor
