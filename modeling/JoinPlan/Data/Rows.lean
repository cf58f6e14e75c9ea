import JoinPlan.Error
import JoinPlan.Json.Printer

/-!
# Rows

An executor answers a statement with an array of objects, one for every row, or
with an object whose `rows` are such an array.  Running a request can fail in
planning, in the executor, or because an answer holds something else.
-/

namespace JoinPlan

/-- One row of a result, by output alias. -/
abbrev Row := Object

inductive RunError
  | plan (error : PlanError)
  /-- What the executor failed with. -/
  | external (message : String)
  /-- The text of an answer, or of an item of it, that holds no rows. -/
  | dataShape (found : String)
deriving DecidableEq, Repr

def RunError.message : RunError → String
  | .plan error => error.message
  | .external message => message
  | .dataShape found =>
      "The executor must return an array of objects, one per row of the result set, " ++
        "or an object whose \"rows\" property is such an array. Instead got " ++ found

namespace Row

def ofJson : Json → Except RunError Row
  | .object row => .ok row
  | value => .error (.dataShape value.text)

/-- The rows in an executor's answer. -/
def ofResult : Json → Except RunError (List Row)
  | .array items => items.mapM ofJson
  | .object members =>
      match Assoc.get? "rows" members with
      | some (.array items) => items.mapM ofJson
      | _ => .error (.dataShape (Json.object members).text)
  | value => .error (.dataShape value.text)

end Row

end JoinPlan
