import JoinPlan.Data.Rows

/-!
# Sessions with an executor

An executor is a function of the statements sent to it so far, the last of them
the one it answers.  A session keeps these statements, also when it fails, so
that what was sent can be told from the outcome.
-/

namespace JoinPlan

/-- Answers a statement, given all statements up to it in the order they were
sent. -/
abbrev Executor := List String → Except String Json

/-- A computation that sends statements and may fail. -/
abbrev Session := ExceptT RunError (StateM (List String))

namespace Session

def ofPlan {α : Type} : Except PlanError α → Session α
  | .ok value => pure value
  | .error error => throw (.plan error)

def ofRequest {α : Type} (result : Except RequestError α) : Session α :=
  ofPlan (result.mapError .request)

/-- Sends a statement and takes the rows out of the answer. -/
def execute (executor : Executor) (sql : String) : Session (List Row) := do
  let sent := (← get) ++ [sql]
  set sent
  match executor sent with
  | .error message => throw (.external message)
  | .ok result => ExceptT.mk (pure (Row.ofResult result))

end Session

end JoinPlan
