import JoinPlan.Sql.Page

/-!
# Mistakes

What can go wrong before a statement is sent: the schema's options are wrong, or
the request is, or the dialect cannot write the statement.  Each mistake is a
cause with what it concerns; its wording is one function.
-/

namespace JoinPlan

/-- Mistakes in the options of the schema. -/
inductive ConfigurationError
  | unknownField (field parentType : String)
  | unknownType (type : String)
  | unknownFragment (fragment : String)
  | notATable (type : String)
  | missingRelation (field parentType : String)
  | ambiguousRelation (field parentType : String)
  | junctionWithoutFetch (field : String)
  | missingJunctionUniqueKey (field : String)
  | paginationOnNonConnection (field type : String)
  | missingSortKey (field : String)
  | limitWithoutOrdering (field : String)
  | duplicateOrdering (field option : String)
  | invalidDirection (direction : String)
  | rootJoin (field : String)
  | secondSource (field : String)
  | compositeKeyMismatch (type : String) (expected found : Nat)
deriving DecidableEq, Repr

/-- Mistakes in the request. -/
inductive RequestError
  | noFields
  | malformedCursor (cursor : String)
  | cursorKeyNotInSortKey (key : String)
  | cursorMissingKey (column : String)
  | beforeWithFirst
  | afterWithLast
  | backwardOffsetPagination
  | invalidPageSize (argument value : String)
deriving DecidableEq, Repr

inductive PlanError
  | configuration (error : ConfigurationError)
  | request (error : RequestError)
  | dialect (error : Sql.UnsupportedPage)
deriving DecidableEq, Repr

def ConfigurationError.message : ConfigurationError → String
  | .unknownField field parentType =>
      "The field \"" ++ field ++ "\" is not in the " ++ parentType ++ " type."
  | .unknownType type => "The type \"" ++ type ++ "\" is not in the schema."
  | .unknownFragment fragment => "The fragment \"" ++ fragment ++ "\" is not defined."
  | .notATable type => "The type \"" ++ type ++ "\" is not backed by a table."
  | .missingRelation field parentType =>
      "If an Object type maps to a SQL table and has a child which is another Object type " ++
        "that also maps to a SQL table, you must define \"sqlJoin\", \"sqlBatch\", or " ++
        "\"junction\" on that field to tell the compiler how to fetch it. Or you can ignore " ++
        "it with \"ignoreTable\". Check the \"" ++ field ++ "\" field on the \"" ++
        parentType ++ "\" type."
  | .ambiguousRelation field parentType =>
      "Only one of \"sqlJoin\", \"sqlBatch\" or \"junction\" may be defined on the \"" ++
        field ++ "\" field of the \"" ++ parentType ++ "\" type."
  | .junctionWithoutFetch field =>
      "A junction on the \"" ++ field ++ "\" field needs either \"sqlJoins\" or \"sqlBatch\"."
  | .missingJunctionUniqueKey field =>
      "The junction on the \"" ++ field ++ "\" field needs a \"uniqueKey\" to be batched."
  | .paginationOnNonConnection field type =>
      "To paginate the " ++ field ++ " field, it needs to be a Connection type, not " ++
        type ++ "."
  | .missingSortKey field =>
      "Cannot paginate the " ++ field ++ " field without a \"sortKey\" or \"orderBy\"."
  | .limitWithoutOrdering field =>
      "\"orderBy\" is required for a \"limit\" on the " ++ field ++ " field."
  | .duplicateOrdering field option =>
      "\"" ++ option ++ "\" must be defined on either the field or the junction of the " ++
        field ++ " field, not both."
  | .invalidDirection direction => direction ++ " is not a valid sorting direction"
  | .rootJoin field => "The root field \"" ++ field ++ "\" cannot have a \"sqlJoin\"."
  | .secondSource field =>
      "The statement fetching the \"" ++ field ++
        "\" field would need more than one FROM clause."
  | .compositeKeyMismatch type expected found =>
      "The unique key of " ++ type ++ " has " ++ toString expected ++
        " columns, but the condition has " ++ toString found ++ " values."

def RequestError.message : RequestError → String
  | .noFields => "The request selects no field."
  | .malformedCursor cursor => "Invalid cursor \"" ++ cursor ++ "\"."
  | .cursorKeyNotInSortKey key =>
      "Invalid cursor. The column \"" ++ key ++ "\" is not in the sort key."
  | .cursorMissingKey column =>
      "Invalid cursor. The column \"" ++ column ++ "\" is not in the cursor."
  | .beforeWithFirst => "Using \"before\" with \"first\" is nonsensical."
  | .afterWithLast => "Using \"after\" with \"last\" is nonsensical."
  | .backwardOffsetPagination =>
      "Backward pagination not supported with offsets. " ++
        "Consider using keyset pagination instead"
  | .invalidPageSize argument value =>
      "\"" ++ argument ++ "\" must be a non-negative integer, not " ++ value ++ "."

def PlanError.message : PlanError → String
  | .configuration error => error.message
  | .request error => error.message
  | .dialect error => error.message

instance : MonadLift (Except ConfigurationError) (Except PlanError) where
  monadLift
    | .ok value => .ok value
    | .error error => .error (.configuration error)

instance : MonadLift (Except RequestError) (Except PlanError) where
  monadLift
    | .ok value => .ok value
    | .error error => .error (.request error)

instance : MonadLift (Except Sql.UnsupportedPage) (Except PlanError) where
  monadLift
    | .ok value => .ok value
    | .error error => .error (.dialect error)

end JoinPlan
