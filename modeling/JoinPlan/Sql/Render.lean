import JoinPlan.Sql.Dialect
import JoinPlan.Sql.Statement

/-!
# The text of a statement

Conditions joined by `and` and `or` are put in parentheses, except for the
outermost chain of `and` in a WHERE clause.  A clause that says nothing is not
written; an offset without a limit is written after the word for no limit.
-/

namespace JoinPlan.Sql

def Comparison.text : Comparison → String
  | .equal => " = "
  | .greater => " > "
  | .less => " < "

/-- A column of a relation. -/
def columnText (dialect : Dialect) (table name : String) : String :=
  dialect.quote table ++ "." ++ dialect.quote name

mutual

def Expression.render (dialect : Dialect) : Expression → String
  | .and left right => "(" ++ left.render dialect ++ " AND " ++ right.render dialect ++ ")"
  | .or left right => "(" ++ left.render dialect ++ " OR " ++ right.render dialect ++ ")"
  | .compare comparison left right =>
      left.render dialect ++ comparison.text ++ right.render dialect
  | .isIn _ [] => "FALSE"
  | .isIn item (first :: rest) =>
      item.render dialect ++ " IN (" ++ first.render dialect ++
        Expression.renderRest dialect rest ++ ")"
  | .column table name => columnText dialect table name
  | .compositeKey table columns =>
      dialect.compositeKey (columns.map (columnText dialect table))
  | .rowCount => "count(*) OVER ()"
  | .value literal => dialect.literal literal
  | .raw sql => sql

/-- Further items of a list. -/
def Expression.renderRest (dialect : Dialect) : List Expression → String
  | [] => ""
  | item :: rest => ", " ++ item.render dialect ++ Expression.renderRest dialect rest

end

/-- An expression with its output alias. -/
def renderItem (dialect : Dialect) (item : String × Expression) : String :=
  item.2.render dialect ++ " AS " ++ dialect.quote item.1

def SelectList.render (dialect : Dialect) : SelectList → String
  | .items list => ", ".intercalate (list.map (renderItem dialect))
  | .star table => dialect.quote table ++ ".*"
  | .both first second => first.render dialect ++ ", " ++ second.render dialect

def renderCondition (dialect : Dialect) (condition : Expression) : String :=
  if condition.isAlways then ""
  else " WHERE " ++ " AND ".intercalate (condition.conjuncts.map (Expression.render dialect))

def OrderTerm.render (dialect : Dialect) (term : OrderTerm) : String :=
  term.target.render dialect ++ " " ++ term.direction.text

def renderOrder (dialect : Dialect) (terms : List OrderTerm) : String :=
  if terms.isEmpty then ""
  else " ORDER BY " ++ ", ".intercalate (terms.map (OrderTerm.render dialect))

def RowLimit.render (dialect : Dialect) : RowLimit → String
  | .count rows => toString rows
  | .unlimited => dialect.unlimited

def renderOffset : Option Nat → String
  | none => ""
  | some offset => " OFFSET " ++ toString offset

def renderLimit (dialect : Dialect) (limit : Option RowLimit) (offset : Option Nat) : String :=
  match limit, offset with
  | none, none => ""
  | some limit, offset => " LIMIT " ++ limit.render dialect ++ renderOffset offset
  | none, some offset => " LIMIT " ++ dialect.unlimited ++ renderOffset (some offset)

def renderRow (dialect : Dialect) (row : Json) : String :=
  dialect.rowWord ++ "(" ++ dialect.literal row ++ ")"

mutual

def Select.render (dialect : Dialect) : Select → String
  | ⟨list, source, joins, condition, order, limit, offset⟩ =>
      "SELECT " ++ list.render dialect ++ renderSource dialect source ++
        renderJoins dialect joins ++ renderCondition dialect condition ++
        renderOrder dialect order ++ renderLimit dialect limit offset

def renderSource (dialect : Dialect) : Option Source → String
  | none => ""
  | some source => " FROM " ++ source.render dialect

def Source.render (dialect : Dialect) : Source → String
  | .table reference aliasName => reference ++ " AS " ++ dialect.quote aliasName
  | .select select aliasName => "(" ++ select.render dialect ++ ") AS " ++ dialect.quote aliasName
  | .values rows aliasName column =>
      "(VALUES " ++ ", ".intercalate (rows.map (renderRow dialect)) ++ ") AS " ++
        dialect.quote aliasName ++ "(" ++ dialect.quote column ++ ")"

def renderJoins (dialect : Dialect) : List Join → String
  | [] => ""
  | join :: rest => " " ++ join.render dialect ++ renderJoins dialect rest

def Join.render (dialect : Dialect) : Join → String
  | .left reference aliasName on =>
      "LEFT JOIN " ++ reference ++ " AS " ++ dialect.quote aliasName ++ " ON " ++ on.render dialect
  | .leftLateral select aliasName on =>
      "LEFT JOIN LATERAL (" ++ select.render dialect ++ ") AS " ++ dialect.quote aliasName ++
        " ON " ++ on.render dialect
  | .lateral select aliasName on =>
      "JOIN LATERAL (" ++ select.render dialect ++ ") AS " ++ dialect.quote aliasName ++
        " ON " ++ on.render dialect

end

end JoinPlan.Sql
