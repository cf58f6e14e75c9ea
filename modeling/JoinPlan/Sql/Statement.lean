import JoinPlan.Json.Basic

/-!
# SELECT statements

The statements a plan is fetched with, as data.  Every relation has an alias and
columns are referred to through it.  Table references and fragments built by the
schema's options are raw text, written as they are.
-/

namespace JoinPlan

inductive Direction
  | ascending
  | descending
deriving DecidableEq, Repr

def Direction.flip : Direction → Direction
  | .ascending => .descending
  | .descending => .ascending

def Direction.text : Direction → String
  | .ascending => "ASC"
  | .descending => "DESC"

@[simp]
theorem Direction.flip_flip (direction : Direction) : direction.flip.flip = direction := by
  cases direction <;> rfl

namespace Sql

inductive Comparison
  | equal
  | greater
  | less
deriving DecidableEq, Repr

inductive Expression
  | and (left right : Expression)
  | or (left right : Expression)
  | compare (comparison : Comparison) (left right : Expression)
  /-- Membership in a list, false for the empty list. -/
  | isIn (item : Expression) (items : List Expression)
  | column (table name : String)
  /-- Columns of a key of several columns, combined into one value. -/
  | compositeKey (table : String) (columns : List String)
  /-- The number of rows of the whole result, on every row. -/
  | rowCount
  | value (value : Json)
  | raw (sql : String)

namespace Expression

/-- The condition every row meets. -/
def always : Expression := .value (.bool true)

def isAlways : Expression → Bool
  | .value (.bool true) => true
  | _ => false

/-- The conditions joined by `and`, those every row meets left out. -/
def conjunction (conditions : List Expression) : Expression :=
  match conditions.filter fun condition => !condition.isAlways with
  | [] => always
  | first :: rest => rest.foldl .and first

/-- The conditions an outermost chain of `and` joins. -/
def conjuncts : Expression → List Expression
  | .and left right => left.conjuncts ++ right.conjuncts
  | condition => [condition]

end Expression

/-- One term of an ORDER BY clause. -/
structure OrderTerm where
  target : Expression
  direction : Direction

/-- The number of rows of a LIMIT clause. -/
inductive RowLimit
  | count (rows : Nat)
  | unlimited
deriving DecidableEq, Repr

inductive SelectList
  /-- Expressions with their output aliases. -/
  | items (items : List (String × Expression))
  /-- All columns of a relation. -/
  | star (table : String)
  | both (first second : SelectList)

mutual

structure Select where
  list : SelectList
  source : Option Source
  joins : List Join
  condition : Expression
  order : List OrderTerm
  limit : Option RowLimit
  offset : Option Nat

/-- What a FROM clause names. -/
inductive Source
  | table (reference aliasName : String)
  | select (select : Select) (aliasName : String)
  /-- Literal rows of one column. -/
  | values (rows : List Json) (aliasName column : String)

inductive Join
  | left (reference aliasName : String) (on : Expression)
  /-- A left join of a subquery that sees the relations before it. -/
  | leftLateral (select : Select) (aliasName : String) (on : Expression)
  | lateral (select : Select) (aliasName : String) (on : Expression)

end

def Source.aliasName : Source → String
  | .table _ aliasName => aliasName
  | .select _ aliasName => aliasName
  | .values _ aliasName _ => aliasName

def Join.aliasName : Join → String
  | .left _ aliasName _ => aliasName
  | .leftLateral _ aliasName _ => aliasName
  | .lateral _ aliasName _ => aliasName

/-- A clause that introduces a relation. -/
inductive TableClause
  | source (source : Source)
  | join (join : Join)

namespace Select

def ofList (list : SelectList) : Select where
  list := list
  source := none
  joins := []
  condition := .always
  order := []
  limit := none
  offset := none

/-- Puts clauses in place, in order, until a second FROM clause shows up; the
flag says whether none did. -/
def place (select : Select) : List TableClause → Bool × Select
  | [] => (true, select)
  | .join join :: rest => place { select with joins := select.joins ++ [join] } rest
  | .source source :: rest =>
      if select.source.isSome then (false, select)
      else place { select with source := some source } rest

end Select

end Sql

end JoinPlan
