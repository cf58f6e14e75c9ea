import JoinPlan.Cursor
import JoinPlan.SortOrder

/-!
# Page arguments

A page is asked for with `first` and `after`, or with `last` and `before`.  Over
a sort key a cursor holds the key of a row, and the page seeks the rows past it;
over an ordering a cursor is a row number, and the page starts after it.  One row
more than asked for is fetched, to tell whether another page follows.
-/

namespace JoinPlan

structure PageArguments where
  first : Option Nat
  last : Option Nat
  after : Option String
  before : Option String
deriving DecidableEq, Repr

namespace PageArguments

/-- A count, given as a number or as its text. -/
def count? (args : Arguments) (name : String) : Except RequestError (Option Nat) :=
  match Assoc.get? name args with
  | none | some .null => .ok none
  | some value =>
      let count :=
        match value with
        | .string text => Text.count? text
        | value => value.count?
      match count with
      | some count => .ok (some count)
      | none => .error (.invalidPageSize name value.text)

def cursor? (args : Arguments) (name : String) : Except RequestError (Option String) :=
  match Assoc.get? name args with
  | none | some .null => .ok none
  | some (.string cursor) => .ok (some cursor)
  | some value => .error (.malformedCursor value.text)

/-- The page arguments of a field.  A limit on a field that is not paginated
stands in for `first`. -/
def read (paginate : Bool) (limit : Option Nat) (args : Arguments) :
    Except RequestError PageArguments := do
  let first ← if paginate then count? args "first" else .ok limit
  let last ← count? args "last"
  let after ← cursor? args "after"
  let before ← cursor? args "before"
  .ok { first, last, after, before }

end PageArguments

/-- What selects one page. -/
structure PageParameters where
  order : List Sql.OrderTerm
  limit : Sql.RowLimit
  /-- The number of rows before the page, over an ordering. -/
  offset : Option Nat
  /-- The condition of being past the cursor, over a sort key. -/
  seek : Option Sql.Expression

namespace Paging

open Sql

/-- The terms of an ORDER BY clause over one table. -/
def orderTerms (table : String) (terms : List SortTerm) : List OrderTerm :=
  terms.map fun term => ⟨.column table term.column, term.direction⟩

/-- The comparison that holds of the values past a given one. -/
def past : Direction → Comparison
  | .ascending => .greater
  | .descending => .less

/-- Compares a column of a row with the cursor's value of it. -/
def compareColumn (table : String) (values : Object) (comparison : Comparison)
    (column : String) : Expression :=
  .compare comparison (.column table column) (.value ((Assoc.get? column values).getD .null))

/-- The rows strictly past a cursor: past it in the first column, or equal there
and past it in the others. -/
def seek (table : String) (values : Object) : List SortTerm → Expression
  | [] => .always
  | [term] => compareColumn table values (past term.direction) term.column
  | term :: rest =>
      .or (compareColumn table values (past term.direction) term.column)
        (.and (compareColumn table values .equal term.column) (seek table values rest))

/-- A page size with the row that tells whether another page follows. -/
def oneMore (argument : String) (count : Nat) : Except RequestError Nat :=
  if count + 1 < countLimit then .ok (count + 1)
  else .error (.invalidPageSize argument (toString count))

/-- The condition of being past a cursor, if there is one. -/
def seekPast (table : String) (terms : List SortTerm) :
    Option String → Except RequestError (Option Expression)
  | none => .ok none
  | some cursor => do
      let values ← Cursor.decodeSortKey cursor (terms.map SortTerm.column)
      .ok (some (seek table values terms))

/-- A page over a sort key. -/
def overSortKey (args : PageArguments) (sortKey : List SortTerm) (table : String) :
    Except RequestError PageParameters := do
  let terms := directed args.last.isSome sortKey
  let order := orderTerms table terms
  match args.first, args.last with
  | some first, _ =>
      let limit ← oneMore "first" first
      let seek ← seekPast table terms args.after
      if args.before.isSome then .error .beforeWithFirst
      else .ok { order, limit := .count limit, offset := none, seek }
  | none, some last =>
      let limit ← oneMore "last" last
      let seek ← seekPast table terms args.before
      if args.after.isSome then .error .afterWithLast
      else .ok { order, limit := .count limit, offset := none, seek }
  | none, none => .ok { order, limit := .unlimited, offset := none, seek := none }

/-- The number of the first row after a cursor. -/
def startAfter : Option String → Except RequestError Nat
  | none => .ok 0
  | some cursor => do
      let offset ← Cursor.decodeOffset cursor
      if offset + 1 < countLimit then .ok (offset + 1) else .error (.malformedCursor cursor)

/-- A page over an ordering; `probe` asks for the row that tells whether another
page follows. -/
def overOrdering (args : PageArguments) (terms : List SortTerm) (table : String)
    (probe : Bool) : Except RequestError PageParameters := do
  if args.last.isSome then .error .backwardOffsetPagination
  else
    let limit ←
      match args.first with
      | none => pure RowLimit.unlimited
      | some first =>
          if probe then RowLimit.count <$> oneMore "first" first else pure (.count first)
    let offset ← startAfter args.after
    .ok { order := orderTerms table terms, limit, offset := some offset, seek := none }

end Paging

end JoinPlan
