import JoinPlan.Error
import JoinPlan.Schema.Options

/-!
# Sort orders

Every form of the `orderBy` and `sortKey` options comes down to a list of columns
with directions.  A direction is read through the capitals of its letters, so the
long s, whose capital is S, counts as an s.  Paging backwards turns every
direction around.
-/

namespace JoinPlan

/-- A column and its direction. -/
structure SortTerm where
  column : String
  direction : Direction
deriving DecidableEq, Repr

/-- The capital of a letter of a direction. -/
def capital (c : Char) : Char := if c = 'ſ' then 'S' else c.toUpper

def Direction.parse (text : String) : Except ConfigurationError Direction :=
  let capitals := text.toList.map capital
  if capitals = "ASC".toList then .ok .ascending
  else if capitals = "DESC".toList then .ok .descending
  else .error (.invalidDirection text)

def SortTerm.parse (column direction : String) : Except ConfigurationError SortTerm := do
  .ok ⟨column, ← Direction.parse direction⟩

def OrderingOption.term (ordering : OrderingOption) : Except ConfigurationError SortTerm :=
  SortTerm.parse ordering.column ordering.direction

def OrderByOption.terms : OrderByOption → Except ConfigurationError (List SortTerm)
  | .column name => .ok [⟨name, .ascending⟩]
  | .mapping directions => directions.mapM fun entry => SortTerm.parse entry.1 entry.2
  | .list orderings => orderings.mapM OrderingOption.term

def SortKeyOption.terms : SortKeyOption → Except ConfigurationError (List SortTerm)
  | .key direction columns => do
      let direction ← Direction.parse direction
      .ok (columns.toList.map fun column => ⟨column, direction⟩)
  | .list orderings => orderings.mapM OrderingOption.term

/-- The terms to fetch with: turned around when paging backwards. -/
def directed (backwards : Bool) (terms : List SortTerm) : List SortTerm :=
  terms.map fun term =>
    { term with direction := if backwards then term.direction.flip else term.direction }

@[simp]
theorem directed_false (terms : List SortTerm) : directed false terms = terms := by
  simp [directed]

@[simp]
theorem directed_true_directed_true (terms : List SortTerm) :
    directed true (directed true terms) = terms := by
  simp [directed, Function.comp_def]

theorem map_column_directed (backwards : Bool) (terms : List SortTerm) :
    (directed backwards terms).map SortTerm.column = terms.map SortTerm.column := by
  simp [directed, Function.comp_def]

end JoinPlan
