import JoinPlan.Proofs.Cursor
import JoinPlan.Proofs.Paging.Seek

/-!
# Asking for the next page

A list is walked forward with `first` and `after`, or backward with `last` and
`before`; the two differ in the names they use, in the direction of fetching and in
the order in which a page shows its rows.  What a page over a sort key fetches are
the next rows in the direction of fetching, one more than are shown.
-/

namespace JoinPlan.Paging

open Sql

inductive Turn
  | forward
  | backward
deriving DecidableEq, Repr

namespace Turn

def sizeArgument : Turn → String
  | forward => "first"
  | backward => "last"

def cursorArgument : Turn → String
  | forward => "after"
  | backward => "before"

/-- The name of the flag that says whether the walk goes on. -/
def moreFlag : Turn → String
  | forward => "hasNextPage"
  | backward => "hasPreviousPage"

/-- The name of the cursor the walk goes on from. -/
def edgeCursor : Turn → String
  | forward => "endCursor"
  | backward => "startCursor"

def isBackward : Turn → Bool
  | forward => false
  | backward => true

/-- The order in which a page shows the rows it fetched. -/
def shown : Turn → List Json → List Json
  | forward => id
  | backward => List.reverse

/-- Pages put together: each after the ones before it, or prepended. -/
def assembled (turn : Turn) (pages : List (List Json)) : List Json :=
  match turn with
  | forward => pages.flatten
  | backward => pages.reverse.flatten

/-- The arguments of a page, past a cursor if there is one. -/
def arguments (turn : Turn) (size : Nat) (cursor : Option String) : Arguments :=
  (cursor.map fun cursor => (turn.cursorArgument, Json.string cursor)).toList ++
    [(turn.sizeArgument, Json.ofNat size)]

def pageArguments (turn : Turn) (size : Nat) (cursor : Option String) : PageArguments :=
  match turn with
  | forward => { first := some size, last := none, after := cursor, before := none }
  | backward => { first := none, last := some size, after := none, before := cursor }

private theorem read_number (turn : Turn) {number : Number} {size : Nat}
    (hcount : number.count? = some size) (cursor : Option String) (limit : Option Nat) :
    PageArguments.read true limit
        ((cursor.map fun cursor => (turn.cursorArgument, Json.string cursor)).toList ++
          [(turn.sizeArgument, Json.number number)]) =
      .ok (turn.pageArguments size cursor) := by
  cases turn <;> cases cursor <;>
    simp [PageArguments.read, PageArguments.count?, PageArguments.cursor?, sizeArgument,
      cursorArgument, pageArguments, Assoc.get?, Json.count?, hcount, bind, Except.bind]

theorem read_arguments (turn : Turn) (size : Nat) (hsize : size < countLimit)
    (cursor : Option String) (limit : Option Nat) :
    PageArguments.read true limit (turn.arguments size cursor) =
      .ok (turn.pageArguments size cursor) := by
  have hfits : 0 ≤ (size : Int) ∧ (size : Int) < countLimit :=
    ⟨Int.natCast_nonneg size, Int.ofNat_lt.mpr hsize⟩
  apply read_number
  rw [Number.ofNat, Number.count?, if_pos hfits, Int.toNat_natCast]

theorem assembled_shown (turn : Turn) (pages : List (List Json)) :
    turn.assembled (pages.map turn.shown) = turn.shown pages.flatten := by
  cases turn with
  | forward => simp [assembled, shown]
  | backward => exact List.reverse_flatten.symm

end Turn

theorem Keyed.directed {collation : Collation} {terms : List SortTerm} {rows : List Json}
    (h : Keyed collation terms rows) (backwards : Bool) :
    Keyed collation (directed backwards terms) rows where
  not_null row hrow term hterm := by
    obtain ⟨original, horiginal, rfl⟩ := List.mem_map.mp hterm
    exact h.not_null row hrow original horiginal
  ordered term hterm := by
    obtain ⟨original, horiginal, rfl⟩ := List.mem_map.mp hterm
    exact h.ordered original horiginal
  distinct := by
    simpa [JoinPlan.directed, Function.comp_def] using h.distinct

/-- The terms a page is fetched by are those of the sort key, in the direction of the
walk; one row more than asked for is fetched. -/
theorem overSortKey_pageArguments (turn : Turn) {size : Nat} (hsize : size + 1 < countLimit)
    (cursor : Option String) (terms : List SortTerm) (table : String)
    {condition : Option Expression}
    (hseek : seekPast table (directed turn.isBackward terms) cursor = .ok condition) :
    overSortKey (turn.pageArguments size cursor) terms table =
      .ok {
        order := orderTerms table (directed turn.isBackward terms)
        limit := .count (size + 1)
        offset := none
        seek := condition } := by
  have hone (argument : String) : oneMore argument size = .ok (size + 1) := if_pos hsize
  cases turn with
  | forward =>
      change seekPast table (directed false terms) cursor = .ok condition at hseek
      simp only [overSortKey, Turn.pageArguments, Option.isSome_none, hone, hseek, bind,
        Except.bind]
      rfl
  | backward =>
      change seekPast table (directed true terms) cursor = .ok condition at hseek
      simp only [overSortKey, Turn.pageArguments, Option.isSome_some, hone, hseek, bind,
        Except.bind]
      rfl

end JoinPlan.Paging
