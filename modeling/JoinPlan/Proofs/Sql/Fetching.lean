import JoinPlan.Paging
import Mathlib.Data.List.Sort

/-!
# What a page fetches

The meaning of the clauses of a page, as far as they speak of the columns of one
row: the rows the condition holds of, in the order of the terms, cut at the limit.
How the values of a column compare is the database's choice, so it is a parameter.
Null compares with nothing; a condition that is neither true nor false of a row
leaves the row out, which a condition without negation cannot tell from false.
-/

namespace JoinPlan.Sql

/-- Whether one value of a column sorts before another. -/
abbrev Collation := String → Json → Json → Bool

def Comparison.holds (before : Json → Json → Bool) : Comparison → Json → Json → Bool
  | .equal, left, right => !before left right && !before right left
  | .greater, left, right => before right left
  | .less, left, right => before left right

/-- Whether a condition holds of a row; none if it speaks of anything but the row's
own columns. -/
def Expression.holds? (collation : Collation) (row : Json) : Expression → Option Bool
  | .and left right => do
      let left ← left.holds? collation row
      let right ← right.holds? collation row
      some (left && right)
  | .or left right => do
      let left ← left.holds? collation row
      let right ← right.holds? collation row
      some (left || right)
  | .compare comparison (.column _ name) (.value literal) =>
      some (!(row.getD name).isNull && !literal.isNull &&
        comparison.holds (collation name) (row.getD name) literal)
  | .value (.bool truth) => some truth
  | _ => none

end Sql

def Direction.before (direction : Direction) (before : Json → Json → Bool) (first second : Json) :
    Bool :=
  match direction with
  | .ascending => before first second
  | .descending => before second first

@[simp]
theorem Direction.before_flip (direction : Direction) (before : Json → Json → Bool)
    (first second : Json) :
    direction.flip.before before first second = direction.before before second first := by
  cases direction <;> rfl

namespace Sql

/-- Whether a row sorts before another: by the first term, and among equal values
by the others.  A term that is not a column sorts nothing. -/
def sortsBefore (collation : Collation) : List OrderTerm → Json → Json → Bool
  | [], _, _ => false
  | ⟨.column _ name, direction⟩ :: rest, first, second =>
      direction.before (collation name) (first.getD name) (second.getD name) ||
        (Comparison.equal.holds (collation name) (first.getD name) (second.getD name) &&
          sortsBefore collation rest first second)
  | _ :: rest, first, second => sortsBefore collation rest first second

/-- The rows in order; those that sort alike keep their places. -/
def sortRows (before : Json → Json → Bool) (rows : List Json) : List Json :=
  rows.mergeSort fun first second => !before second first

def RowLimit.cut : RowLimit → List Json → List Json
  | .count rows => List.take rows
  | .unlimited => id

end Sql

/-- The rows of a table that a page fetches. -/
def PageParameters.fetch (parameters : PageParameters) (collation : Sql.Collation)
    (table : List Json) : List Json :=
  let found := table.filter fun row =>
    parameters.seek.all fun condition => condition.holds? collation row == some true
  let sorted := Sql.sortRows (Sql.sortsBefore collation parameters.order) found
  parameters.limit.cut (sorted.drop (parameters.offset.getD 0))

namespace Sql

/-! ### Sorting by a strict order -/

section StrictOrder

variable {before : Json → Json → Bool} {rows listed : List Json}

/-- The rows are strictly and totally ordered. -/
structure StrictlyOrders (before : Json → Json → Bool) (rows : List Json) : Prop where
  irrefl : ∀ row ∈ rows, before row row = false
  trans : ∀ first ∈ rows, ∀ second ∈ rows, ∀ third ∈ rows,
    before first second = true → before second third = true → before first third = true
  total : ∀ first ∈ rows, ∀ second ∈ rows, first ≠ second →
    before first second = true ∨ before second first = true

namespace StrictlyOrders

theorem asymm (h : StrictlyOrders before rows) {first second : Json} (hfirst : first ∈ rows)
    (hsecond : second ∈ rows) (hbefore : before first second = true) :
    before second first = false := by
  apply Bool.eq_false_iff.mpr
  intro hafter
  have hloop := h.trans first hfirst second hsecond first hfirst hbefore hafter
  rw [h.irrefl first hfirst] at hloop
  contradiction

theorem mono (h : StrictlyOrders before rows) (hsub : ∀ row ∈ listed, row ∈ rows) :
    StrictlyOrders before listed where
  irrefl row hrow := h.irrefl row (hsub row hrow)
  trans first hfirst second hsecond third hthird :=
    h.trans first (hsub first hfirst) second (hsub second hsecond) third (hsub third hthird)
  total first hfirst second hsecond := h.total first (hsub first hfirst) second
    (hsub second hsecond)

theorem swap (h : StrictlyOrders before rows) :
    StrictlyOrders (fun first second => before second first) rows where
  irrefl := h.irrefl
  trans first hfirst second hsecond third hthird hbefore hafter :=
    h.trans third hthird second hsecond first hfirst hafter hbefore
  total first hfirst second hsecond hne := (h.total first hfirst second hsecond hne).symm

theorem not_before_iff (h : StrictlyOrders before rows) {first second : Json}
    (hfirst : first ∈ rows) (hsecond : second ∈ rows) :
    before second first = false ↔ first = second ∨ before first second = true := by
  constructor
  · intro hnot
    by_cases heq : first = second
    · exact Or.inl heq
    · rcases h.total first hfirst second hsecond heq with hbefore | hafter
      · exact Or.inr hbefore
      · rw [hnot] at hafter
        contradiction
  · rintro (rfl | hbefore)
    · exact h.irrefl first hfirst
    · exact h.asymm hfirst hsecond hbefore

end StrictlyOrders

private theorem pairwise_mergeSort_of_mem {le : Json → Json → Bool}
    (htrans : ∀ first ∈ rows, ∀ second ∈ rows, ∀ third ∈ rows,
      le first second = true → le second third = true → le first third = true)
    (htotal : ∀ first ∈ rows, ∀ second ∈ rows, (le first second || le second first) = true) :
    (rows.mergeSort le).Pairwise fun first second => le first second = true := by
  -- sorting the rows together with the proofs that they are rows
  have hattach : (rows.attach.mergeSort fun first second => le first.1 second.1).map Subtype.val =
      rows.mergeSort le := by
    rw [List.map_mergeSort (s := le) fun _ _ _ _ => rfl, List.attach_map_subtype_val]
  rw [← hattach, List.pairwise_map]
  apply List.pairwise_mergeSort
  · intro first second third
    exact htrans first.1 first.2 second.1 second.2 third.1 third.2
  · intro first second
    exact htotal first.1 first.2 second.1 second.2

theorem perm_sortRows (before : Json → Json → Bool) (rows : List Json) :
    (sortRows before rows).Perm rows :=
  List.mergeSort_perm _ _

theorem pairwise_sortRows (h : StrictlyOrders before rows) (hnodup : rows.Nodup) :
    (sortRows before rows).Pairwise fun first second => before first second = true := by
  have hsorted : (sortRows before rows).Pairwise
      fun first second => (!before second first) = true := by
    apply pairwise_mergeSort_of_mem
    · intro first hfirst second hsecond third hthird hle hle'
      simp only [Bool.not_eq_true', h.not_before_iff hfirst hsecond,
        h.not_before_iff hsecond hthird, h.not_before_iff hfirst hthird] at hle hle' ⊢
      rcases hle with rfl | hbefore
      · exact hle'
      · rcases hle' with rfl | hbefore'
        · exact Or.inr hbefore
        · exact Or.inr (h.trans first hfirst second hsecond third hthird hbefore hbefore')
    · intro first hfirst second hsecond
      by_cases hbefore : before second first = true
      · simp [h.asymm hsecond hfirst hbefore]
      · simp [hbefore]
  have hdistinct : (sortRows before rows).Nodup := (perm_sortRows before rows).nodup_iff.mpr hnodup
  apply (hsorted.and hdistinct).imp_of_mem
  intro first second hfirst hsecond hpair
  have hperm := perm_sortRows before rows
  have hnot := hpair.1
  rw [Bool.not_eq_true',
    h.not_before_iff (hperm.mem_iff.mp hfirst) (hperm.mem_iff.mp hsecond)] at hnot
  exact hnot.resolve_left hpair.2

/-- Rows are in order in one way only. -/
theorem eq_of_perm_of_pairwise {other : List Json} (h : StrictlyOrders before rows)
    (hperm : listed.Perm rows) (hother : other.Perm rows)
    (hlisted : listed.Pairwise fun first second => before first second = true)
    (hsorted : other.Pairwise fun first second => before first second = true) :
    listed = other := by
  apply List.Perm.eq_of_pairwise _ hlisted hsorted (hperm.trans hother.symm)
  intro first second hfirst hsecond hbefore hafter
  rw [h.asymm (hperm.mem_iff.mp hfirst) (hother.mem_iff.mp hsecond) hbefore] at hafter
  contradiction

theorem sortRows_eq (h : StrictlyOrders before rows) (hperm : listed.Perm rows)
    (hlisted : listed.Pairwise fun first second => before first second = true) :
    sortRows before rows = listed := by
  have hnodup : rows.Nodup := by
    apply hperm.nodup_iff.mp
    apply hlisted.imp_of_mem
    rintro first _ hfirst _ hbefore rfl
    rw [h.irrefl first (hperm.mem_iff.mp hfirst)] at hbefore
    contradiction
  exact eq_of_perm_of_pairwise h (perm_sortRows before rows) hperm
    (pairwise_sortRows h hnodup) hlisted

end StrictOrder

end Sql

end JoinPlan
