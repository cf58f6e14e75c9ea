import JoinPlan.Proofs.Sql.Fetching

/-!
# Seeking past a row

On a table whose rows can be told apart by their sort keys, the key order is strict
and total, and the condition of being past a cursor holds of exactly the rows after
the row the cursor was made of.  The induction is over the terms of the sort key,
as that condition is built.
-/

namespace JoinPlan.Paging

open Sql

/-- Whether a row comes before another in the order of a sort key. -/
def keyBefore (collation : Collation) : List SortTerm → Json → Json → Bool
  | [], _, _ => false
  | term :: rest, first, second =>
      term.direction.before (collation term.column) (first.getD term.column)
          (second.getD term.column) ||
        (Comparison.equal.holds (collation term.column) (first.getD term.column)
            (second.getD term.column) &&
          keyBefore collation rest first second)

theorem sortsBefore_orderTerms (collation : Collation) (table : String) (terms : List SortTerm) :
    sortsBefore collation (orderTerms table terms) = keyBefore collation terms := by
  funext first second
  induction terms with
  | nil => rfl
  | cons term rest ih =>
      rw [orderTerms, List.map_cons, sortsBefore, keyBefore, ← ih]
      rfl

theorem equal_holds_comm (before : Json → Json → Bool) (left right : Json) :
    Comparison.equal.holds before left right = Comparison.equal.holds before right left :=
  Bool.and_comm _ _

/-- Paging backwards turns the order around. -/
theorem keyBefore_directed_true (collation : Collation) (terms : List SortTerm) :
    keyBefore collation (directed true terms) =
      fun first second => keyBefore collation terms second first := by
  funext first second
  induction terms with
  | nil => rfl
  | cons term rest ih =>
      rw [directed, List.map_cons, keyBefore, keyBefore, ← ih, equal_holds_comm]
      simp [directed]

/-! ### Tables with a sort key -/

/-- The sort key tells the rows apart and puts them in order: no value of it is null,
the values of each column are ordered, and no two rows have all values in common. -/
structure Keyed (collation : Collation) (terms : List SortTerm) (rows : List Json) : Prop where
  not_null : ∀ row ∈ rows, ∀ term ∈ terms, row.getD term.column ≠ .null
  ordered : ∀ term ∈ terms,
    StrictlyOrders (collation term.column) (rows.map fun row => row.getD term.column)
  distinct : (rows.map fun row => terms.map fun term => row.getD term.column).Nodup

variable {collation : Collation} {terms : List SortTerm} {rows : List Json}

theorem strictlyOrders_direction {before : Json → Json → Bool} {values : List Json}
    (h : StrictlyOrders before values) (direction : Direction) :
    StrictlyOrders (direction.before before) values := by
  cases direction with
  | ascending => exact h
  | descending => exact h.swap

theorem equal_holds_iff {before : Json → Json → Bool} {values : List Json}
    (h : StrictlyOrders before values) {left right : Json} (hleft : left ∈ values)
    (hright : right ∈ values) :
    Comparison.equal.holds before left right = true ↔ left = right := by
  constructor
  · intro hequal
    rw [Comparison.holds, Bool.and_eq_true, Bool.not_eq_true', Bool.not_eq_true'] at hequal
    have hcases := (h.not_before_iff hright hleft).mp hequal.1
    rw [hequal.2] at hcases
    rcases hcases with heq | hfalse
    · exact heq.symm
    · contradiction
  · rintro rfl
    simp [Comparison.holds, h.irrefl left hleft]

section KeyOrder

variable {term : SortTerm} {rest : List SortTerm} {first second third : Json}

theorem keyBefore_cons_iff
    (h : StrictlyOrders (collation term.column) (rows.map fun row => row.getD term.column))
    (hfirst : first ∈ rows) (hsecond : second ∈ rows) :
    keyBefore collation (term :: rest) first second = true ↔
      term.direction.before (collation term.column) (first.getD term.column)
          (second.getD term.column) = true ∨
        first.getD term.column = second.getD term.column ∧
          keyBefore collation rest first second = true := by
  rw [keyBefore, Bool.or_eq_true, Bool.and_eq_true,
    equal_holds_iff h (List.mem_map_of_mem hfirst) (List.mem_map_of_mem hsecond)]

theorem keyBefore_irrefl
    (h : ∀ term ∈ terms,
      StrictlyOrders (collation term.column) (rows.map fun row => row.getD term.column))
    {row : Json} (hrow : row ∈ rows) : keyBefore collation terms row row = false := by
  induction terms with
  | nil => rfl
  | cons term rest ih =>
      have hterm := h term List.mem_cons_self
      have hdirection := (strictlyOrders_direction hterm term.direction).irrefl _
        (List.mem_map_of_mem hrow)
      rw [keyBefore, hdirection, ih fun other hother => h other (List.mem_cons_of_mem _ hother)]
      simp

theorem keyBefore_trans
    (h : ∀ term ∈ terms,
      StrictlyOrders (collation term.column) (rows.map fun row => row.getD term.column))
    (hfirst : first ∈ rows) (hsecond : second ∈ rows) (hthird : third ∈ rows)
    (hbefore : keyBefore collation terms first second = true)
    (hafter : keyBefore collation terms second third = true) :
    keyBefore collation terms first third = true := by
  induction terms with
  | nil => contradiction
  | cons term rest ih =>
      have hterm := h term List.mem_cons_self
      rw [keyBefore_cons_iff hterm hfirst hsecond] at hbefore
      rw [keyBefore_cons_iff hterm hsecond hthird] at hafter
      rw [keyBefore_cons_iff hterm hfirst hthird]
      rcases hbefore with hless | ⟨heq, hless⟩
      · rcases hafter with hless' | ⟨heq', -⟩
        · exact Or.inl ((strictlyOrders_direction hterm term.direction).trans _
            (List.mem_map_of_mem hfirst) _ (List.mem_map_of_mem hsecond) _
            (List.mem_map_of_mem hthird) hless hless')
        · exact Or.inl (heq' ▸ hless)
      · rcases hafter with hless' | ⟨heq', hless'⟩
        · exact Or.inl (heq ▸ hless')
        · exact Or.inr ⟨heq.trans heq',
            ih (fun other hother => h other (List.mem_cons_of_mem _ hother)) hless hless'⟩

theorem keyBefore_total
    (h : ∀ term ∈ terms,
      StrictlyOrders (collation term.column) (rows.map fun row => row.getD term.column))
    (hfirst : first ∈ rows) (hsecond : second ∈ rows)
    (hne : (terms.map fun term => first.getD term.column) ≠
      terms.map fun term => second.getD term.column) :
    keyBefore collation terms first second = true ∨
      keyBefore collation terms second first = true := by
  induction terms with
  | nil => contradiction
  | cons term rest ih =>
      have hterm := h term List.mem_cons_self
      rw [keyBefore_cons_iff hterm hfirst hsecond, keyBefore_cons_iff hterm hsecond hfirst]
      by_cases heq : first.getD term.column = second.getD term.column
      · have hrest := ih (fun other hother => h other (List.mem_cons_of_mem _ hother))
          (by simpa [heq] using hne)
        exact hrest.imp (fun hless => Or.inr ⟨heq, hless⟩) fun hless => Or.inr ⟨heq.symm, hless⟩
      · have hdirection := (strictlyOrders_direction hterm term.direction).total _
          (List.mem_map_of_mem hfirst) _ (List.mem_map_of_mem hsecond) heq
        exact hdirection.imp Or.inl Or.inl

end KeyOrder

theorem Keyed.strictlyOrders (h : Keyed collation terms rows) :
    StrictlyOrders (keyBefore collation terms) rows where
  irrefl _ hrow := keyBefore_irrefl h.ordered hrow
  trans _ hfirst _ hsecond _ hthird hbefore hafter :=
    keyBefore_trans h.ordered hfirst hsecond hthird hbefore hafter
  total _ hfirst _ hsecond hne :=
    keyBefore_total h.ordered hfirst hsecond fun heq =>
      hne (List.inj_on_of_nodup_map h.distinct hfirst hsecond heq)

theorem Keyed.nodup (h : Keyed collation terms rows) : rows.Nodup :=
  List.Nodup.of_map _ h.distinct

/-! ### The condition of being past a cursor -/

theorem holds_past (direction : Direction) (before : Json → Json → Bool) (value cursor : Json) :
    (past direction).holds before value cursor = direction.before before cursor value := by
  cases direction <;> rfl

theorem not_isNull {value : Json} (h : value ≠ .null) : value.isNull = false := by
  cases value with
  | null => contradiction
  | _ => rfl

theorem holds?_compareColumn (collation : Collation) (table : String)
    (comparison : Comparison) {values : Object} {column : String} {row cursor : Json}
    (hvalue : Assoc.get? column values = some cursor) (hcursor : cursor ≠ .null)
    (hrow : row.getD column ≠ .null) :
    (compareColumn table values comparison column).holds? collation row =
      some (comparison.holds (collation column) (row.getD column) cursor) := by
  rw [compareColumn, hvalue, Option.getD_some, Expression.holds?, not_isNull hrow,
    not_isNull hcursor]
  rfl

/-- The rows past a cursor are those after the row it holds the key of. -/
theorem holds?_seek (collation : Collation) (table : String) {values : Object}
    {cursor row : Json} (hne : terms ≠ [])
    (hvalues : ∀ term ∈ terms,
      Assoc.get? term.column values = some (cursor.getD term.column))
    (hcursor : ∀ term ∈ terms, cursor.getD term.column ≠ .null)
    (hrow : ∀ term ∈ terms, row.getD term.column ≠ .null) :
    (seek table values terms).holds? collation row =
      some (keyBefore collation terms cursor row) := by
  induction terms with
  | nil => contradiction
  | cons term rest ih =>
      have hcompare (comparison : Comparison) := holds?_compareColumn collation table comparison
        (hvalues term List.mem_cons_self) (hcursor term List.mem_cons_self)
        (hrow term List.mem_cons_self)
      cases rest with
      | nil =>
          rw [seek, hcompare, holds_past, keyBefore, keyBefore, Bool.and_false, Bool.or_false]
      | cons next others =>
          have hrest := ih (by simp)
            (fun other hother => hvalues other (List.mem_cons_of_mem _ hother))
            (fun other hother => hcursor other (List.mem_cons_of_mem _ hother))
            (fun other hother => hrow other (List.mem_cons_of_mem _ hother))
          rw [seek, Expression.holds?, Expression.holds?, hcompare, hcompare, hrest, holds_past,
            equal_holds_comm, keyBefore]
          · rfl
          · simp

end JoinPlan.Paging
