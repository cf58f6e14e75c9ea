import JoinPlan.Proofs.Paging.AcceptedPage

/-!
# Before a cursor, at it or past it

In the lexicographic order of a sort key a row comes after another if it is past it in the
column of one term and has its values in the columns of all terms before.  The condition of
being past a cursor is true of exactly the rows after it, and the condition for the terms
turned around of exactly those before.  So every row is found by one of the two, unless it
has the values of the cursor.
-/

namespace JoinPlan.Paging

open Sql

variable {collation : Collation} {terms rest : List SortTerm} {term : SortTerm}
  {earlier later : Json}

/-- The rows have the same values in the columns of the terms. -/
def SameKey (terms : List SortTerm) (first second : Json) : Prop :=
  ∀ term ∈ terms, first.getD term.column = second.getD term.column

/-- A row comes after another in the lexicographic order of the terms. -/
def ComesAfter (collation : Collation) (terms : List SortTerm) (earlier later : Json) : Prop :=
  ∃ before term after, terms = before ++ term :: after ∧ SameKey before earlier later ∧
    term.direction.before (collation term.column) (earlier.getD term.column)
      (later.getD term.column) = true

/-- Two rows that the columns of the terms put in order: they have no nulls there, and the
order of each column tells their two values apart. -/
structure Comparable (collation : Collation) (terms : List SortTerm) (first second : Json) :
    Prop where
  first_ne_null : ∀ term ∈ terms, first.getD term.column ≠ .null
  second_ne_null : ∀ term ∈ terms, second.getD term.column ≠ .null
  ordered : ∀ term ∈ terms, StrictlyOrders (collation term.column)
    [first.getD term.column, second.getD term.column]

namespace Comparable

variable {first second : Json}

theorem tail (h : Comparable collation (term :: rest) first second) :
    Comparable collation rest first second where
  first_ne_null other hother := h.first_ne_null other (List.mem_cons_of_mem _ hother)
  second_ne_null other hother := h.second_ne_null other (List.mem_cons_of_mem _ hother)
  ordered other hother := h.ordered other (List.mem_cons_of_mem _ hother)

theorem directed (h : Comparable collation terms first second) (backwards : Bool) :
    Comparable collation (directed backwards terms) first second where
  first_ne_null term hterm := by
    obtain ⟨original, horiginal, rfl⟩ := List.mem_map.mp hterm
    exact h.first_ne_null original horiginal
  second_ne_null term hterm := by
    obtain ⟨original, horiginal, rfl⟩ := List.mem_map.mp hterm
    exact h.second_ne_null original horiginal
  ordered term hterm := by
    obtain ⟨original, horiginal, rfl⟩ := List.mem_map.mp hterm
    exact h.ordered original horiginal

end Comparable

theorem sameKey_nil (first second : Json) : SameKey [] first second := by simp [SameKey]

theorem sameKey_cons {first second : Json} : SameKey (term :: rest) first second ↔
    first.getD term.column = second.getD term.column ∧ SameKey rest first second :=
  List.forall_mem_cons

theorem not_comesAfter_nil : ¬ ComesAfter collation [] earlier later := by
  rintro ⟨before, term, after, hsplit, -⟩
  simp at hsplit

theorem comesAfter_cons : ComesAfter collation (term :: rest) earlier later ↔
    term.direction.before (collation term.column) (earlier.getD term.column)
        (later.getD term.column) = true ∨
      earlier.getD term.column = later.getD term.column ∧
        ComesAfter collation rest earlier later := by
  constructor
  · rintro ⟨before, decisive, after, hsplit, hsame, hpast⟩
    rcases List.cons_eq_append_iff.mp hsplit with ⟨rfl, hterms⟩ | ⟨others, rfl, rfl⟩
    · obtain ⟨rfl, rfl⟩ := List.cons.inj hterms
      exact Or.inl hpast
    · obtain ⟨hterm, hothers⟩ := sameKey_cons.mp hsame
      exact Or.inr ⟨hterm, others, decisive, after, rfl, hothers, hpast⟩
  · rintro (hpast | ⟨hterm, before, decisive, after, rfl, hsame, hpast⟩)
    · exact ⟨[], term, rest, rfl, sameKey_nil _ _, hpast⟩
    · exact ⟨term :: before, decisive, after, rfl, sameKey_cons.mpr ⟨hterm, hsame⟩, hpast⟩

/-- The order that rows are sorted in is the lexicographic one. -/
theorem keyBefore_iff_comesAfter (h : Comparable collation terms earlier later) :
    keyBefore collation terms earlier later = true ↔
      ComesAfter collation terms earlier later := by
  induction terms with
  | nil => simp [keyBefore, not_comesAfter_nil]
  | cons term rest ih =>
      have hterm : StrictlyOrders (collation term.column)
          ([earlier, later].map fun row => row.getD term.column) :=
        h.ordered term List.mem_cons_self
      rw [keyBefore_cons_iff hterm (by simp) (by simp), ih h.tail, comesAfter_cons]

/-- Exactly one of three statements holds. -/
def ExactlyOne (first second third : Prop) : Prop :=
  (first ∨ second ∨ third) ∧ ¬ (first ∧ second) ∧ ¬ (first ∧ third) ∧ ¬ (second ∧ third)

/-- A row has the key of another, or one of them comes after the other. -/
theorem comesAfter_trichotomy {first second : Json}
    (h : Comparable collation terms first second) :
    ExactlyOne (SameKey terms first second) (ComesAfter collation terms first second)
      (ComesAfter collation terms second first) := by
  induction terms with
  | nil => simp [ExactlyOne, sameKey_nil, not_comesAfter_nil]
  | cons term rest ih =>
      have hdirection :=
        strictlyOrders_direction (h.ordered term List.mem_cons_self) term.direction
      have hfirst : first.getD term.column ∈
          [first.getD term.column, second.getD term.column] := by simp
      have hsecond : second.getD term.column ∈
          [first.getD term.column, second.getD term.column] := by simp
      rw [sameKey_cons, comesAfter_cons, comesAfter_cons]
      by_cases heq : first.getD term.column = second.getD term.column
      · simpa [heq, hdirection.irrefl _ hsecond] using ih h.tail
      · have hne := Ne.symm heq
        rcases hdirection.total _ hfirst _ hsecond heq with hpast | hpast
        · simp [ExactlyOne, heq, hne, hpast, hdirection.asymm hfirst hsecond hpast]
        · simp [ExactlyOne, heq, hne, hpast, hdirection.asymm hsecond hfirst hpast]

/-- Turning the terms around turns the order around. -/
theorem comesAfter_directed_true : ComesAfter collation (directed true terms) earlier later ↔
    ComesAfter collation terms later earlier := by
  induction terms with
  | nil => exact iff_of_false not_comesAfter_nil not_comesAfter_nil
  | cons term rest ih =>
      have hcons : directed true (term :: rest) =
          { term with direction := term.direction.flip } :: directed true rest := rfl
      rw [hcons, comesAfter_cons, comesAfter_cons, ih, Direction.before_flip,
        eq_comm (a := earlier.getD term.column)]

theorem holds?_seek_iff (hne : terms ≠ []) (table : String) {values : Object} {row : Json}
    (h : Comparable collation terms (.object values) row) :
    (seek table values terms).holds? collation row = some true ↔
      ComesAfter collation terms (.object values) row := by
  rw [holds?_seek_object collation table values hne h.second_ne_null,
    keyPast_eq_keyBefore h.first_ne_null, Option.some.injEq, keyBefore_iff_comesAfter h]

/-- The condition of being past a cursor is true of exactly the rows that come after it in
the lexicographic order of the sort key.  Every row has the values of the cursor, or that
condition is true of it, or the one for the terms turned around is. -/
theorem seek_trichotomy (hne : terms ≠ []) (table : String) {values : Object} {row : Json}
    (h : Comparable collation terms (.object values) row) :
    ((seek table values terms).holds? collation row = some true ↔
      ComesAfter collation terms (.object values) row) ∧
    ExactlyOne (SameKey terms (.object values) row)
      ((seek table values terms).holds? collation row = some true)
      ((seek table values (directed true terms)).holds? collation row = some true) := by
  have hturned : directed true terms ≠ [] := by simpa [directed] using hne
  have hpast := holds?_seek_iff hne table h
  have hbefore := holds?_seek_iff hturned table (h.directed true)
  rw [comesAfter_directed_true] at hbefore
  refine ⟨hpast, ?_⟩
  rw [hpast, hbefore]
  exact comesAfter_trichotomy h

/-- A post as often liked as the cursor's is past it by its number alone. -/
theorem seek_trichotomy_posts :
    ((seek "posts" [("id", .number (.int 2)), ("likes", .number (.int 3))] mostLiked).holds?
        numerically (post 3 3) = some true ↔
      ComesAfter numerically mostLiked (post 2 3) (post 3 3)) ∧
    ExactlyOne (SameKey mostLiked (post 2 3) (post 3 3))
      ((seek "posts" [("id", .number (.int 2)), ("likes", .number (.int 3))] mostLiked).holds?
        numerically (post 3 3) = some true)
      ((seek "posts" [("id", .number (.int 2)), ("likes", .number (.int 3))]
        (directed true mostLiked)).holds? numerically (post 3 3) = some true) := by
  have hterms {holds : SortTerm → Prop} (hlikes : holds ⟨"likes", .descending⟩)
      (hid : holds ⟨"id", .ascending⟩) : ∀ term ∈ mostLiked, holds term :=
    List.forall_mem_cons.mpr ⟨hlikes, List.forall_mem_singleton.mpr hid⟩
  have hne (id : Int) : ∀ term ∈ mostLiked, (post id 3).getD term.column ≠ .null :=
    hterms (by simp [post, Json.getD, Json.get?, Assoc.get?])
      (by simp [post, Json.getD, Json.get?, Assoc.get?])
  exact seek_trichotomy (by simp [mostLiked]) "posts"
    ⟨hne 2, hne 3, hterms (strictlyOrders_numerically "likes" [3, 3])
      (strictlyOrders_numerically "id" [2, 3])⟩

end JoinPlan.Paging
