import JoinPlan.Plan.Selecting

/-!
# Fields as they are selected

On an object type the fragments that apply only group selections: what is selected is the
fields in them, one after the other.  The fields are listed here with all fragments opened,
and compiling the selections is compiling the fields of the list in turn.
-/

namespace JoinPlan.Plan

/-- A field where it is selected, and how deep fragments are followed below it. -/
structure Occurrence where
  name : String
  args : Arguments
  selections : List Selection
  depth : Nat

mutual

/-- The fields among selections, given those below a spread; none when a fragment is not
defined. -/
def occurrencesAmong (applies : Option String → Bool) (depth : Nat)
    (spread : String → Option (List Occurrence)) : List Selection → Option (List Occurrence)
  | [] => some []
  | selection :: rest => do
      let first ← occurrencesAt applies depth spread selection
      let others ← occurrencesAmong applies depth spread rest
      some (first ++ others)

def occurrencesAt (applies : Option String → Bool) (depth : Nat)
    (spread : String → Option (List Occurrence)) : Selection → Option (List Occurrence)
  | .field name args selections => some [⟨name, args, selections, depth⟩]
  | .inline condition selections =>
      if applies condition then occurrencesAmong applies depth spread selections else some []
  | .spread fragment => spread fragment

end

/-- The fields below a spread; fragments are followed so deep. -/
def occurrencesBelow (fragments : Fragments) (applies : Option String → Bool) :
    Nat → String → Option (List Occurrence)
  | 0, _ => none
  | depth + 1, name => do
      let fragment ← fragments.named? name
      if applies (some fragment.condition) then
        occurrencesAmong applies depth (occurrencesBelow fragments applies depth)
          fragment.selections
      else some []

/-- The fields that selections on an object type stand for. -/
def occurrences? (fragments : Fragments) (scope : Scope) (depth : Nat)
    (selections : List Selection) : Option (List Occurrence) :=
  occurrencesAmong scope.matches depth (occurrencesBelow fragments scope.matches depth) selections

section Select

variable {env : Environment} {fragments : Fragments} {scope : Scope}

/-- Compiles one field into the children of a table. -/
def selectField (env : Environment) (fragments : Fragments) (scope : Scope)
    (children : Children) (occurrence : Occurrence) : Compile Children :=
  selectOne env fragments (selectSpread env fragments occurrence.depth) .rows scope none
    (.field occurrence.name occurrence.args occurrence.selections) children

theorem inlineScope_rows (hkind : scope.type.kind = .object) (condition : Option String) :
    inlineScope env.schema .rows scope none condition =
      .ok (if scope.matches condition then some (scope, none) else none) := by
  rw [inlineScope, rowsScope, if_pos hkind]

theorem spreadScope_rows (hkind : scope.type.kind = .object) (condition : String) :
    spreadScope env.schema .rows scope none condition =
      .ok (if scope.matches (some condition) then some (scope, none) else none) := by
  rw [spreadScope, rowsScope, if_pos hkind]

mutual

theorem select_eq_foldlM (hkind : scope.type.kind = .object) {depth : Nat}
    {spread : String → Option (List Occurrence)}
    (hspread : ∀ name listed, spread name = some listed → ∀ children,
      selectSpread env fragments depth .rows scope none name children =
        listed.foldlM (selectField env fragments scope) children) :
    ∀ (selections : List Selection) (listed : List Occurrence),
      occurrencesAmong scope.matches depth spread selections = some listed → ∀ children,
        select env fragments (selectSpread env fragments depth) .rows scope none selections
          children = listed.foldlM (selectField env fragments scope) children
  | [], listed, h, children => by
      obtain rfl := Option.some.inj h
      rfl
  | selection :: rest, listed, h, children => by
      rw [occurrencesAmong] at h
      obtain ⟨first, hfirst, h⟩ := Option.bind_eq_some_iff.mp h
      obtain ⟨others, hothers, h⟩ := Option.bind_eq_some_iff.mp h
      obtain rfl := Option.some.inj h
      rw [select, List.foldlM_append, selectOne_eq_foldlM hkind hspread selection first hfirst]
      congr 1
      funext between
      exact select_eq_foldlM hkind hspread rest others hothers between

theorem selectOne_eq_foldlM (hkind : scope.type.kind = .object) {depth : Nat}
    {spread : String → Option (List Occurrence)}
    (hspread : ∀ name listed, spread name = some listed → ∀ children,
      selectSpread env fragments depth .rows scope none name children =
        listed.foldlM (selectField env fragments scope) children) :
    ∀ (selection : Selection) (listed : List Occurrence),
      occurrencesAt scope.matches depth spread selection = some listed → ∀ children,
        selectOne env fragments (selectSpread env fragments depth) .rows scope none selection
          children = listed.foldlM (selectField env fragments scope) children
  | .field name args selections, listed, h, children => by
      obtain rfl := Option.some.inj h
      rw [List.foldlM_cons, selectField]
      exact (bind_pure _).symm
  | .inline condition selections, listed, h, children => by
      rw [occurrencesAt] at h
      rw [selectOne, inlineScope_rows hkind]
      cases hmatches : scope.matches condition with
      | true =>
          rw [hmatches, if_pos rfl] at h
          exact select_eq_foldlM hkind hspread selections listed h children
      | false =>
          rw [hmatches, if_neg Bool.false_ne_true] at h
          obtain rfl := Option.some.inj h
          rfl
  | .spread fragment, listed, h, children => hspread fragment listed h children

end

theorem selectSpread_eq_foldlM (hkind : scope.type.kind = .object) (depth : Nat) :
    ∀ name listed, occurrencesBelow fragments scope.matches depth name = some listed →
      ∀ children, selectSpread env fragments depth .rows scope none name children =
        listed.foldlM (selectField env fragments scope) children := by
  induction depth with
  | zero =>
      intro name listed h
      cases h
  | succ depth ih =>
      intro name listed h children
      rw [occurrencesBelow] at h
      obtain ⟨fragment, hfragment, h⟩ := Option.bind_eq_some_iff.mp h
      rw [selectSpread, hfragment]
      simp only
      rw [spreadScope_rows hkind]
      cases hmatches : scope.matches (some fragment.condition) with
      | true =>
          rw [hmatches, if_pos rfl] at h
          exact select_eq_foldlM hkind ih fragment.selections listed h children
      | false =>
          rw [hmatches, if_neg Bool.false_ne_true] at h
          obtain rfl := Option.some.inj h
          rfl

/-- Compiling selections on an object type is compiling the fields in them. -/
theorem select_occurrences (hkind : scope.type.kind = .object) {depth : Nat}
    {selections : List Selection} {listed : List Occurrence}
    (h : occurrences? fragments scope depth selections = some listed) (children : Children) :
    select env fragments (selectSpread env fragments depth) .rows scope none selections children =
      listed.foldlM (selectField env fragments scope) children :=
  select_eq_foldlM hkind (selectSpread_eq_foldlM hkind depth) selections listed h children

end Select

end JoinPlan.Plan
