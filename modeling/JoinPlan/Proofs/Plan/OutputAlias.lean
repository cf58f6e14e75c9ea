import JoinPlan.Plan.Shape
import Mathlib.Data.List.Infix

/-!
# Output aliases can be read back

An output alias is the aliases of the tables on the way to a column, each followed
by two underscores, and the column's own.  If no alias holds two underscores in a
row, and no table's ends in one, the first two underscores end the first alias, so
the whole path can be read back.
-/

namespace JoinPlan.Plan

/-- What stands behind every table of a path. -/
def divider : List Char := ['_', '_']

def Undivided (text : List Char) : Prop := ¬ divider <:+: text

instance (text : List Char) : Decidable (Undivided text) := inferInstanceAs (Decidable (¬ _))

/-- A table alias whose end can be seen when a divider follows. -/
def ClearTable (aliasName : String) : Prop := Undivided (aliasName.toList ++ ['_'])

def ClearColumn (aliasName : String) : Prop := Undivided aliasName.toList

instance (aliasName : String) : Decidable (ClearTable aliasName) :=
  inferInstanceAs (Decidable (Undivided _))

instance (aliasName : String) : Decidable (ClearColumn aliasName) :=
  inferInstanceAs (Decidable (Undivided _))

theorem Undivided.tail {c : Char} {text : List Char} (h : Undivided (c :: text)) :
    Undivided text := fun hinfix => h (List.infix_cons_iff.mpr (Or.inr hinfix))

theorem not_undivided_append (before after : List Char) :
    ¬ Undivided (before ++ divider ++ after) := by
  intro h
  exact h ⟨before, after, rfl⟩

theorem undivided_of_underscore_notMem {text : List Char} (h : '_' ∉ text) : Undivided text := by
  rintro ⟨before, after, rfl⟩
  simp [divider] at h

theorem ClearColumn.of_underscore_notMem {aliasName : String} (h : '_' ∉ aliasName.toList) :
    ClearColumn aliasName := undivided_of_underscore_notMem h

theorem ClearTable.of_underscore_notMem {aliasName : String} (h : '_' ∉ aliasName.toList) :
    ClearTable aliasName := by
  rintro ⟨before, after, heq⟩
  have hcount := congrArg (List.count '_') heq
  rw [List.count_append, List.count_append, List.count_append, List.count_eq_zero.mpr h,
    show List.count '_' divider = 2 from rfl, show List.count '_' ['_'] = 1 from rfl] at hcount
  omega

/-- The first divider ends the first word. -/
theorem append_divider_injective {left right : List Char} {tail other : List Char}
    (hleft : Undivided (left ++ ['_'])) (hright : Undivided (right ++ ['_']))
    (heq : left ++ divider ++ tail = right ++ divider ++ other) :
    left = right ∧ tail = other := by
  induction left generalizing right with
  | nil =>
      cases right with
      | nil => simpa [divider] using heq
      | cons c rest =>
          exfalso
          cases rest with
          | nil =>
              simp only [divider, List.nil_append, List.cons_append, List.cons.injEq] at heq
              exact not_undivided_append [] [] (by simpa [divider, ← heq.1] using hright)
          | cons d rest =>
              simp only [divider, List.nil_append, List.cons_append, List.cons.injEq] at heq
              apply not_undivided_append [] (rest ++ ['_'])
              simpa [divider, ← heq.1, ← heq.2.1] using hright
  | cons c left ih =>
      cases right with
      | nil =>
          exfalso
          cases left with
          | nil =>
              simp only [divider, List.nil_append, List.cons_append, List.cons.injEq] at heq
              exact not_undivided_append [] [] (by simpa [divider, heq.1] using hleft)
          | cons d left =>
              simp only [divider, List.nil_append, List.cons_append, List.cons.injEq] at heq
              apply not_undivided_append [] (left ++ ['_'])
              simpa [divider, heq.1, heq.2.1] using hleft
      | cons d right =>
          rw [List.cons_append, List.cons_append, List.cons_append, List.cons_append,
            List.cons.injEq] at heq
          obtain ⟨rfl, heq⟩ := heq
          obtain ⟨rfl, htail⟩ := ih hleft.tail hright.tail heq
          exact ⟨rfl, htail⟩

/-- The text of the aliases on the way to a column. -/
def wayText (way : List String) : List Char :=
  way.flatMap fun aliasName => aliasName.toList ++ divider

theorem toList_outputAlias (path : List String) (aliasName : String) :
    (outputAlias path aliasName).toList = wayText (path.drop 1) ++ aliasName.toList := by
  have hdivider : "__".toList = divider := by decide
  rw [outputAlias, pathText, String.toList_append, String.toList_join, List.flatMap_map, wayText]
  congr 1
  apply List.flatMap_congr
  intro word hword
  rw [String.toList_append, hdivider]

theorem wayText_append_injective {first second : List String} {left right : List Char}
    (hfirst : ∀ aliasName ∈ first, ClearTable aliasName)
    (hsecond : ∀ aliasName ∈ second, ClearTable aliasName)
    (hleft : Undivided left) (hright : Undivided right)
    (heq : wayText first ++ left = wayText second ++ right) : first = second ∧ left = right := by
  induction first generalizing second with
  | nil =>
      cases second with
      | nil => exact ⟨rfl, heq⟩
      | cons word rest =>
          have hword : left = word.toList ++ divider ++ (wayText rest ++ right) := by
            simpa [wayText] using heq
          exact absurd (hword ▸ hleft) (not_undivided_append _ _)
  | cons word first ih =>
      cases second with
      | nil =>
          have hword : right = word.toList ++ divider ++ (wayText first ++ left) := by
            simpa [wayText] using heq.symm
          exact absurd (hword ▸ hright) (not_undivided_append _ _)
      | cons other second =>
          rw [List.forall_mem_cons] at hfirst hsecond
          have hsplit : word.toList ++ divider ++ (wayText first ++ left) =
              other.toList ++ divider ++ (wayText second ++ right) := by
            simpa [wayText] using heq
          obtain ⟨hword, hrest⟩ := append_divider_injective hfirst.1 hsecond.1 hsplit
          obtain ⟨rfl, hcolumn⟩ := ih hfirst.2 hsecond.2 hrest
          exact ⟨by rw [String.toList_inj.mp hword], hcolumn⟩

/-- An output alias determines the tables on the way, but for the first, and the
alias of the column. -/
theorem outputAlias_injective {first second : List String} {left right : String}
    (hfirst : ∀ aliasName ∈ first.drop 1, ClearTable aliasName)
    (hsecond : ∀ aliasName ∈ second.drop 1, ClearTable aliasName)
    (hleft : ClearColumn left) (hright : ClearColumn right)
    (heq : outputAlias first left = outputAlias second right) :
    first.drop 1 = second.drop 1 ∧ left = right := by
  have hchars := congrArg String.toList heq
  rw [toList_outputAlias, toList_outputAlias] at hchars
  obtain ⟨hway, hcolumn⟩ := wayText_append_injective hfirst hsecond hleft hright hchars
  exact ⟨hway, String.toList_inj.mp hcolumn⟩

end JoinPlan.Plan
