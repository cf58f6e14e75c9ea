import Mathlib.Data.List.Forall2

/-!
# Actions that may fail

Two actions succeed in a row when both succeed, and fail when one of them does.  A list is
gone through item by item with success when the action succeeds on every item; the results
stand in the order of the items.
-/

namespace JoinPlan

/-! ### Actions with errors -/

section Errors

variable {ε α β : Type} {first : Except ε α} {next : α → Except ε β}

theorem ok_bind (value : α) (next : α → Except ε β) :
    (.ok value >>= next : Except ε β) = next value := rfl

theorem bind_eq_ok {result : β} :
    (first >>= next) = .ok result ↔ ∃ value, first = .ok value ∧ next value = .ok result := by
  cases first <;> simp [bind, Except.bind]

theorem bind_eq_error {error : ε} :
    (first >>= next) = .error error ↔
      first = .error error ∨ ∃ value, first = .ok value ∧ next value = .error error := by
  cases first <;> simp [bind, Except.bind]

theorem exists_bind_ok (hfirst : ∃ value, first = .ok value)
    (hnext : ∀ value, ∃ result, next value = .ok result) :
    ∃ result, (first >>= next) = .ok result := by
  obtain ⟨value, hvalue⟩ := hfirst
  obtain ⟨result, hresult⟩ := hnext value
  exact ⟨result, bind_eq_ok.mpr ⟨value, hvalue, hresult⟩⟩

end Errors

/-! ### Lists gone through -/

section Lists

variable {α β : Type} {f : α → Option β} {items : List α}

theorem mapM_congr {g : α → Option β} (h : ∀ item ∈ items, f item = g item) :
    items.mapM f = items.mapM g := by
  induction items with
  | nil => rfl
  | cons item rest ih =>
      obtain ⟨hitem, hrest⟩ := List.forall_mem_cons.mp h
      rw [List.mapM_cons, List.mapM_cons, hitem, ih hrest]

/-- The results are those of the items one by one. -/
theorem mapM_eq_some_iff {results : List β} :
    items.mapM f = some results ↔
      List.Forall₂ (fun item result => f item = some result) items results := by
  induction items generalizing results with
  | nil => simp [eq_comm]
  | cons item rest ih =>
      simp only [List.mapM_cons, List.forall₂_cons_left_iff, ← ih, Option.bind_eq_bind,
        Option.bind_eq_some_iff, Option.pure_def, Option.some.injEq, @eq_comm _ results,
        exists_and_left]

theorem isSome_mapM : (items.mapM f).isSome ↔ ∀ item ∈ items, (f item).isSome := by
  induction items with
  | nil => simp
  | cons item items ih =>
      rw [List.mapM_cons, List.forall_mem_cons, ← ih]
      cases f item with
      | none => simp
      | some image => cases items.mapM f <;> simp

theorem mapM_eq_some_map {g : α → β} (h : ∀ item ∈ items, f item = some (g item)) :
    items.mapM f = some (items.map g) := by
  rw [mapM_eq_some_iff, List.forall₂_map_right_iff, List.forall₂_same]
  exact h

theorem mapM_eq_self {f : α → Option α} (h : ∀ item ∈ items, f item = some item) :
    items.mapM f = some items :=
  mapM_eq_some_iff.mpr (List.forall₂_same.mpr h)

theorem mem_of_mapM_eq_some {results : List β} (h : items.mapM f = some results) {result : β}
    (hresult : result ∈ results) : ∃ item ∈ items, f item = some result := by
  have heach := mapM_eq_some_iff.mp h
  obtain ⟨index, hindex, rfl⟩ := List.getElem_of_mem hresult
  have hitem : index < items.length := heach.length_eq ▸ hindex
  exact ⟨items[index], List.getElem_mem hitem, heach.get hitem hindex⟩

/-- Elements that are each found again are found again in a row. -/
theorem exists_mapM {g : β → Option α} {P : β → Prop}
    (h : ∀ item ∈ items, ∃ found, f item = some found ∧ g found = some item ∧ P found) :
    ∃ found, items.mapM f = some found ∧ found.mapM g = some items ∧ ∀ x ∈ found, P x := by
  induction items with
  | nil => exact ⟨[], rfl, rfl, by simp⟩
  | cons item rest ih =>
      obtain ⟨first, hfirst, hread, hP⟩ := h item List.mem_cons_self
      obtain ⟨others, hothers, hreads, hPs⟩ := ih fun other hother =>
        h other (List.mem_cons_of_mem _ hother)
      refine ⟨first :: others, ?_, ?_, List.forall_mem_cons.mpr ⟨hP, hPs⟩⟩
      · rw [List.mapM_cons, hfirst, hothers]
        rfl
      · rw [List.mapM_cons, hread, hreads]
        rfl

end Lists

end JoinPlan
