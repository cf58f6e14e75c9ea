import JoinPlan.Proofs.Json.Indented

/-!
# Plain values

A plain value has the members of all its objects sorted by key, as objects are held that
are not read by their form.  A plain value that is legible as a whole reads back from its
text.
-/

namespace JoinPlan.Json

/-- The members of every object in the value are sorted, with one value for each key. -/
def Plain (value : Json) : Prop := value.canonical = value

theorem canonicalItems_eq (items : List Json) : canonicalItems items = items.map canonical := by
  induction items with
  | nil => rfl
  | cons item rest ih => rw [canonicalItems, ih, List.map_cons]

theorem mapValues_canonical {members : Object} (h : ∀ member ∈ members, member.2.Plain) :
    Assoc.mapValues canonical members = members := by
  refine (List.map_congr_left fun member hmember => ?_).trans (List.map_id members)
  exact Prod.ext rfl (h member hmember)

theorem plain_array {items : List Json} : (array items).Plain ↔ ∀ item ∈ items, item.Plain := by
  have hmap : items.map canonical = items ↔ items.map canonical = items.map id := by
    rw [List.map_id]
  rw [Plain, canonical, canonicalItems_eq, array.injEq, hmap]
  exact List.map_eq_map_iff

theorem plain_of_sorted {members : Object} (hsorted : Assoc.Increasing members)
    (h : ∀ member ∈ members, member.2.Plain) : (object members).Plain := by
  rw [Plain, canonical, canonicalMembers_eq, mapValues_canonical h,
    Assoc.sorted_of_increasing hsorted]

/-- Making a value plain changes nothing the second time. -/
theorem plain_canonical (value : Json) : value.canonical.Plain := by
  induction value with
  | null | bool | number | string => rfl
  | array items ih =>
      rw [canonical, canonicalItems_eq, plain_array]
      intro item hitem
      obtain ⟨first, hfirst, rfl⟩ := List.mem_map.mp hitem
      exact ih first hfirst
  | object members ih =>
      rw [canonical, canonicalMembers_eq]
      apply plain_of_sorted (Assoc.increasing_sorted _)
      intro member hmember
      obtain ⟨first, hfirst, rfl⟩ := List.mem_map.mp (Assoc.mem_of_mem_sorted hmember)
      exact ih first hfirst

theorem plain_object {members : Object} :
    (object members).Plain ↔
      Assoc.Increasing members ∧ ∀ member ∈ members, member.2.Plain := by
  constructor
  · intro h
    rw [Plain, canonical, canonicalMembers_eq, object.injEq] at h
    rw [← h]
    refine ⟨Assoc.increasing_sorted _, fun member hmember => ?_⟩
    obtain ⟨first, -, rfl⟩ := List.mem_map.mp (Assoc.mem_of_mem_sorted hmember)
    exact plain_canonical first.2
  · rintro ⟨hsorted, hmembers⟩
    exact plain_of_sorted hsorted hmembers

/-! ### Reading back -/

/-- What is legible as a whole is read as it is. -/
theorem reread?_of_legible (value : Json) :
    ∀ {levels : Nat}, Legible levels .whole value → reread? levels value = some value := by
  induction value with
  | null =>
      intro levels _
      cases levels <;> rfl
  | bool value => exact fun _ => reread?_bool _ value
  | string value => exact fun _ => reread?_string _ value
  | number value =>
      intro levels h
      rw [reread?_number, legible_number.mp h, Option.map_some]
  | array items ih =>
      intro levels h
      cases levels with
      | zero => exact h.elim
      | succ levels =>
          have hitems : items.mapM (reread? levels) = some items :=
            mapM_eq_self fun item hitem => ih item hitem (h item hitem 0)
          rw [reread?, rereadItems?_eq, hitems, Option.map_some]
  | object members ih =>
      intro levels h
      cases levels with
      | zero => exact h.elim
      | succ levels =>
          have hmembers : members.mapM (rereadMember? levels) = some members := by
            refine mapM_eq_self fun member hmember => ?_
            obtain ⟨asked, hasked, hvalue⟩ := h member hmember
            obtain rfl := Option.some.inj hasked
            rw [rereadMember?_eq, ih member hmember hvalue, Option.map_some]
          rw [reread?, rereadMembers?_eq, hmembers, Option.map_some]

/-- A plain value that is legible as a whole reads back from its text. -/
theorem Plain.readsBack {value : Json} (hplain : value.Plain)
    (hlegible : Legible nestingLimit .whole value) : value.ReadsBack := by
  rw [ReadsBack, parse?_text, reread?_of_legible value hlegible, Option.map_some, hplain]

end JoinPlan.Json
