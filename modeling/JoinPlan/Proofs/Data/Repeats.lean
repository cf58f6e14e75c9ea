import JoinPlan.Data.Nest
import JoinPlan.Proofs.Grouping
import JoinPlan.Proofs.Shape

/-!
# Rows that repeat others

Nesting looks at the columns of its shape only, and at a row only when none like it
came before.  So rows to which copies of earlier ones are added nest alike; this is
what the rows of a join are to each side of it.
-/

namespace JoinPlan

namespace Row

/-- The rows have the same values in the columns. -/
def Agree (aliases : List String) (row other : Row) : Prop :=
  ∀ aliasName ∈ aliases, Shape.cell row aliasName = Shape.cell other aliasName

/-- A list of rows with others put in that agree with earlier ones; `seen` are the rows
before. -/
inductive Repeats (aliases : List String) : List Row → List Row → List Row → Prop
  | nil (seen : List Row) : Repeats aliases seen [] []
  | fresh {seen rows repeated : List Row} {row other : Row} (hagree : Agree aliases row other)
      (hrest : Repeats aliases (row :: seen) rows repeated) :
      Repeats aliases seen (row :: rows) (other :: repeated)
  | again {seen rows repeated : List Row} {row other : Row} (hseen : row ∈ seen)
      (hagree : Agree aliases row other) (hrest : Repeats aliases seen rows repeated) :
      Repeats aliases seen rows (other :: repeated)

variable {aliases : List String} {seen rows repeated : List Row}

theorem Agree.mono {fewer : List String} {row other : Row} (h : Agree aliases row other)
    (hsub : ∀ aliasName ∈ fewer, aliasName ∈ aliases) : Agree fewer row other :=
  fun aliasName hmem => h aliasName (hsub aliasName hmem)

theorem Repeats.mono {fewer : List String} (h : Repeats aliases seen rows repeated)
    (hsub : ∀ aliasName ∈ fewer, aliasName ∈ aliases) : Repeats fewer seen rows repeated := by
  induction h with
  | nil seen => exact .nil seen
  | fresh hagree _ ih => exact .fresh (hagree.mono hsub) ih
  | again hseen hagree _ ih => exact .again hseen (hagree.mono hsub) ih

/-- Rows that agree one by one. -/
theorem repeats_of_forall₂ (h : List.Forall₂ (Agree aliases) rows repeated) :
    Repeats aliases seen rows repeated := by
  induction h generalizing seen with
  | nil => exact .nil seen
  | cons hagree _ ih => exact .fresh hagree ih

/-- Rows chosen by the columns alone repeat those chosen from the others. -/
theorem Repeats.filter (h : Repeats aliases seen rows repeated) (chosen : Row → Bool)
    (hchosen : ∀ row other, Agree aliases row other → chosen row = chosen other) :
    Repeats aliases (seen.filter chosen) (rows.filter chosen) (repeated.filter chosen) := by
  induction h with
  | nil seen => exact .nil _
  | @fresh seen rows repeated row other hagree _ ih =>
      cases hrow : chosen row with
      | true =>
          have hother := (hchosen row other hagree).symm.trans hrow
          rw [List.filter_cons_of_pos hrow, List.filter_cons_of_pos hother]
          rw [List.filter_cons_of_pos hrow] at ih
          exact .fresh hagree ih
      | false =>
          have hother := (hchosen row other hagree).symm.trans hrow
          rw [List.filter_cons_of_neg (by simp [hrow]), List.filter_cons_of_neg (by simp [hother])]
          rwa [List.filter_cons_of_neg (by simp [hrow])] at ih
  | @again seen rows repeated row other hseen hagree _ ih =>
      cases hrow : chosen row with
      | true =>
          have hother := (hchosen row other hagree).symm.trans hrow
          rw [List.filter_cons_of_pos hother]
          exact .again (List.mem_filter.mpr ⟨hseen, hrow⟩) hagree ih
      | false =>
          have hother := (hchosen row other hagree).symm.trans hrow
          rwa [List.filter_cons_of_neg (by simp [hother])]

/-- The keys of the rows first appear in the same order. -/
theorem Repeats.distinctByFrom_eq {key? : Row → Option String}
    (h : Repeats aliases seen rows repeated)
    (hkey : ∀ row other, Agree aliases row other → key? row = key? other)
    (keys : List String) (hkeys : ∀ row ∈ seen, ∀ key, key? row = some key → key ∈ keys) :
    Assoc.distinctByFrom id keys (rows.filterMap key?) =
      Assoc.distinctByFrom id keys (repeated.filterMap key?) := by
  induction h generalizing keys with
  | nil seen => rfl
  | @fresh seen rows repeated row other hagree _ ih =>
      have hother := (hkey row other hagree).symm
      cases hrow : key? row with
      | none =>
          rw [hrow] at hother
          rw [List.filterMap_cons_none hrow, List.filterMap_cons_none hother]
          apply ih
          intro earlier hearlier key hsome
          rcases List.mem_cons.mp hearlier with rfl | hmem
          · rw [hrow] at hsome
            contradiction
          · exact hkeys earlier hmem key hsome
      | some key =>
          rw [hrow] at hother
          rw [List.filterMap_cons_some hrow, List.filterMap_cons_some hother]
          have hnext (more : List String) (hmem : key ∈ more)
              (hmore : ∀ other ∈ keys, other ∈ more) :
              ∀ earlier ∈ row :: seen, ∀ found, key? earlier = some found → found ∈ more := by
            intro earlier hearlier found hsome
            rcases List.mem_cons.mp hearlier with rfl | hseen
            · rw [hrow] at hsome
              exact Option.some.inj hsome ▸ hmem
            · exact hmore found (hkeys earlier hseen found hsome)
          by_cases hmem : key ∈ keys
          · simp only [Assoc.distinctByFrom, id_eq, hmem, if_true]
            exact ih keys (hnext keys hmem fun _ h => h)
          · simp only [Assoc.distinctByFrom, id_eq, hmem, if_false]
            rw [ih _ (hnext (key :: keys) List.mem_cons_self fun _ h => List.mem_cons_of_mem _ h)]
  | @again seen rows repeated row other hseen hagree _ ih =>
      have hother := (hkey row other hagree).symm
      cases hrow : key? row with
      | none =>
          rw [hrow] at hother
          rw [List.filterMap_cons_none hother]
          exact ih keys hkeys
      | some key =>
          rw [hrow] at hother
          rw [List.filterMap_cons_some hother]
          simp only [Assoc.distinctByFrom, id_eq, hkeys row hseen key hrow, if_true]
          exact ih keys hkeys

end Row

theorem nestProperties_eq (properties : List (String × Property)) (rows : List Row) :
    nestProperties properties rows =
      properties.map fun entry => (entry.1, entry.2.nest rows) := by
  induction properties with
  | nil => rfl
  | cons entry rest ih => rw [nestProperties, ih, List.map_cons, nestEntry]

namespace Shape

theorem groups_eq (properties : List (String × Property)) (rows : List Row) :
    groups properties rows =
      (Assoc.distinctBy id (rows.filterMap (identityText? properties))).map fun key =>
        rows.filter fun row => identityText? properties row = some key := by
  rw [groups, Assoc.group_eq, List.map_map]
  rfl

theorem mem_aliases_of_mem_columns {properties : List (String × Property)} {aliasName : String}
    (h : aliasName ∈ columns properties) : aliasName ∈ propertiesAliases properties := by
  obtain ⟨⟨name, property⟩, hentry, hcolumn⟩ := List.mem_filterMap.mp h
  apply mem_propertiesAliases.mpr
  refine ⟨(name, property), hentry, ?_⟩
  cases property with
  | column other =>
      obtain rfl := Option.some.inj hcolumn
      exact List.mem_singleton_self other
  | object many properties => contradiction

/-- Rows that agree belong to one object. -/
theorem identityText?_eq_of_agree {properties : List (String × Property)} {row other : Row}
    (h : Row.Agree (propertiesAliases properties) row other) :
    identityText? properties row = identityText? properties other := by
  have hcolumns : (columns properties).map (cell row) = (columns properties).map (cell other) :=
    List.map_congr_left fun aliasName hmem => h aliasName (mem_aliases_of_mem_columns hmem)
  cases properties with
  | nil => rfl
  | cons entry rest =>
      rcases entry with ⟨name, property⟩
      cases property with
      | column aliasName =>
          have hcell := h aliasName List.mem_cons_self
          simp only [identityText?, identity?, hcell]
      | object many properties => simp only [identityText?, identity?, hcolumns]

end Shape

/-- Repeated rows change nothing. -/
theorem Property.nest_eq_of_repeats {property : Property} {rows repeated : List Row}
    (h : Row.Repeats property.aliases [] rows repeated) :
    property.nest rows = property.nest repeated := by
  induction property generalizing rows repeated with
  | column aliasName =>
      cases h with
      | nil => rfl
      | fresh hagree _ =>
          rw [nest, nest]
          exact hagree aliasName (List.mem_singleton_self aliasName)
      | again hseen _ _ => simp at hseen
  | object many properties ih =>
      have hidentity := @Shape.identityText?_eq_of_agree properties
      have hkeys := h.distinctByFrom_eq (fun _ _ => hidentity) [] (by simp)
      rw [nest, nest, Shape.groups_eq, Shape.groups_eq, Assoc.distinctBy, Assoc.distinctBy, hkeys,
        List.map_map, List.map_map]
      congr 1
      apply List.map_congr_left
      intro key _
      have hgroup := h.filter
        (fun row => decide (Shape.identityText? properties row = some key))
        fun row other hagree => by rw [hidentity hagree]
      rw [Function.comp_apply, Function.comp_apply, nestProperties_eq, nestProperties_eq]
      congr 1
      apply List.map_congr_left
      intro entry hentry
      rw [ih entry hentry (hgroup.mono fun aliasName hmem =>
        mem_propertiesAliases.mpr ⟨entry, hentry, hmem⟩)]

/-- Only the values in the columns of the shape count, not the order in which a row
has them or what else it holds. -/
theorem Shape.nest_eq_of_agree {shape : Shape} {rows others : List Row}
    (h : List.Forall₂ (Row.Agree shape.aliases) rows others) :
    shape.nest rows = shape.nest others := by
  apply Property.nest_eq_of_repeats
  exact Row.repeats_of_forall₂ h

/-! ### Leaving rows out -/

theorem Row.repeats_self {aliases : List String} (seen rows : List Row) :
    Row.Repeats aliases seen rows rows :=
  Row.repeats_of_forall₂ (List.forall₂_same.mpr fun _ _ _ _ => rfl)

/-- A list without one of its rows, which agrees with an earlier one. -/
theorem Row.repeats_eraseIdx {aliases : List String} {seen rows : List Row} {later : Nat}
    (hlater : later < rows.length)
    (hearlier : ∃ row, (row ∈ seen ∨ row ∈ rows.take later) ∧ Row.Agree aliases row rows[later]) :
    Row.Repeats aliases seen (rows.eraseIdx later) rows := by
  induction rows generalizing seen later with
  | nil => simp at hlater
  | cons first rest ih =>
      obtain ⟨row, hrow, hagree⟩ := hearlier
      cases later with
      | zero =>
          have hseen : row ∈ seen := by simpa using hrow
          exact .again hseen hagree (Row.repeats_self seen rest)
      | succ later =>
          have hshort : later < rest.length := by simpa using hlater
          refine .fresh (fun _ _ => rfl) (ih hshort ⟨row, ?_, hagree⟩)
          rw [List.take_succ_cons] at hrow
          simp only [List.mem_cons] at hrow ⊢
          tauto

/-- A row that agrees with an earlier one on the columns of the shape can be left out, wherever
the two stand and whatever the shape is. -/
theorem Shape.nest_eraseIdx {shape : Shape} {rows : List Row} {earlier later : Nat}
    (hearlier : earlier < later) (hlater : later < rows.length)
    (hagree : Row.Agree shape.aliases rows[earlier] rows[later]) :
    shape.nest (rows.eraseIdx later) = shape.nest rows := by
  have htaken : rows[earlier] ∈ rows.take later :=
    List.mem_take_iff_getElem.mpr ⟨earlier, by omega, rfl⟩
  exact Property.nest_eq_of_repeats
    (Row.repeats_eraseIdx hlater ⟨rows[earlier], .inr htaken, hagree⟩)

/-- People told apart by their names and towns, with their posts before these. -/
def writers : Shape where
  many := true
  properties :=
    [("posts", .object true [("id", .column "posts__id")]),
     ("name", .column "name"),
     ("town", .column "town")]

def writerRow (name : String) (post : Int) (seen : Bool) : Row :=
  [("name", .string name), ("posts__id", .number (.int post)), ("seen", .bool seen)]

/-- The post of the first writer comes again after a row of the second, with another value in a
column the shape does not name. -/
def writerRows : List Row :=
  [writerRow "ann" 7 true, writerRow "bob" 8 true, writerRow "ann" 7 false, writerRow "ann" 9 true]

theorem nest_eraseIdx_writers :
    Row.Agree writers.aliases writerRows[0] writerRows[2] ∧
      writers.nest [writerRow "ann" 7 true, writerRow "bob" 8 true, writerRow "ann" 9 true] =
        writers.nest writerRows := by
  have hagree : Row.Agree writers.aliases writerRows[0] writerRows[2] := by
    intro aliasName haliases
    have hcolumns : aliasName ∈ ["posts__id", "name", "town"] := haliases
    simp only [List.mem_cons, List.not_mem_nil, or_false] at hcolumns
    rcases hcolumns with rfl | rfl | rfl <;> rfl
  exact ⟨hagree, Shape.nest_eraseIdx (by decide) (by decide) hagree⟩

end JoinPlan
