import JoinPlan.Proofs.Data.Flat
import JoinPlan.Proofs.Json.Injective

/-!
# Nesting undoes flattening

Nesting the rows of conforming data gives the data back.  To a property of an object
the rows of the object are the rows of the property's own value with repetitions, so
it nests to its own value; and the rows of a list fall into the groups of its objects,
because their identities have different texts.
-/

namespace JoinPlan

/-! ### One side of a join -/

namespace Row

variable {aliases : List String} {seen rows repeated : List Row}

theorem Repeats.append_again (extra : List Row)
    (hextra : ∀ other ∈ extra, ∃ row ∈ seen, Agree aliases row other)
    (h : Repeats aliases seen rows repeated) : Repeats aliases seen rows (extra ++ repeated) := by
  induction extra with
  | nil => exact h
  | cons other others ih =>
      obtain ⟨row, hseen, hagree⟩ := hextra other List.mem_cons_self
      exact .again hseen hagree (ih fun later hlater =>
        hextra later (List.mem_cons_of_mem _ hlater))

/-- Blocks of rows that agree with one row each. -/
theorem repeats_flatMap {block : Row → List Row} (hne : ∀ row ∈ rows, block row ≠ [])
    (hagree : ∀ row ∈ rows, ∀ other ∈ block row, Agree aliases row other) :
    Repeats aliases seen rows (rows.flatMap block) := by
  induction rows generalizing seen with
  | nil => exact .nil seen
  | cons row rows ih =>
      obtain ⟨other, others, hblock⟩ := List.exists_cons_of_ne_nil (hne row List.mem_cons_self)
      have hrow := hagree row List.mem_cons_self
      rw [hblock] at hrow
      rw [List.flatMap_cons, hblock, List.cons_append]
      apply Repeats.fresh (hrow other List.mem_cons_self)
      apply Repeats.append_again
      · intro later hlater
        exact ⟨row, List.mem_cons_self, hrow later (List.mem_cons_of_mem _ hlater)⟩
      · exact ih (fun later hlater => hne later (List.mem_cons_of_mem _ hlater))
          fun later hlater => hagree later (List.mem_cons_of_mem _ hlater)

/-- All rows one by one, and after them rows that agree with some of them. -/
theorem repeats_map_append {change : Row → Row} {extra : List Row}
    (hchange : ∀ row ∈ rows, Agree aliases row (change row))
    (hextra : ∀ other ∈ extra, ∃ row ∈ seen ++ rows, Agree aliases row other) :
    Repeats aliases seen rows (rows.map change ++ extra) := by
  induction rows generalizing seen with
  | nil =>
      have hnone := Repeats.append_again extra (by simpa using hextra) (Repeats.nil seen)
      simpa using hnone
  | cons row rows ih =>
      rw [List.map_cons, List.cons_append]
      apply Repeats.fresh (hchange row List.mem_cons_self)
      apply ih fun later hlater => hchange later (List.mem_cons_of_mem _ hlater)
      intro other hother
      obtain ⟨found, hfound, hagree⟩ := hextra other hother
      refine ⟨found, ?_, hagree⟩
      simp only [List.mem_append, List.mem_cons] at hfound ⊢
      tauto

/-- To the columns of its left side a join repeats the rows of that side. -/
theorem repeats_cross_left {others : List Row} (hothers : others ≠ [])
    (hkeys : ∀ row ∈ rows, ∀ aliasName ∈ aliases, aliasName ∈ Assoc.keys row) :
    Repeats aliases [] rows (cross rows others) := by
  apply repeats_flatMap
  · intro row _
    simpa using hothers
  · intro row hrow joined hjoined aliasName halias
    obtain ⟨other, -, rfl⟩ := List.mem_map.mp hjoined
    exact (cell_append_left other (hkeys row hrow aliasName halias)).symm

/-- To the columns of its right side a join repeats the rows of that side. -/
theorem repeats_cross_right {others : List Row} (hrows : rows ≠ [])
    (hkeys : ∀ row ∈ rows, ∀ aliasName ∈ aliases, aliasName ∉ Assoc.keys row) :
    Repeats aliases [] others (cross rows others) := by
  have hagree : ∀ row ∈ rows, ∀ other, Agree aliases other (row ++ other) :=
    fun row hrow other aliasName halias =>
      (cell_append_right other (hkeys row hrow aliasName halias)).symm
  cases rows with
  | nil => contradiction
  | cons row rows =>
      rw [cross, List.flatMap_cons]
      apply repeats_map_append
      · intro other _
        exact hagree row List.mem_cons_self other
      · intro joined hjoined
        obtain ⟨later, hlater, other, hother, rfl⟩ := mem_cross.mp hjoined
        exact ⟨other, by simpa using hother, hagree later (List.mem_cons_of_mem _ hlater) other⟩

end Row

/-- In the rows of an object every property finds the rows of its own value. -/
theorem nest_flatObject {properties : List (String × Property)} {object : Json}
    (hnodup : (propertiesAliases properties).Nodup) {entry : String × Property}
    (hentry : entry ∈ properties) :
    entry.2.nest (flatObject properties object) =
      entry.2.nest (entry.2.flat (object.getD entry.1)) := by
  induction properties with
  | nil => simp at hentry
  | cons first rest ih =>
      rw [propertiesAliases, entryAliases, List.nodup_append] at hnodup
      have hkeys : ∀ row ∈ first.2.flat (object.getD first.1),
          Assoc.keys row = first.2.aliases :=
        fun row hrow => first.2.keys_of_mem_flat _ hrow
      rw [flatObject, flatEntry]
      rcases List.mem_cons.mp hentry with rfl | hrest
      · symm
        apply Property.nest_eq_of_repeats
        apply Row.repeats_cross_left
        · exact flatObject_ne_nil object fun other _ => other.2.flat_ne_nil
        · intro row hrow aliasName halias
          rwa [hkeys row hrow]
      · rw [← ih hnodup.2.1 hrest]
        symm
        apply Property.nest_eq_of_repeats
        apply Row.repeats_cross_right
        · exact first.2.flat_ne_nil _
        · intro row hrow aliasName halias hmem
          rw [hkeys row hrow] at hmem
          exact hnodup.2.2 aliasName hmem aliasName
            (mem_propertiesAliases.mpr ⟨entry, hrest, halias⟩) rfl

/-! ### The objects of a list -/

section Objects

variable {properties : List (String × Property)} {objects : List Json}

/-- The first property is a column. -/
def Shape.StartsWithColumn (properties : List (String × Property)) : Prop :=
  ∃ name aliasName rest, properties = (name, Property.column aliasName) :: rest

/-- The rows of an object carry its identity. -/
theorem identityText?_of_mem_flatObject (hfirst : Shape.StartsWithColumn properties)
    {object : Json} (hnotNull : Shape.identity properties object ≠ .null) {row : Row}
    (hrow : row ∈ flatObject properties object) :
    Shape.identityText? properties row = some (Shape.identity properties object).text := by
  obtain ⟨name, aliasName, rest, rfl⟩ := hfirst
  have hidentity : Shape.identity ((name, .column aliasName) :: rest) object =
      object.getD name := rfl
  rw [hidentity] at hnotNull ⊢
  rw [flatObject, flatEntry, Property.flat] at hrow
  obtain ⟨left, hleft, right, -, rfl⟩ := mem_cross.mp hrow
  obtain rfl := List.mem_singleton.mp hleft
  have hcell : Shape.cell ([(aliasName, object.getD name)] ++ right) aliasName =
      object.getD name := by
    simp [Shape.cell, Assoc.get?]
  have hpresent : (object.getD name).isNull = false := by
    cases hvalue : object.getD name with
    | null => exact absurd hvalue hnotNull
    | _ => rfl
  simp only [Shape.identityText?, Shape.identity?, hcell, hpresent]
  rfl

/-- The rows of a list are grouped into those of its objects. -/
theorem groups_flatMap_flatObject (hfirst : Shape.StartsWithColumn properties)
    (hnotNull : ∀ object ∈ objects, Shape.identity properties object ≠ .null)
    (hdistinct : (objects.map (Shape.identity properties)).Nodup) :
    Shape.groups properties (objects.flatMap (flatObject properties)) =
      objects.map (flatObject properties) := by
  have hkey : ∀ object ∈ objects, ∀ row ∈ flatObject properties object,
      Shape.identityText? properties row = some (Shape.identity properties object).text :=
    fun object hobject row hrow =>
      identityText?_of_mem_flatObject hfirst (hnotNull object hobject) hrow
  have hne : ∀ object ∈ objects, flatObject properties object ≠ [] :=
    fun object _ => flatObject_ne_nil object fun entry _ => entry.2.flat_ne_nil
  have htexts : (objects.map fun object => (Shape.identity properties object).text).Nodup := by
    have hmapped := hdistinct.map Json.text_injective
    rwa [List.map_map] at hmapped
  rw [Shape.groups, Assoc.group_blocks hkey hne htexts, List.map_map]
  rfl

/-- Objects nest back when the values of their properties do. -/
theorem nest_flatMap_flatObject (many : Bool) (hfirst : Shape.StartsWithColumn properties)
    (hnodup : (propertiesAliases properties).Nodup)
    (hexactly : ∀ object ∈ objects, Shape.HoldsExactly properties object)
    (hproperties : ∀ object ∈ objects, ∀ entry ∈ properties,
      entry.2.nest (entry.2.flat (object.getD entry.1)) = object.getD entry.1)
    (hnotNull : ∀ object ∈ objects, Shape.identity properties object ≠ .null)
    (hdistinct : (objects.map (Shape.identity properties)).Nodup) :
    (Property.object many properties).nest (objects.flatMap (flatObject properties)) =
      Shape.gather many objects := by
  have hobject : ∀ object ∈ objects,
      Json.ofMembers (nestProperties properties (flatObject properties object)) = object := by
    intro object hobject
    have hvalues : nestProperties properties (flatObject properties object) =
        properties.map fun entry => (entry.1, object.getD entry.1) := by
      rw [nestProperties_eq]
      apply List.map_congr_left
      intro entry hentry
      rw [nest_flatObject hnodup hentry, hproperties object hobject entry hentry]
    rw [hvalues]
    exact (hexactly object hobject).symm
  have hobjects : (objects.map fun object =>
      Json.ofMembers (nestProperties properties (flatObject properties object))) = objects := by
    calc
      (objects.map fun object =>
          Json.ofMembers (nestProperties properties (flatObject properties object))) =
        objects.map id := List.map_congr_left hobject
      _ = objects := List.map_id objects
  rw [Property.nest, groups_flatMap_flatObject hfirst hnotNull hdistinct, List.map_map]
  exact congrArg (Shape.gather many) hobjects

theorem objectsOf_gather {many : Bool} (hone : many = false → objects.length ≤ 1)
    (hexactly : ∀ object ∈ objects, Shape.HoldsExactly properties object) :
    Shape.objectsOf many (Shape.gather many objects) = objects := by
  cases many with
  | true => rfl
  | false =>
      cases objects with
      | nil => rfl
      | cons object others =>
          have hnone : others = [] := by
            have hlength := hone rfl
            rw [List.length_cons] at hlength
            exact List.length_eq_zero_iff.mp (by omega)
          have hpresent : object.isNull = false := by
            rw [hexactly object List.mem_cons_self]
            rfl
          simp [Shape.objectsOf, Shape.gather, hpresent, hnone]

/-- A row of nulls holds no object. -/
theorem nest_nulls {many : Bool} (hfirst : Shape.StartsWithColumn properties) :
    (Property.object many properties).nest [Row.nulls (propertiesAliases properties)] =
      Shape.gather many [] := by
  obtain ⟨name, aliasName, rest, rfl⟩ := hfirst
  have hnone : Shape.identityText? ((name, .column aliasName) :: rest)
      (Row.nulls (propertiesAliases ((name, .column aliasName) :: rest))) = none := by
    simp [Shape.identityText?, Shape.identity?, Shape.cell, Row.nulls, propertiesAliases,
      entryAliases, Property.aliases, Assoc.get?, Json.isNull]
  rw [Property.nest, Shape.groups, Assoc.group, List.foldl_cons, hnone]
  rfl

end Objects

theorem Property.WellFormed.startsWithColumn {many : Bool}
    {properties : List (String × Property)} (h : (Property.object many properties).WellFormed) :
    Shape.StartsWithColumn properties := by
  cases h with
  | object _ => exact ⟨_, _, _, rfl⟩

theorem Property.WellFormed.entry {many : Bool} {properties : List (String × Property)}
    (h : (Property.object many properties).WellFormed) {entry : String × Property}
    (hentry : entry ∈ properties) : entry.2.WellFormed := by
  cases h with
  | object hrest =>
      rcases List.mem_cons.mp hentry with rfl | hmem
      · exact .column _
      · exact hrest entry hmem

theorem nodup_aliases_of_mem {properties : List (String × Property)}
    (hnodup : (propertiesAliases properties).Nodup) {entry : String × Property}
    (hentry : entry ∈ properties) : entry.2.aliases.Nodup := by
  rw [propertiesAliases_eq_flatMap, List.nodup_flatMap] at hnodup
  exact hnodup.1 entry hentry

/-- Nesting the rows of a property's value gives the value. -/
theorem Property.nest_flat {property : Property} {value : Json} (hshape : property.WellFormed)
    (hnodup : property.aliases.Nodup) (hvalue : property.Conforms value) :
    property.nest (property.flat value) = value := by
  induction hvalue with
  | column aliasName value => simp [flat, nest, Shape.cell, Assoc.get?]
  | @object many properties objects hone hexactly _ hnotNull hdistinct ih =>
      have hobjects := nest_flatMap_flatObject many hshape.startsWithColumn hnodup
        hexactly
        (fun object hobject entry hentry => ih object hobject entry hentry (hshape.entry hentry)
          (nodup_aliases_of_mem hnodup hentry))
        hnotNull hdistinct
      rw [flat, objectsOf_gather hone hexactly]
      cases objects with
      | nil => exact nest_nulls hshape.startsWithColumn
      | cons object others => exact hobjects

/-- Where there is no object at all, it does not matter whether there is no row or one
of nulls. -/
theorem Shape.nest_flat_eq_nest_flat {shape : Shape} (hshape : shape.WellFormed) (data : Json) :
    shape.nest (shape.flat data) =
      shape.nest ((Property.object shape.many shape.properties).flat data) := by
  rw [Shape.flat, Property.flat]
  cases objectsOf shape.many data with
  | nil => exact (nest_nulls hshape.property.startsWithColumn).symm
  | cons object others => rfl

/-- Nesting the rows of conforming data gives the data back, with or without a row of
nulls for no data, and in whatever order the rows have their columns. -/
theorem Shape.nest_undoes_flat {shape : Shape} {data : Json} (hshape : shape.WellFormed)
    (hdata : shape.Conforms data) :
    shape.nest (shape.flat data) = data ∧
      shape.nest ((Property.object shape.many shape.properties).flat data) = data ∧
      ∀ rows, List.Forall₂ (Row.Agree shape.aliases) (shape.flat data) rows →
        shape.nest rows = data := by
  have hpadded := Property.nest_flat hshape.property hshape.nodup_aliases hdata
  have hrows := (Shape.nest_flat_eq_nest_flat hshape data).trans hpadded
  refine ⟨hrows, hpadded, ?_⟩
  intro rows hagree
  rw [← Shape.nest_eq_of_agree hagree]
  exact hrows

/-! ### Users with their posts -/

namespace Shape

/-- Users with the posts they wrote and those they like. -/
def users : Shape where
  many := true
  properties := [("id", .column "id"), ("name", .column "name"),
    ("wrote", .object true [("id", .column "wrote__id")]),
    ("likes", .object true [("id", .column "likes__id")]),
    ("boss", .object false [("id", .column "boss__id")])]

def reference (id : Int) : Json := .object [("id", .number (.int id))]

def user (id : Int) (name : String) (wrote likes : List Int) (boss : Json) : Json :=
  .object [("boss", boss), ("id", .number (.int id)), ("likes", .array (likes.map reference)),
    ("name", .string name), ("wrote", .array (wrote.map reference))]

def firstUsers : List Json :=
  [user 2 "Bea" [9, 4] [4, 1] .null, user 1 "Abe" [] [] (reference 2)]

theorem wellFormed_users : users.WellFormed where
  property := by
    refine .object fun entry hentry => ?_
    simp only [List.mem_cons, List.not_mem_nil, or_false] at hentry
    rcases hentry with rfl | rfl | rfl | rfl
    · exact .column _
    · exact .object (by simp)
    · exact .object (by simp)
    · exact .object (by simp)
  nodup_aliases := by decide

theorem conforms_references {many : Bool} (ids : List Int) (aliasName : String)
    (hone : many = false → ids.length ≤ 1) (hdistinct : ids.Nodup) :
    (Property.object many [("id", .column aliasName)]).Conforms
      (gather many (ids.map reference)) := by
  have hidentity : (ids.map reference).map (identity [("id", .column aliasName)]) =
      ids.map fun id => .number (.int id) := by
    rw [List.map_map]
    rfl
  apply Property.Conforms.object
  · simpa using hone
  · intro object hobject
    obtain ⟨id, -, rfl⟩ := List.mem_map.mp hobject
    rfl
  · intro object _ entry hentry
    obtain rfl := List.mem_singleton.mp hentry
    exact .column _ _
  · intro object hobject
    obtain ⟨id, -, rfl⟩ := List.mem_map.mp hobject
    exact Json.noConfusion
  · rw [hidentity]
    apply hdistinct.map
    intro first second heq
    injection heq with heq
    injection heq

theorem conforms_user {id : Int} {name : String} {wrote likes boss : List Int}
    (hwrote : wrote.Nodup) (hlikes : likes.Nodup) (hone : boss.length ≤ 1) (hboss : boss.Nodup)
    {entry : String × Property} (hentry : entry ∈ users.properties) :
    entry.2.Conforms
      ((user id name wrote likes (gather false (boss.map reference))).getD entry.1) := by
  simp only [users, List.mem_cons, List.not_mem_nil, or_false] at hentry
  rcases hentry with rfl | rfl | rfl | rfl | rfl
  · exact .column _ _
  · exact .column _ _
  · exact conforms_references wrote _ nofun hwrote
  · exact conforms_references likes _ nofun hlikes
  · exact conforms_references boss _ (fun _ => hone) hboss

theorem conforms_users : users.Conforms (.array firstUsers) := by
  apply @Property.Conforms.object true
  · exact nofun
  · intro object hobject
    simp only [firstUsers, List.mem_cons, List.not_mem_nil, or_false] at hobject
    rcases hobject with rfl | rfl <;> rfl
  · intro object hobject entry hentry
    simp only [firstUsers, List.mem_cons, List.not_mem_nil, or_false] at hobject
    rcases hobject with rfl | rfl
    · exact @conforms_user _ _ _ _ [] (by decide) (by decide) (by decide) (by decide) _
        hentry
    · exact @conforms_user _ _ _ _ [2] (by decide) (by decide) (by decide) (by decide) _
        hentry
  · intro object hobject
    simp only [firstUsers, List.mem_cons, List.not_mem_nil, or_false] at hobject
    rcases hobject with rfl | rfl <;> exact Json.noConfusion
  · have hidentity : firstUsers.map (identity users.properties) =
        [.number (.int 2), .number (.int 1)] := rfl
    rw [hidentity]
    simp

theorem nest_undoes_flat_users :
    users.nest (users.flat (.array firstUsers)) = .array firstUsers ∧
      users.nest ((Property.object users.many users.properties).flat (.array firstUsers)) =
        .array firstUsers ∧
      ∀ rows, List.Forall₂ (Row.Agree users.aliases) (users.flat (.array firstUsers)) rows →
        users.nest rows = .array firstUsers :=
  nest_undoes_flat wellFormed_users conforms_users

end Shape

end JoinPlan
