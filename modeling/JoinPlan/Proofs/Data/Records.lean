import JoinPlan.Proofs.Grouping
import JoinPlan.Proofs.Data.Repeats
import JoinPlan.Proofs.Json.Injective
import JoinPlan.Proofs.Plan.PlainTables
import JoinPlan.Proofs.Plan.ShapeColumns
import Mathlib.Tactic.Tauto

/-!
# Records

The rows of a table of columns nest into records, one for each row of the table; with a
table joined to it every record also has the list of the records that match.
-/

namespace JoinPlan

open Plan Sql

/-- A list of objects, or the first of them. -/
def Shape.ofObjects (many : Bool) (objects : List Object) : Json :=
  Shape.gather many (objects.map .object)

/-! ### Rows in blocks -/

section Blocks

variable {B : Type} {name aliasName : String} {properties : List (String × Property)}
  {blocks : List B} {rows : B → List Row} {identity : B → Json}

/-- Rows that come in blocks of one identity are nested block by block. -/
theorem nest_blocks (many : Bool)
    (hkey : ∀ property ∈ properties, property.1 = name → property.2 = .column aliasName)
    (hcell : ∀ block ∈ blocks, ∀ row ∈ rows block, Shape.cell row aliasName = identity block)
    (hne : ∀ block ∈ blocks, rows block ≠ [])
    (hnotNull : ∀ block ∈ blocks, identity block ≠ .null)
    (hdistinct : (blocks.map identity).Nodup) :
    (Property.object many (Assoc.distinct ((name, .column aliasName) :: properties))).nest
        (blocks.flatMap rows) =
      Shape.ofObjects many (blocks.map fun block =>
        Assoc.sorted (((name, .column aliasName) :: properties).map fun entry =>
          (entry.1, entry.2.nest (rows block)))) := by
  obtain ⟨others, hfirst⟩ := Assoc.exists_distinct_cons (name, Property.column aliasName) hkey
  have hidentity : ∀ block ∈ blocks, ∀ row ∈ rows block,
      Shape.identityText? (Assoc.distinct ((name, .column aliasName) :: properties)) row =
        some (identity block).text := by
    intro block hblock row hrow
    have hnull : (identity block).isNull = false := by
      cases hidentity : identity block with
      | null => exact absurd hidentity (hnotNull block hblock)
      | bool | number | string | array | object => rfl
    simp [hfirst, Shape.identityText?, Shape.identity?, hcell block hblock row hrow, hnull]
  have htexts : (blocks.map fun block => (identity block).text).Nodup := by
    have hmapped := hdistinct.map Json.text_injective
    rwa [List.map_map] at hmapped
  rw [Property.nest, Shape.groups, Assoc.group_blocks hidentity hne htexts, List.map_map,
    List.map_map,
    Shape.ofObjects, List.map_map]
  congr 1
  apply List.map_congr_left
  intro block _
  change Json.ofMembers (nestProperties _ (rows block)) = _
  rw [nestProperties_eq, Json.ofMembers]
  exact congrArg Json.object
    (Assoc.sorted_distinct_map (fun property : Property => property.nest (rows block)) _)

end Blocks

namespace Plan

/-- A column that tells the rows of a table from each other. -/
structure Keyed (rows : List Object) (name : String) : Prop where
  notNull : ∀ row ∈ rows, Shape.cell row name ≠ .null
  distinct : (rows.map fun row => Shape.cell row name).Nodup

theorem Keyed.sublist {rows others : List Object} {name : String} (h : Keyed rows name)
    (hsub : others.Sublist rows) : Keyed others name where
  notNull row hrow := h.notNull row (hsub.subset hrow)
  distinct := h.distinct.sublist (hsub.map _)

theorem keyed_of_map_eq {rows : List Object} {name : String} {keys : List Json}
    (h : (rows.map fun row => Shape.cell row name) = keys) (hnull : .null ∉ keys)
    (hnodup : keys.Nodup) : Keyed rows name where
  notNull _ hrow heq := hnull (h ▸ heq ▸ List.mem_map_of_mem hrow)
  distinct := h ▸ hnodup

/-- A row's columns as the properties of an object. -/
def record (columns : List Column) (row : Object) : Object :=
  Assoc.sorted (columns.map fun column => (column.fieldName, Shape.cell row column.name))

/-- A record with the list of the records of another table that belong to it. -/
def recordWith (columns : List Column) (field : String) (others : List Column)
    (found : List Object) (row : Object) : Object :=
  Assoc.insert field (Shape.ofObjects true (found.map (record others))) (record columns row)

theorem increasing_recordWith (columns : List Column) (field : String) (others : List Column)
    (found : List Object) (row : Object) :
    Assoc.Increasing (recordWith columns field others found row) :=
  Assoc.increasing_insert _ _ (Assoc.increasing_sorted _)

theorem get?_recordWith_self (columns : List Column) (field : String) (others : List Column)
    (found : List Object) (row : Object) :
    Assoc.get? field (recordWith columns field others found row) =
      some (Shape.ofObjects true (found.map (record others))) := by
  rw [recordWith, Assoc.get?_insert, if_pos rfl]

def columnProperties (path : List String) (columns : List Column) : List (String × Property) :=
  columns.map fun column => (column.fieldName, .column (outputAlias path column.aliasName))

theorem columnProperties_append (path : List String) (first second : List Column) :
    columnProperties path (first ++ second) =
      columnProperties path first ++ columnProperties path second :=
  List.map_append

section Records

variable {path : List String} {key : Column} {rest columns : List Column} {rows : List Object}

theorem get?_record (columns : List Column) (row : Object) (name : String) :
    Assoc.get? name (record columns row) =
      Assoc.last? name (columns.map fun column =>
        (column.fieldName, Shape.cell row column.name)) := by
  rw [record, Assoc.get?_sorted]

theorem Stands.get?_record {column : Column} (h : Stands columns column) (row : Object) :
    Assoc.get? column.fieldName (record columns row) = some (Shape.cell row column.name) := by
  rw [Plan.get?_record]
  refine Assoc.last?_of_forall_eq (List.mem_map.mpr ⟨column, h.mem, rfl⟩) ?_
  intro entry hentry hname
  obtain ⟨other, hother, rfl⟩ := List.mem_map.mp hentry
  exact congrArg (Shape.cell row) (h.alone other hother hname)

/-- The fetched row has, under its columns' output aliases, what the record of a row has. -/
def Carries (path : List String) (columns : List Column) (fetched : Row) (row : Object) : Prop :=
  ∀ column ∈ columns, Assoc.get? column.fieldName (record columns row) =
    some (Shape.cell fetched (outputAlias path column.aliasName))

theorem Carries.cell_eq {column : Column} {fetched : Row} {row : Object}
    (h : Carries path columns fetched row) (hcolumn : Stands columns column) :
    Shape.cell fetched (outputAlias path column.aliasName) = Shape.cell row column.name :=
  Option.some.inj ((h column hcolumn.mem).symm.trans (hcolumn.get?_record row))

/-- The columns of a fetched row nest into the record of the row. -/
theorem Carries.last?_nested {fetched : Row} {row : Object} (h : Carries path columns fetched row)
    (others : List Row) (name : String) :
    Assoc.last? name ((columnProperties path columns).map fun entry =>
      (entry.1, entry.2.nest (fetched :: others))) = Assoc.get? name (record columns row) := by
  by_cases hname : ∃ column ∈ columns, column.fieldName = name
  · obtain ⟨column, hcolumn, rfl⟩ := hname
    rw [h column hcolumn, columnProperties, List.map_map]
    apply Assoc.last?_of_forall_eq (List.mem_map.mpr ⟨column, hcolumn, by simp [Property.nest]⟩)
    intro entry hentry heq
    obtain ⟨other, hother, rfl⟩ := List.mem_map.mp hentry
    have hsame : other.fieldName = column.fieldName := heq
    have hcells := (h other hother).symm.trans (hsame ▸ h column hcolumn)
    simpa [Property.nest] using hcells
  · push Not at hname
    rw [get?_record, Assoc.last?_of_forall_ne, Assoc.last?_of_forall_ne]
    · intro entry hentry
      obtain ⟨column, hcolumn, rfl⟩ := List.mem_map.mp hentry
      exact hname column hcolumn
    · intro entry hentry
      obtain ⟨property, hproperty, rfl⟩ := List.mem_map.mp hentry
      obtain ⟨column, hcolumn, rfl⟩ := List.mem_map.mp hproperty
      exact hname column hcolumn

/-- Columns of one property have one alias. -/
theorem eq_of_mem_columnProperties
    (haliases : ∀ first ∈ columns, ∀ second ∈ columns,
      first.aliasName = second.aliasName ↔ first.fieldName = second.fieldName)
    {column : Column} (hcolumn : column ∈ columns) {property : String × Property}
    (hproperty : property ∈ columnProperties path columns)
    (hname : property.1 = column.fieldName) :
    property.2 = .column (outputAlias path column.aliasName) := by
  obtain ⟨other, hother, rfl⟩ := List.mem_map.mp hproperty
  exact congrArg (fun aliasName => Property.column (outputAlias path aliasName))
    ((haliases other hother column hcolumn).mpr hname)

/-- A further property of the key's name fetches the key. -/
theorem Identified.eq_of_mem_rest (hcolumns : Identified key (key :: rest)) :
    ∀ property ∈ columnProperties path rest, property.1 = key.fieldName →
      property.2 = .column (outputAlias path key.aliasName) :=
  fun _ hproperty => eq_of_mem_columnProperties hcolumns.aliases List.mem_cons_self
    (List.mem_cons_of_mem _ hproperty)

/-- The rows of one table. -/
theorem nest_records (many : Bool) (hcolumns : Identified key (key :: rest))
    {fetched : Object → Row}
    (hcarries : ∀ row ∈ rows, Carries path (key :: rest) (fetched row) row)
    (hkeyed : Keyed rows key.name) :
    (Property.object many (Assoc.distinct (columnProperties path (key :: rest)))).nest
        (rows.map fetched) =
      Shape.ofObjects many (rows.map (record (key :: rest))) := by
  have hcell : ∀ row ∈ rows, ∀ found ∈ [fetched row],
      Shape.cell found (outputAlias path key.aliasName) = Shape.cell row key.name := by
    intro row hrow found hfound
    obtain rfl := List.mem_singleton.mp hfound
    exact (hcarries row hrow).cell_eq hcolumns.key
  rw [List.map_eq_flatMap]
  refine (nest_blocks many hcolumns.eq_of_mem_rest hcell (by simp) hkeyed.notNull
    hkeyed.distinct).trans
      (congrArg (Shape.ofObjects many) (List.map_congr_left fun row hrow => ?_))
  apply (Assoc.increasing_sorted _).ext (Assoc.increasing_sorted _)
  intro name
  rw [Assoc.get?_sorted]
  exact (hcarries row hrow).last?_nested [] name

/-- Rows that match, or the row of nulls when none does. -/
theorem nest_orNulls (hcolumns : Identified key (key :: rest))
    {fetched : Object → Row}
    (hcarries : ∀ row ∈ orNulls rows, Carries path (key :: rest) (fetched row) row)
    (hkeyed : Keyed rows key.name) :
    (Property.object true (Assoc.distinct (columnProperties path (key :: rest)))).nest
        ((orNulls rows).map fetched) =
      Shape.ofObjects true (rows.map (record (key :: rest))) := by
  cases rows with
  | cons first others => exact nest_records true hcolumns hcarries hkeyed
  | nil =>
      have hnull : Shape.cell (fetched []) (outputAlias path key.aliasName) = .null :=
        (hcarries [] (by simp [orNulls])).cell_eq hcolumns.key
      obtain ⟨others, hdistinct⟩ := Assoc.exists_distinct_cons
        (key.fieldName, Property.column (outputAlias path key.aliasName)) hcolumns.eq_of_mem_rest
      have hnone : Shape.identityText?
          (Assoc.distinct (columnProperties path (key :: rest))) (fetched []) = none := by
        rw [columnProperties, List.map_cons, ← columnProperties, hdistinct]
        simp [Shape.identityText?, Shape.identity?, hnull, Json.isNull]
      rw [Property.nest, Shape.groups, Assoc.group]
      simp [orNulls, hnone, Shape.gather, Shape.ofObjects]

section Joined

variable {field : String} {before after others : List Column} {otherPath : List String}
  {otherKey : Column}

/-- The property of the records that match a row. -/
def joinedProperty (otherPath : List String) (others : List Column) : Property :=
  .object true (Assoc.distinct (columnProperties otherPath others))

/-- The properties of columns, with that of a table joined among them. -/
def joinedProperties (path otherPath : List String) (field : String)
    (before after others : List Column) : List (String × Property) :=
  columnProperties path before ++
    (field, joinedProperty otherPath others) :: columnProperties path after

/-- The members of the object of one row.  Only columns after the list could replace it. -/
theorem sorted_joinedProperties {found : List Object} {fetched : Object → Row} {row : Object}
    (hothers : Identified otherKey (otherKey :: others))
    (hafter : ∀ column ∈ after, column.fieldName ≠ field)
    (hcarries : ∀ other ∈ orNulls found, Carries path (before ++ after) (fetched other) row)
    (hcarriesOther : ∀ other ∈ orNulls found,
      Carries otherPath (otherKey :: others) (fetched other) other)
    (hkeyed : Keyed found otherKey.name) :
    Assoc.sorted ((joinedProperties path otherPath field before after (otherKey :: others)).map
        fun entry => (entry.1, entry.2.nest ((orNulls found).map fetched))) =
      recordWith (before ++ after) field (otherKey :: others) found row := by
  have hlist : (joinedProperty otherPath (otherKey :: others)).nest ((orNulls found).map fetched) =
      Shape.ofObjects true (found.map (record (otherKey :: others))) :=
    nest_orNulls hothers hcarriesOther hkeyed
  obtain ⟨first, more, hfirst⟩ : ∃ first more, orNulls found = first :: more := by
    cases found with
    | nil => exact ⟨[], [], rfl⟩
    | cons first more => exact ⟨first, more, rfl⟩
  have hrow := (hcarries first (by rw [hfirst]; exact List.mem_cons_self)).last?_nested
    (more.map fetched)
  apply (Assoc.increasing_sorted _).ext (increasing_recordWith _ _ _ _ row)
  intro name
  have hcolumns := hrow name
  rw [columnProperties_append, List.map_append, Assoc.last?_append] at hcolumns
  rw [Assoc.get?_sorted, recordWith, Assoc.get?_insert, ← hcolumns, joinedProperties,
    List.map_append, List.map_cons, hlist, hfirst, List.map_cons, Assoc.last?_append,
    Assoc.last?_cons]
  split
  · rename_i heq
    have hnone : Assoc.last? name ((columnProperties path after).map fun entry =>
        (entry.1, entry.2.nest (fetched first :: more.map fetched))) = none := by
      apply Assoc.last?_of_forall_ne
      intro entry hentry
      obtain ⟨property, hproperty, rfl⟩ := List.mem_map.mp hentry
      obtain ⟨column, hcolumn, rfl⟩ := List.mem_map.mp hproperty
      exact heq ▸ hafter column hcolumn
    rw [hnone]
    rfl
  · rw [Option.or_none]

/-- The rows of a table with another one joined to it: a record has the list of the records
that match it. -/
theorem nest_joined (many : Bool) {found : Object → List Object}
    {fetched : Object → Object → Row} (hcolumns : Identified key (key :: rest ++ after))
    (hothers : Identified otherKey (otherKey :: others)) (hfield : field ≠ key.fieldName)
    (hafter : ∀ column ∈ after, column.fieldName ≠ field)
    (hcarries : ∀ row ∈ rows, ∀ other ∈ orNulls (found row),
      Carries path (key :: rest ++ after) (fetched row other) row)
    (hcarriesOther : ∀ row ∈ rows, ∀ other ∈ orNulls (found row),
      Carries otherPath (otherKey :: others) (fetched row other) other)
    (hkeyed : Keyed rows key.name) (hkeyedOther : ∀ row ∈ rows, Keyed (found row) otherKey.name) :
    (Property.object many (Assoc.distinct (joinedProperties path otherPath field (key :: rest)
        after (otherKey :: others)))).nest
        (rows.flatMap fun row => (orNulls (found row)).map (fetched row)) =
      Shape.ofObjects many (rows.map fun row =>
        recordWith (key :: rest ++ after) field (otherKey :: others) (found row) row) := by
  have hfirst : ∀ property ∈ columnProperties path rest ++
      (field, joinedProperty otherPath (otherKey :: others)) :: columnProperties path after,
      property.1 = key.fieldName → property.2 = .column (outputAlias path key.aliasName) := by
    intro property hproperty hname
    rw [List.mem_append, List.mem_cons] at hproperty
    have hkeyMem : key ∈ key :: rest ++ after := List.mem_cons_self
    rcases hproperty with hproperty | rfl | hproperty
    · exact eq_of_mem_columnProperties hcolumns.aliases hkeyMem
        (columnProperties_append path (key :: rest) after ▸
          List.mem_append_left _ (List.mem_cons_of_mem _ hproperty)) hname
    · exact absurd hname hfield
    · exact eq_of_mem_columnProperties hcolumns.aliases hkeyMem
        (columnProperties_append path (key :: rest) after ▸ List.mem_append_right _ hproperty) hname
  have hcell : ∀ row ∈ rows, ∀ block ∈ (orNulls (found row)).map (fetched row),
      Shape.cell block (outputAlias path key.aliasName) = Shape.cell row key.name := by
    intro row hrow block hblock
    obtain ⟨other, hother, rfl⟩ := List.mem_map.mp hblock
    exact (hcarries row hrow other hother).cell_eq hcolumns.key
  have hne : ∀ row ∈ rows, (orNulls (found row)).map (fetched row) ≠ [] := by
    intro row _
    cases hfound : found row <;> simp [orNulls]
  have hblocks := nest_blocks many hfirst hcell hne hkeyed.notNull hkeyed.distinct
  refine hblocks.trans (congrArg (Shape.ofObjects many) (List.map_congr_left fun row hrow => ?_))
  exact sorted_joinedProperties hothers hafter (hcarries row hrow)
    (hcarriesOther row hrow) (hkeyedOther row hrow)

end Joined

end Records

/-! ### Shapes -/

section Shapes

variable {path : List String} {info : TableInfo} {before after columns : List Column}
  {child : Table Node}

theorem nodesProperties_columns (path : List String) (columns : List Column) :
    nodesProperties path none (columnNodes columns) = columnProperties path columns := by
  rw [nodesProperties_eq_flatMap, columnNodes, List.flatMap_map, columnProperties,
    List.map_eq_flatMap]
  simp [Node.properties, typeMark]

theorem insertedProperties_columnTable (path : List String) (info : TableInfo)
    (columns : List Column) :
    (columnTable info columns).insertedProperties path = columnProperties path columns := by
  rw [Table.insertedProperties, columnTable, nodesProperties_columns, bucketsProperties,
    List.append_nil]

theorem insertedProperties_parentTable (path : List String) (info : TableInfo)
    (before after : List Column) (child : Table Node) :
    (parentTable info before after child).insertedProperties path =
      columnProperties path before ++
        ((Node.table child).properties path none ++ columnProperties path after) := by
  rw [Table.insertedProperties, parentTable, bucketsProperties, List.append_nil,
    nodesProperties_eq_flatMap, List.flatMap_append, List.flatMap_cons,
    ← nodesProperties_eq_flatMap, ← nodesProperties_eq_flatMap, nodesProperties_columns,
    nodesProperties_columns]

theorem shape_columnTable (info : TableInfo) (columns : List Column) :
    (columnTable info columns).shape =
      ⟨info.many, Assoc.distinct (columnProperties [info.aliasName] columns)⟩ := by
  rw [Table.shape, Table.properties_eq_distinct, insertedProperties_columnTable]
  rfl

/-- A child that is fetched later shows as its key among the columns. -/
theorem shape_parentTable_of_batch {thisKey parentKey : Column}
    (hkeys : child.info.batchKeys? = some (thisKey, parentKey)) :
    (parentTable info before after child).shape =
      ⟨info.many,
        Assoc.distinct (columnProperties [info.aliasName] (before ++ parentKey :: after))⟩ := by
  have hkey : (Node.table child).properties [info.aliasName] none =
      columnProperties [info.aliasName] [parentKey] := by
    rw [Node.properties]
    simp [hkeys, columnProperties, typeMark]
  rw [Table.shape, Table.properties_eq_distinct]
  change Shape.mk info.many (Assoc.distinct
    ((parentTable info before after child).insertedProperties [info.aliasName])) = _
  rw [insertedProperties_parentTable, hkey, ← columnProperties_append, ← columnProperties_append]
  rfl

theorem shape_parentTable_of_join {child : TableInfo} (hkeys : child.batchKeys? = none)
    (hmany : child.many = true) :
    (parentTable info before after (columnTable child columns)).shape =
      ⟨info.many, Assoc.distinct (joinedProperties [info.aliasName]
        [info.aliasName, child.aliasName] child.fieldName before after columns)⟩ := by
  have hjoined : (Node.table (columnTable child columns)).properties [info.aliasName] none =
      [(child.fieldName, joinedProperty [info.aliasName, child.aliasName] columns)] := by
    rw [Node.properties, Table.properties_eq_distinct, insertedProperties_columnTable]
    simp [columnTable, hkeys, hmany, typeMark, joinedProperty]
  rw [Table.shape, Table.properties_eq_distinct]
  change Shape.mk info.many (Assoc.distinct ((parentTable info before after
    (columnTable child columns)).insertedProperties [info.aliasName])) = _
  rw [insertedProperties_parentTable, hjoined]
  rfl

end Shapes

end Plan

end JoinPlan
