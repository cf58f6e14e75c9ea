import JoinPlan.Proofs.Data.Levels
import JoinPlan.Proofs.Data.MatchedKeys

/-!
# Every parent gets its own rows

The statement of a boundary is for the distinct keys of its parents.  Whatever comes back
for it, each parent is given the children that have its key and no others, in the order in
which they came, and nothing else in the data is touched.
-/

namespace JoinPlan.Plan

open Json (Path Apart Pointer)
open Json.Pointer (ofPath)

/-! ### What a field holds -/

/-- What a field holds for some objects: their connection, their list, or the first of
them. -/
inductive Holds (info : TableInfo) : List Json → Json → Prop
  | connection {objects : List Json} {value : Json} : info.paginate = true →
      info.connection (.array objects) = .ok value → Holds info objects value
  | list {objects : List Json} : info.paginate = false → info.many = true →
      Holds info objects (.array objects)
  | first {object : Json} {others : List Json} : info.paginate = false → info.many = false →
      Holds info (object :: others) object
  | nothing : info.paginate = false → info.many = false → Holds info [] .null

theorem holds_of_batchValue {info : TableInfo} {objects : List Json} {value : Json}
    (h : batchValue info objects = .ok value) : Holds info objects value := by
  rw [batchValue] at h
  split at h
  · rename_i hpaginate
    exact Holds.connection hpaginate h
  · rename_i hpaginate
    rw [Bool.not_eq_true] at hpaginate
    split at h
    · rename_i hmany
      obtain rfl := Except.ok.inj h
      exact Holds.list hpaginate hmany
    · rename_i hmany
      rw [Bool.not_eq_true] at hmany
      obtain rfl := Except.ok.inj h
      cases objects with
      | nil => exact Holds.nothing hpaginate hmany
      | cons object others => exact Holds.first hpaginate hmany

/-- Only a connection can fail. -/
theorem connection_of_batchValue_error {info : TableInfo} {objects : List Json}
    {error : RequestError} (h : batchValue info objects = .error error) :
    info.paginate = true ∧ info.connection (.array objects) = .error error := by
  rw [batchValue] at h
  split at h
  · rename_i hpaginate
    exact ⟨hpaginate, h⟩
  · split at h <;> simp at h

section Children

variable {info : TableInfo} {thisKey parentKey : Column} {children : List Json} {parent : Json}

theorem getD_get?_groupByKey (thisKey : Column) (children : List Json) (text : String) :
    (Assoc.get? text (groupByKey thisKey children)).getD [] =
      children.filter fun child => (keyOf? thisKey.fieldName child).map Prod.fst = some text := by
  rw [groupByKey, Assoc.group_eq, Assoc.get?_map_pair]
  split
  · rfl
  · rename_i hfresh
    rw [Option.getD_none, eq_comm, List.filter_eq_nil_iff]
    intro child hchild htext
    apply hfresh
    rw [Assoc.mem_distinctBy_id, List.mem_filterMap]
    exact ⟨child, hchild, of_decide_eq_true htext⟩

theorem fieldValue_groupByKey (info : TableInfo) (thisKey parentKey : Column)
    (children : List Json) (parent : Json) :
    fieldValue info parentKey (groupByKey thisKey children) parent =
      batchValue info (matching thisKey parentKey children parent) := by
  rw [fieldValue]
  cases hkey : keyOf? parentKey.fieldName parent with
  | none =>
      rw [matching_of_keyless (keyOf?_eq_none_iff.mp hkey)]
      rfl
  | some key => rw [Option.bind_some, getD_get?_groupByKey, matching_of_keyOf? hkey]

theorem isObject_of_mem_matching {child : Json}
    (h : child ∈ matching thisKey parentKey children parent) : child.isObject = true := by
  obtain ⟨text, -, value, hvalue, -⟩ := of_decide_eq_true (List.mem_filter.mp h).2
  cases child with
  | object members => rfl
  | array | null | bool | number | string => simp [Json.get?] at hvalue

/-- A list holds all objects it is made for, and a field for one object the first. -/
theorem objectsIn_of_holds {value : Json} (hpaginate : info.paginate = false)
    (h : Holds info (matching thisKey parentKey children parent) value) :
    info.objectsIn value =
      if info.many then matching thisKey parentKey children parent
      else (matching thisKey parentKey children parent).take 1 := by
  have hobjects : ∀ child ∈ matching thisKey parentKey children parent,
      child.isObject = true := fun _ => isObject_of_mem_matching
  generalize matching thisKey parentKey children parent = objects at h hobjects
  cases h with
  | connection hconnection => simp [hconnection] at hpaginate
  | list _ hmany =>
      rw [if_pos hmany, TableInfo.objectsIn, List.filter_eq_self]
      exact hobjects
  | first _ hmany =>
      have hobject := hobjects value List.mem_cons_self
      cases value with
      | object members => simp [TableInfo.objectsIn, hpaginate, hmany]
      | array | null | bool | number | string => simp [Json.isObject] at hobject
  | nothing _ hmany => simp [TableInfo.objectsIn, hmany]

end Children

/-! ### Splicing a boundary -/

/-- Takes the member from the objects some pointers lead to. -/
def withoutField (name : String) (pointers : List Pointer) (data : Json) : Json :=
  pointers.foldl (fun data pointer => data.modify (withoutMember name) pointer) data

/-- What putting the children fetched for a boundary into its parents does: the pointers
of the parents that are objects are paired with the values of the field. -/
structure Spliced (boundary : Located) (thisKey parentKey : Column) (children : List Json)
    (before after : Json) (fetched : Located) (values : List (Pointer × Json)) : Prop where
  parents : values.map Prod.fst =
    boundary.objects.filter fun parent => (before.resolve? parent).any Json.isObject
  /-- A parent gets what its own children make, all of them or the first and without a key
  none, and keeps its other members. -/
  value : ∀ entry ∈ values, ∃ members,
    before.resolve? entry.1 = some (.object members) ∧
      after.resolve? entry.1 =
        some (.object (Assoc.insert boundary.table.info.fieldName entry.2 members)) ∧
      Holds boundary.table.info (matching thisKey parentKey children (.object members)) entry.2 ∧
      ((Json.object members).getD parentKey.fieldName = .null →
        Holds boundary.table.info [] entry.2) ∧
      (boundary.table.info.paginate = false → boundary.table.info.objectsIn entry.2 =
        if boundary.table.info.many then
          matching thisKey parentKey children (.object members)
        else (matching thisKey parentKey children (.object members)).take 1)
  /-- But for the field of the parents the data is as it was. -/
  others : withoutField boundary.table.info.fieldName boundary.objects after =
    withoutField boundary.table.info.fieldName boundary.objects before
  table : fetched.table = boundary.table
  /-- The pointers returned are those of the objects in the values. -/
  pointers : fetched.objects = values.flatMap fun entry =>
    (boundary.table.info.places entry.2).map
      (entry.1.child boundary.table.info.fieldName).descend
  distinct : fetched.objects.Nodup
  objects : fetched.objects.map after.resolve? =
    (values.flatMap fun entry => boundary.table.info.objectsIn entry.2).map some

theorem withoutField_ofPath (name : String) (paths : List Path) (data : Json) :
    withoutField name (paths.map ofPath) data = eraseAll name paths data := by
  rw [withoutField, eraseAll, List.foldl_map]
  congr 1
  funext data path
  exact Json.modify_ofPath data _ path

section Splicing

variable {info : TableInfo} {thisKey parentKey : Column} {groups : Groups} {children : List Json}
  {data : Json} {paths : List Path} {values : List (Path × Json)}

/-- Every value is in the data afterwards, with its own parts below it. -/
theorem at?_putAll_field (hapart : (values.map Prod.fst).Pairwise Apart)
    (hobject : ∀ entry ∈ values, ∃ members, data.at? entry.1 = some (.object members))
    {name : String} {entry : Path × Json} (hentry : entry ∈ values) (rest : Path) :
    (putAll name values data).at? (entry.1 ++ name :: rest) = entry.2.at? rest := by
  obtain ⟨members, hmembers⟩ := hobject entry hentry
  rw [Json.at?_append, at?_putAll_self hapart hentry, hmembers, Option.map_some, Option.bind_some,
    Json.at?, child?_withMember_self, Option.bind_some]

theorem map_at?_putPaths (hapart : (values.map Prod.fst).Pairwise Apart)
    (hobject : ∀ entry ∈ values, ∃ members, data.at? entry.1 = some (.object members)) :
    (putPaths info values).map (putAll info.fieldName values data).at? =
      (values.flatMap fun entry => info.objectsIn entry.2).map some := by
  rw [putPaths, List.map_flatMap, List.map_flatMap]
  apply List.flatMap_congr
  intro entry hentry
  rw [← TableInfo.map_at?_places, List.map_map]
  exact List.map_congr_left fun place _ => at?_putAll_field hapart hobject hentry place

theorem nodup_of_pairwise_apart (h : paths.Pairwise Apart) : paths.Nodup := by
  apply h.imp
  intro first second hapart heq
  exact hapart.1 (heq ▸ List.prefix_rfl)

theorem spliced_of_fieldValues {boundary : Located} (hplaced : boundary.Placed)
    (hvalues : fieldValues boundary.table.info parentKey (groupByKey thisKey children)
      (parentsAt data boundary.paths) = .ok values) :
    Spliced boundary thisKey parentKey children data
      (putAll boundary.table.info.fieldName values data)
      ⟨boundary.table, (putPaths boundary.table.info values).map ofPath⟩
      (values.map fun entry => (ofPath entry.1, entry.2)) := by
  have hsublist := fst_values_sublist hvalues
  have hapart := hplaced.apart.sublist hsublist
  have hparent : ∀ entry ∈ values, ∃ members, data.at? entry.1 = some (.object members) ∧
      Holds boundary.table.info (matching thisKey parentKey children (.object members))
        entry.2 := by
    intro entry hentry
    obtain ⟨parent, hparent, hpath, hvalue⟩ := exists_of_mem_fieldValues hvalues hentry
    obtain ⟨-, hat, hobject⟩ := mem_parentsAt.mp hparent
    obtain ⟨members, hmembers⟩ := Json.exists_object_of_isObject hobject
    rw [fieldValue_groupByKey, hmembers] at hvalue
    rw [hmembers, hpath] at hat
    exact ⟨members, hat, holds_of_batchValue hvalue⟩
  have hobject : ∀ entry ∈ values, ∃ members, data.at? entry.1 = some (.object members) :=
    fun entry hentry => (hparent entry hentry).imp fun _ h => h.1
  constructor
  · have hkept : ∀ path : Path, (data.resolve? (ofPath path)).any Json.isObject =
        (data.at? path).any Json.isObject := fun path => by rw [Json.resolve?_ofPath]
    calc (values.map fun entry => (ofPath entry.1, entry.2)).map Prod.fst
        = (values.map Prod.fst).map ofPath := by rw [List.map_map, List.map_map]; rfl
      _ = (boundary.paths.filter fun path => (data.at? path).any Json.isObject).map ofPath := by
          rw [fst_fieldValues hvalues, fst_parentsAt]
      _ = _ := by
          rw [hplaced.objects, List.filter_map]
          simp only [Function.comp_def, hkept]
  · intro entry hentry
    obtain ⟨inner, hinner, rfl⟩ := List.mem_map.mp hentry
    obtain ⟨members, hat, hholds⟩ := hparent inner hinner
    refine ⟨members, ?_, ?_, hholds, fun hkey => matching_of_keyless hkey children ▸ hholds,
      fun hpaginate => objectsIn_of_holds hpaginate hholds⟩
    · rw [Json.resolve?_ofPath, hat]
    · rw [Json.resolve?_ofPath, at?_putAll_self hapart hinner, hat]
      rfl
  · rw [hplaced.objects, withoutField_ofPath, withoutField_ofPath, eraseAll_putAll hplaced.apart]
    intro entry hentry
    exact hsublist.subset (List.mem_map_of_mem hentry)
  · rfl
  · rw [putPaths, List.map_flatMap, List.flatMap_map]
    apply List.flatMap_congr
    intro entry _
    rw [List.map_map]
    apply List.map_congr_left
    intro place _
    simp
  · exact (nodup_of_pairwise_apart (pairwise_putPaths hapart)).map
      Json.Pointer.ofPath_injective
  · rw [List.map_map, List.flatMap_map, ← map_at?_putPaths hapart hobject]
    exact List.map_congr_left fun path _ => Json.resolve?_ofPath _ path

end Splicing

/-- The values are what stands under the field of the parents afterwards. -/
theorem Spliced.values_eq {boundary : Located} {thisKey parentKey : Column}
    {children : List Json} {before after : Json} {fetched : Located}
    {values : List (Pointer × Json)}
    (h : Spliced boundary thisKey parentKey children before after fetched values) :
    values =
      (boundary.objects.filter fun parent => (before.resolve? parent).any Json.isObject).map
        fun parent => (parent,
          ((after.resolve? parent).getD .null).getD boundary.table.info.fieldName) := by
  rw [← h.parents, List.map_map]
  refine (List.map_id values).symm.trans (List.map_congr_left fun entry hentry => ?_)
  obtain ⟨members, -, hafter, -⟩ := h.value entry hentry
  refine Prod.ext rfl ?_
  simp [hafter, Json.getD, Json.get?, Assoc.get?_insert]

/-- At every level, whatever the data: the statement of a boundary is for every key of its
parents once, and whatever children come back, each parent gets its own, unless the
connection of one parent's children cannot be made. -/
theorem splice_own_rows {root : Table Node} {level : List Located} (hlevel : Level root level)
    {found : Json} {boundary : Located} (hboundary : boundary ∈ levelBoundaries found level) :
    ∃ thisKey parentKey, boundary.table.info.batchKeys? = some (thisKey, parentKey) ∧
      ∀ data children,
        (∃ keys, KeysAt data parentKey.fieldName boundary.objects keys ∧
          ScopeOf keys (batchScope data boundary)) ∧
          match splice data boundary (groupByKey thisKey children) with
          | .ok (after, fetched) =>
              ∃ values, Spliced boundary thisKey parentKey children data after fetched values
          | .error error =>
              ∃ parent ∈ boundary.objects, ∃ members,
                data.resolve? parent = some (.object members) ∧
                  boundary.table.info.paginate = true ∧
                  boundary.table.info.connection
                    (.array (matching thisKey parentKey children (.object members))) =
                      .error error := by
  obtain ⟨hisBoundary, hin⟩ := hlevel.boundary_inPlan hboundary
  obtain ⟨⟨thisKey, parentKey⟩, hkeys⟩ := Option.isSome_iff_exists.mp hisBoundary
  refine ⟨thisKey, parentKey, hkeys, ?_⟩
  intro data children
  refine ⟨⟨_, keysAt_parentKeys, scopeOf_batchScope hkeys⟩, ?_⟩
  rw [splice_eq hkeys hin.placed]
  cases hvalues : fieldValues boundary.table.info parentKey (groupByKey thisKey children)
      (parentsAt data boundary.paths) with
  | ok values => exact ⟨_, spliced_of_fieldValues hin.placed hvalues⟩
  | error error =>
      obtain ⟨⟨path, object⟩, hparent, hfails⟩ := exists_of_fieldValues_error hvalues
      obtain ⟨hpath, hat, hobject⟩ := mem_parentsAt.mp hparent
      obtain ⟨members, rfl⟩ := Json.exists_object_of_isObject hobject
      rw [fieldValue_groupByKey] at hfails
      refine ⟨ofPath path, ?_, members, ?_, connection_of_batchValue_error hfails⟩
      · rw [hin.placed.objects]
        exact List.mem_map_of_mem hpath
      · rw [Json.resolve?_ofPath, hat]

/-! ### Books on shelves -/

def shelvedTable : Table Node :=
  ⟨plainInfo "old/~new" "books" true
      (some (.batch (ownedColumn "shelf") (ownedColumn "number"))),
    [.column (ownedColumn "shelf"), .column (ownedColumn "title")], []⟩

/-- Shelves with the books on them fetched in a batch, by the shelf's number. -/
def shelves : Table Node where
  info := plainInfo "shelves" "shelves" true none
  shared := [.column (ownedColumn "number"), .table shelvedTable]
  typed := []

/-- Two shelves of one number, one without a number, no shelf, and one that is empty. -/
def shelvesData : Json :=
  .array
    [.object [("number", .number (.int 7))], .object [("number", .null)],
      .string "lost", .object [("number", .string "7")], .object [("number", .bool true)]]

def shelvedBook (shelf : Json) (title : String) : Json :=
  .object [("shelf", shelf), ("title", .string title)]

/-- Two books on shelf seven, with one of another shelf and one of none. -/
def shelvedBooks : List Json :=
  [shelvedBook (.string "7") "Emma", shelvedBook (.number (.int 8)) "Ulysses",
    shelvedBook (.number (.int 7)) "Middlemarch", shelvedBook .null "Walden"]

/-- The books of shelf seven. -/
def ownBooks : Json :=
  .array [shelvedBook (.string "7") "Emma", shelvedBook (.number (.int 7)) "Middlemarch"]

def filledShelves : Json :=
  .array
    [.object [("number", .number (.int 7)), ("old/~new", ownBooks)],
      .object [("number", .null), ("old/~new", .array [])], .string "lost",
      .object [("number", .string "7"), ("old/~new", ownBooks)],
      .object [("number", .bool true), ("old/~new", .array [])]]

/-- The books of a batch with the shelves that are to get them. -/
def shelvedBoundary : Located := ⟨shelvedTable, ["/0", "/1", "/3", "/4"]⟩

theorem splice_own_rows_shelves :
    ∃ level, Level shelves level ∧ shelvedBoundary ∈ levelBoundaries shelvesData level ∧
      (∃ keys, KeysAt shelvesData "number" shelvedBoundary.objects keys ∧
        ScopeOf keys [.number (.int 7), .bool true]) ∧
      ∃ fetched,
        splice shelvesData shelvedBoundary (groupByKey (ownedColumn "shelf") shelvedBooks) =
            .ok (filledShelves, fetched) ∧
          fetched.objects =
            ["/0/old~1~0new/0", "/0/old~1~0new/1", "/3/old~1~0new/0", "/3/old~1~0new/1"] ∧
          Spliced shelvedBoundary (ownedColumn "shelf") (ownedColumn "number") shelvedBooks
            shelvesData filledShelves fetched
            [("/0", ownBooks), ("/1", .array []), ("/3", ownBooks), ("/4", .array [])] := by
  have hlevel : Level shelves [⟨shelves, objectsAt shelvesData "" shelves.info⟩] :=
    Level.root shelvesData
  have hboundaries : levelBoundaries shelvesData
      [⟨shelves, objectsAt shelvesData "" shelves.info⟩] = [shelvedBoundary] := by rfl
  have hboundary := hboundaries ▸ List.mem_singleton_self shelvedBoundary
  obtain ⟨thisKey, parentKey, hkeys, hsplice⟩ := splice_own_rows hlevel hboundary
  obtain ⟨rfl, rfl⟩ : ownedColumn "shelf" = thisKey ∧ ownedColumn "number" = parentKey :=
    Prod.mk.inj (Option.some.inj hkeys)
  obtain ⟨hkeysAt, hspliced⟩ := hsplice shelvesData shelvedBooks
  have hscope : batchScope shelvesData shelvedBoundary = [.number (.int 7), .bool true] := by rfl
  have hrun : splice shelvesData shelvedBoundary
      (groupByKey (ownedColumn "shelf") shelvedBooks) =
        .ok (filledShelves, ⟨shelvedTable, ["/0/old~1~0new/0", "/0/old~1~0new/1",
          "/3/old~1~0new/0", "/3/old~1~0new/1"]⟩) := by rfl
  rw [hscope] at hkeysAt
  rw [hrun] at hspliced
  obtain ⟨values, hspliced⟩ := hspliced
  have hvalues : values =
      [("/0", ownBooks), ("/1", .array []), ("/3", ownBooks), ("/4", .array [])] :=
    hspliced.values_eq.trans (by rfl)
  exact ⟨_, hlevel, hboundary, hkeysAt, _, hrun, rfl, hvalues ▸ hspliced⟩

end JoinPlan.Plan
