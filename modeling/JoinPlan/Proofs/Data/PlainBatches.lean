import JoinPlan.Proofs.Data.PlainFetch

/-!
# Plain tables fetched later

The data of a plain table whose other table is fetched in one batch: the statement of the
batch is for the keys of the parents, and every parent gets the rows that have its key.
-/

namespace JoinPlan.Plan

open Sql
open Json (Path)
open Json.Pointer (ofPath)

/-! ### Objects at the root of the data -/

section Root

variable {many : Bool} {objects : List Object}

/-- What is shown of some items: all of them in a list, the first where there is one. -/
def shown {α : Type} (many : Bool) (items : List α) : List α :=
  if many then items else items.take 1

theorem mem_of_mem_shown {α : Type} {items : List α} {item : α} (h : item ∈ shown many items) :
    item ∈ items := by
  cases many with
  | true => exact h
  | false => exact List.mem_of_mem_take h

theorem shown_map {α β : Type} (many : Bool) (f : α → β) (items : List α) :
    shown many (items.map f) = (shown many items).map f := by
  cases many with
  | true => rfl
  | false => simp [shown]

theorem ofObjects_map_congr {rows : List Object} {f g : Object → Object}
    (h : ∀ row ∈ shown many rows, f row = g row) :
    Shape.ofObjects many (rows.map f) = Shape.ofObjects many (rows.map g) := by
  cases many with
  | true =>
      have hrows : rows.map f = rows.map g := List.map_congr_left h
      rw [hrows]
  | false =>
      cases rows with
      | nil => rfl
      | cons row rest => exact congrArg Json.object (h row (by simp [shown]))

/-- The objects at the root of the data, with their paths. -/
def rootParents (many : Bool) (objects : List Object) : List (Path × Json) :=
  if many then objects.zipIdx.map fun item => ([Json.indexToken item.2], .object item.1)
  else (objects.take 1).map fun object => ([], .object object)

theorem snd_rootParents (many : Bool) (objects : List Object) :
    (rootParents many objects).map Prod.snd = (shown many objects).map .object := by
  cases many with
  | true =>
      simp only [rootParents, if_true, List.map_map, shown]
      conv_rhs => rw [← List.zipIdx_map_fst 0 objects, List.map_map]
      rfl
  | false => simp [rootParents, shown, Function.comp_def]

theorem parentsAt_ofObjects {info : TableInfo} (hpaginate : info.paginate = false) (many : Bool)
    (objects : List Object) :
    parentsAt (Shape.ofObjects many objects) (objectPaths (Shape.ofObjects many objects) [] info) =
      rootParents many objects := by
  cases many with
  | true =>
      have hplaces : objectPaths (Shape.ofObjects true objects) [] info =
          objects.zipIdx.map fun item => [Json.indexToken item.2] := by
        have hall : ((objects.map Json.object).zipIdx.filter fun item => item.1.isObject) =
            (objects.map Json.object).zipIdx := by
          apply List.filter_eq_self.mpr
          intro item hitem
          obtain ⟨object, -, hobject⟩ := List.mem_map.mp (List.fst_mem_of_mem_zipIdx hitem)
          rw [← hobject]
          rfl
        change ((itemPlaces (objects.map .object) Json.isObject).map fun place => [] ++ place) = _
        rw [itemPlaces, hall, List.zipIdx_map, List.map_map, List.map_map]
        rfl
      rw [hplaces, rootParents, if_pos rfl, parentsAt, List.filterMap_map,
        ← List.filterMap_eq_map]
      apply List.filterMap_congr
      intro item hitem
      have hfound : objects[item.2]? = some item.1 := List.mem_zipIdx_iff_getElem?.mp hitem
      have hat : (Shape.ofObjects true objects).at? [Json.indexToken item.2] =
          some (.object item.1) := by
        change (Json.array (objects.map .object)).at? _ = _
        rw [at?_array_indexToken, List.getElem?_map, hfound]
        rfl
      simp only [Function.comp_apply, hat]
      rfl
  | false =>
      cases objects with
      | nil => rfl
      | cons object rest =>
          have hplaces : objectPaths (Shape.ofObjects false (object :: rest)) [] info = [[]] := by
            change ((info.places (.object object)).map fun place => [] ++ place) = _
            simp [TableInfo.places, hpaginate]
          rw [hplaces]
          rfl

theorem putAll_items (name : String) (value : Json → Json) (done : List Json)
    (objects : List Object) :
    putAll name ((objects.zipIdx done.length).map fun item =>
        ([Json.indexToken item.2], value (.object item.1)))
      (.array (done ++ objects.map .object)) =
      .array (done ++ objects.map fun object =>
        .object (Assoc.insert name (value (.object object)) object)) := by
  induction objects generalizing done with
  | nil => rfl
  | cons object rest ih =>
      have hchild : (Json.array (done ++ .object object :: rest.map .object)).child?
          (Json.indexToken done.length) = some (.object object) := by
        rw [Json.child?, Json.index?_indexToken, Option.bind_some]
        simp
      have hfirst : (Json.array (done ++ .object object :: rest.map .object)).modifyAt
          (withMember name (value (.object object))) [Json.indexToken done.length] =
          .array ((done ++ [.object (Assoc.insert name (value (.object object)) object)]) ++
            rest.map .object) := by
        rw [Json.modifyAt, hchild]
        simp [Json.setChild, Json.index?_indexToken, Json.modifyAt, withMember]
      rw [List.map_cons, List.zipIdx_cons, List.map_cons]
      change putAll name _ ((Json.array (done ++ .object object :: rest.map .object)).modifyAt
        (withMember name (value (.object object))) [Json.indexToken done.length]) = _
      have hrest := ih (done ++ [.object (Assoc.insert name (value (.object object)) object)])
      rw [List.length_append, List.length_singleton] at hrest
      rw [hfirst, hrest]
      simp

/-- Every object at the root gets its own value. -/
theorem putAll_rootParents (name : String) (value : Json → Json) (many : Bool)
    (objects : List Object) :
    putAll name ((rootParents many objects).map fun parent => (parent.1, value parent.2))
        (Shape.ofObjects many objects) =
      Shape.ofObjects many (objects.map fun object =>
        Assoc.insert name (value (.object object)) object) := by
  cases many with
  | true =>
      have hitems := putAll_items name value [] objects
      rw [List.length_nil, List.nil_append, List.nil_append] at hitems
      rw [rootParents, if_pos rfl, List.map_map]
      refine hitems.trans (congrArg Json.array ?_)
      rw [List.map_map]
      rfl
  | false => cases objects <;> rfl

end Root

/-! ### Keys of records -/

section Keys

variable {columns : List Column} {column : Column}

theorem keyOf?_record (hcolumn : Stands columns column) (row : Object) :
    keyOf? column.fieldName (.object (record columns row)) =
      (keyText? (Shape.cell row column.name)).map fun text =>
        (text, Shape.cell row column.name) := by
  have hget : (Json.object (record columns row)).get? column.fieldName =
      some (Shape.cell row column.name) := hcolumn.get?_record row
  rw [keyOf?, hget, Option.bind_eq_bind, Option.bind_some]
  cases keyText? (Shape.cell row column.name) <;> rfl

/-- Whether two keys are matched: they have the same text. -/
def matched (key other : Json) : Bool :=
  (keyText? key).isSome && keyText? other == keyText? key

/-- A parent gets the records whose rows have its key. -/
theorem matching_records {others : List Column} {thisKey parentKey : Column}
    (hparent : Stands columns parentKey) (hthis : Stands others thisKey) (rows : List Object)
    (row : Object) :
    matching thisKey parentKey (rows.map fun other => .object (record others other))
        (.object (record columns row)) =
      (rows.filter fun other =>
        matched (Shape.cell row parentKey.name) (Shape.cell other thisKey.name)).map
          fun other => .object (record others other) := by
  have hparentKey := keyOf?_record hparent row
  cases hkey : keyText? (Shape.cell row parentKey.name) with
  | none =>
      rw [hkey, Option.map_none] at hparentKey
      rw [matching_of_keyless (keyOf?_eq_none_iff.mp hparentKey)]
      simp [matched, hkey]
  | some text =>
      rw [hkey, Option.map_some] at hparentKey
      rw [matching_of_keyOf? hparentKey, List.filter_map]
      congr 2
      funext other
      simp only [Function.comp_apply, keyOf?_record hthis, matched, hkey]
      cases keyText? (Shape.cell other thisKey.name) <;> simp [eq_comm, beq_eq_decide]

end Keys

/-! ### The keys of a batch -/

section Scope

variable {data : Json} {boundary : Located} {thisKey parentKey : Column} {rows : List Object}
  {name : String} {scope : List Json}

/-- Keys of some rows, each once. -/
structure KeysOf (rows : List Object) (name : String) (scope : List Json) : Prop where
  nodup : scope.Nodup
  notNull : .null ∉ scope
  key : ∀ key ∈ scope, ∃ row ∈ rows, Shape.cell row name = key

theorem parentKeys_eq_parentsAt (data : Json) (table : Table Node) (paths : List Path)
    (parentKey : Column) :
    parentKeys data ⟨table, paths.map ofPath⟩ parentKey =
      (parentsAt data paths).filterMap fun parent => keyOf? parentKey.fieldName parent.2 := by
  rw [parentKeys, parentsAt, List.filterMap_map, List.filterMap_filterMap]
  apply List.filterMap_congr
  intro path _
  rw [Function.comp_apply, Json.resolve?_ofPath]
  cases data.at? path with
  | none => rfl
  | some found =>
      cases found with
      | object members => rfl
      | null | bool | number | string | array => rfl

/-- Every key of the parents is asked for, by its text. -/
theorem exists_mem_batchScope (hkeys : boundary.table.info.batchKeys? = some (thisKey, parentKey))
    {key : String × Json} (h : key ∈ parentKeys data boundary parentKey) :
    ∃ value ∈ batchScope data boundary, keyText? value = some key.1 := by
  obtain ⟨first, hfirst, htext⟩ := Assoc.exists_mem_distinctBy Prod.fst h
  rw [batchScope_eq hkeys]
  refine ⟨first.2, List.mem_map_of_mem hfirst, ?_⟩
  rw [keyText?_of_mem_parentKeys (Assoc.mem_of_mem_distinctBy hfirst), htext]

theorem keysOf_batchScope (hkeys : boundary.table.info.batchKeys? = some (thisKey, parentKey))
    (hrows : ∀ key ∈ parentKeys data boundary parentKey,
      ∃ row ∈ rows, Shape.cell row name = key.2) :
    KeysOf rows name (batchScope data boundary) := by
  have htext : ∀ key ∈ Assoc.distinctBy Prod.fst (parentKeys data boundary parentKey),
      keyText? key.2 = some key.1 :=
    fun key hkey => keyText?_of_mem_parentKeys (Assoc.mem_of_mem_distinctBy hkey)
  rw [batchScope_eq hkeys]
  constructor
  · apply List.Nodup.map_on _ (Assoc.nodup_distinctByFrom _ _ _)
    intro first hfirst second hsecond heq
    have hsame := congrArg keyText? heq
    rw [htext first hfirst, htext second hsecond] at hsame
    exact Assoc.eq_of_mem_distinctBy hfirst hsecond (Option.some.inj hsame)
  · intro hnull
    obtain ⟨key, hkey, heq⟩ := List.mem_map.mp hnull
    have hnone := htext key hkey
    rw [heq] at hnone
    cases hnone
  · intro value hvalue
    obtain ⟨key, hkey, rfl⟩ := List.mem_map.mp hvalue
    exact hrows key (Assoc.mem_of_mem_distinctBy hkey)

end Scope

/-! ### The rows of a batch -/

section Batch

variable {executor : Executor} {database : Database} {dialect : Dialect} {context : Context}
  {info child : TableInfo} {key otherKey thisKey parentKey : Column}
  {rest after others : List Column} {scope : List Json}

/-- The rows whose key is one of those asked for. -/
def batchedRows (database : Database) (child : TableInfo) (thisKey : Column)
    (scope : List Json) : List Object :=
  (database.table child.reference).filter fun other =>
    isTrue (isOneOf (Shape.cell other thisKey.name) scope)

theorem batchObjects_columnTable {rows : List Row} {objects : List Object}
    (hnest : (columnTable child (otherKey :: others)).shape.asMany.nest rows =
      Shape.ofObjects true objects) :
    (columnTable child (otherKey :: others)).batchObjects rows = .ok (objects.map .object) := by
  rw [Table.batchObjects, hnest, resolveUnions_columnTable, connectChildren_columnTable]
  rfl

theorem exists_rows_of_batch (dialect : Dialect) (context : Context) (scope : List Json)
    (hchild : child.IsPlain) (hrelation : child.relation = some (.batch thisKey parentKey))
    (hothers : Identified otherKey (otherKey :: others))
    (hkeyed : Keyed (database.table child.reference) otherKey.name) :
    ∃ select rows,
      (columnTable child (otherKey :: others)).statement ⟨context, dialect, scope⟩ =
          .ok (some select) ∧
        database.rows? select = some rows ∧
        (columnTable child (otherKey :: others)).shape.asMany.nest rows =
          Shape.ofObjects true
            ((batchedRows database child thisKey scope).map (record (otherKey :: others))) := by
  refine ⟨_, _, statement_batch hchild hrelation hothers.owner (List.cons_ne_nil _ _),
    rows?_table (isColumn_of_mem_distinctItems fun _ => isColumn_of_mem_columnItems)
      (value?_inScope database _ child.aliasName thisKey.name), ?_⟩
  have hfiltered : ((database.table child.reference).filter fun found =>
      isTrue (isOneOf (Bindings.column [(child.aliasName, found)] child.aliasName thisKey.name)
        scope)) = batchedRows database child thisKey scope := by
    simp [batchedRows, Bindings.column, Assoc.get?]
  rw [shape_columnTable, hfiltered]
  apply nest_records true hothers _ (hkeyed.sublist List.filter_sublist)
  intro other _
  have hcarries := @carries_fetched child.aliasName [child.aliasName] (otherKey :: others)
    [(child.aliasName, other)] dialect _ hothers.toLayered (fun _ _ => rfl)
  simpa [Assoc.get?] using hcarries

/-- A batch fetches the rows asked for, also when no keys are asked for. -/
theorem outcome_fetchBatch_plain (hchild : child.IsPlain)
    (hrelation : child.relation = some (.batch thisKey parentKey))
    (hothers : Identified otherKey (otherKey :: others))
    (hkeyed : Keyed (database.table child.reference) otherKey.name)
    (hevaluates : Evaluates executor database (columnTable child (otherKey :: others))
      ⟨context, dialect, scope⟩) (sent : List String) :
    ∃ statements,
      (fetchBatch executor dialect context (columnTable child (otherKey :: others))
          scope).outcome sent =
        (.ok (groupByKey thisKey ((batchedRows database child thisKey scope).map fun other =>
          .object (record (otherKey :: others) other))), statements) := by
  have hkeys : (columnTable child (otherKey :: others)).info.batchKeys? =
      some (thisKey, parentKey) := by
    simp [columnTable, TableInfo.batchKeys?, hrelation]
  cases hscope : scope.isEmpty with
  | true =>
      obtain rfl := List.isEmpty_iff.mp hscope
      have hnone : batchedRows database child thisKey [] = [] := by
        simp [batchedRows, isOneOf, Sql.isTrue]
      refine ⟨sent, ?_⟩
      rw [hnone, fetchBatch, hkeys]
      rfl
  | false =>
      obtain ⟨select, rows, hstatement, hrows, hnest⟩ :=
        exists_rows_of_batch dialect context scope hchild hrelation hothers hkeyed
      have hexecute : (Session.execute executor (select.render dialect)).outcome sent =
          (.ok rows, sent ++ [select.render dialect]) :=
        outcome_execute_statement hevaluates hstatement hrows sent
      have hobjects := batchObjects_columnTable hnest
      rw [List.map_map] at hobjects
      refine ⟨sent ++ [select.render dialect], ?_⟩
      simp [fetchBatch, hkeys, hscope, Session.outcome_bind, statementText_eq hstatement,
        Except.mapError, Except.map, render_ne_empty, hexecute, hobjects, Function.comp_def]

theorem fieldValues_groupByKey (hpaginate : info.paginate = false) (hmany : info.many = true)
    (children : List Json) (parents : List (Path × Json)) :
    fieldValues info parentKey (groupByKey thisKey children) parents =
      .ok (parents.map fun parent =>
        (parent.1, .array (matching thisKey parentKey children parent.2))) := by
  induction parents with
  | nil => rfl
  | cons parent rest ih =>
      have hvalue : fieldValue info parentKey (groupByKey thisKey children) parent.2 =
          .ok (.array (matching thisKey parentKey children parent.2)) := by
        rw [fieldValue_groupByKey, batchValue, if_neg (by simp [hpaginate]), if_pos hmany]
      rw [fieldValues, hvalue, ih]
      rfl

/-- The rows of the other table that have the key of a row. -/
def matchedRows (database : Database) (child : TableInfo) (thisKey parentKey : Column)
    (row : Object) : List Object :=
  (database.table child.reference).filter fun other =>
    matched (Shape.cell row parentKey.name) (Shape.cell other thisKey.name)

/-- Of the rows that have a row's key all are fetched, if the key is asked for. -/
theorem filter_batchedRows {row : Object}
    (hsame : ∀ key ∈ scope, ∀ other ∈ database.table child.reference,
      isTrue (equal (Shape.cell other thisKey.name) key) =
        matched key (Shape.cell other thisKey.name))
    (hscope : ∀ text, keyText? (Shape.cell row parentKey.name) = some text →
      ∃ key ∈ scope, keyText? key = some text) :
    ((batchedRows database child thisKey scope).filter fun other =>
        matched (Shape.cell row parentKey.name) (Shape.cell other thisKey.name)) =
      matchedRows database child thisKey parentKey row := by
  rw [batchedRows, List.filter_filter, matchedRows]
  apply List.filter_congr
  intro other hother
  rw [Bool.and_eq_left_iff_imp]
  intro hmatched
  simp only [matched, Bool.and_eq_true, beq_iff_eq, Option.isSome_iff_exists] at hmatched
  obtain ⟨⟨text, htext⟩, hother_text⟩ := hmatched
  obtain ⟨key, hkey, hkey_text⟩ := hscope text htext
  have hfound :
      (scope.any fun key => isTrue (equal (Shape.cell other thisKey.name) key)) = true := by
    apply List.any_eq_true.mpr
    refine ⟨key, hkey, ?_⟩
    rw [hsame key hkey other hother]
    simp [matched, hkey_text, hother_text, htext]
  rw [isOneOf, if_pos hfound]
  rfl

end Batch

/-! ### A table fetched after another -/

section Batched

variable {executor : Executor} {database : Database} {dialect : Dialect} {context : Context}
  {info child : TableInfo} {key otherKey thisKey parentKey : Column}
  {rest after others : List Column}

/-- A level with one boundary, below which there is nothing to fetch. -/
theorem outcome_fillLevels_single {level : List Located} {boundary fetched : Located}
    {data filled : Json} {groups : Groups} {sent statements : List String}
    (hboundaries : levelBoundaries data level = [boundary])
    (hfetch : (fetchBatch executor dialect context boundary.table
      (batchScope data boundary)).outcome sent = (.ok groups, statements))
    (hsplice : splice data boundary groups = .ok (filled, fetched))
    (hnext : levelBoundaries filled [fetched] = []) (height : Nat) :
    (fillLevels executor dialect context (height + 1) level data).outcome sent =
      (.ok filled, statements) := by
  have hlevel : (fetchLevel executor dialect context
      [(boundary.table, batchScope data boundary)]).outcome sent = (.ok [groups], statements) := by
    simp [fetchLevel, hfetch, Except.map]
  have hspliced : spliceLevel [(boundary, groups)] data = .ok (filled, [fetched]) :=
    spliceLevel_cons_eq_ok.mpr ⟨filled, fetched, [], hsplice, rfl, rfl⟩
  simp [fillLevels, hboundaries, Session.outcome_bind, hlevel, hspliced, Except.mapError,
    fillLevels_eq_pure hnext]

/-- A plain table at the root and another one fetched after it, by keys whose place nothing
takes. -/
structure BatchedTables (info child : TableInfo) (thisKey parentKey key : Column)
    (rest after : List Column) (otherKey : Column) (others : List Column) : Prop where
  plain : info.IsPlain
  root : info.relation = none
  childPlain : child.IsPlain
  batch : child.relation = some (.batch thisKey parentKey)
  many : child.many = true
  columns : Identified key (key :: rest ++ parentKey :: after)
  childColumns : Identified otherKey (otherKey :: others)
  parentKey : Stands (key :: rest ++ parentKey :: after) parentKey
  thisKey : Stands (otherKey :: others) thisKey

theorem BatchedTables.batchKeys?
    (htables : BatchedTables info child thisKey parentKey key rest after otherKey others) :
    (columnTable child (otherKey :: others)).info.batchKeys? = some (thisKey, parentKey) := by
  simp [columnTable, TableInfo.batchKeys?, htables.batch]

theorem BatchedTables.isBoundary
    (htables : BatchedTables info child thisKey parentKey key rest after otherKey others) :
    (columnTable child (otherKey :: others)).info.isBoundary = true := by
  rw [TableInfo.isBoundary, htables.batchKeys?]
  rfl

theorem exists_rows_of_parent
    (htables : BatchedTables info child thisKey parentKey key rest after otherKey others)
    (dialect : Dialect) (context : Context)
    (hkeyed : Keyed (database.table info.reference) key.name) :
    ∃ select rows,
      (parentTable info (key :: rest) after (columnTable child (otherKey :: others))).statement
          ⟨context, dialect, []⟩ = .ok (some select) ∧
        database.rows? select = some rows ∧
        (parentTable info (key :: rest) after
            (columnTable child (otherKey :: others))).shape.nest rows =
          Shape.ofObjects info.many ((database.table info.reference).map
            (record (key :: rest ++ parentKey :: after))) := by
  refine ⟨_, _, statement_parent_of_batch htables.plain htables.root htables.batchKeys?
      htables.columns.owner,
    rows?_table (isColumn_of_mem_distinctItems fun _ => isColumn_of_mem_columnItems)
      (fun _ => rfl), ?_⟩
  have hall : ((database.table info.reference).filter fun _ => isTrue (.bool true)) =
      database.table info.reference :=
    List.filter_eq_self.mpr fun _ _ => rfl
  rw [shape_parentTable_of_batch htables.batchKeys?, hall]
  apply nest_records info.many htables.columns _ hkeyed
  intro row _
  have hcarries := @carries_fetched info.aliasName [info.aliasName]
    (key :: rest ++ parentKey :: after) [(info.aliasName, row)] dialect _
    htables.columns.toLayered (fun _ _ => rfl)
  simpa [Assoc.get?] using hcarries

/-- The records of a table, before the batch is fetched. -/
theorem mem_parentKeys_records {columns : List Column} (hparent : Stands columns parentKey)
    (hplain : info.IsPlain) (table : Table Node)
    {rows : List Object} {entry : String × Json} :
    entry ∈ parentKeys (Shape.ofObjects info.many (rows.map (record columns)))
        ⟨table, (objectPaths (Shape.ofObjects info.many (rows.map (record columns))) []
          info).map ofPath⟩ parentKey ↔
      ∃ row ∈ shown info.many rows, keyText? (Shape.cell row parentKey.name) = some entry.1 ∧
        Shape.cell row parentKey.name = entry.2 := by
  rw [parentKeys_eq_parentsAt, parentsAt_ofObjects hplain.paginate, ← Function.comp_def,
    ← List.filterMap_map, snd_rootParents, shown_map, List.map_map, List.filterMap_map,
    List.mem_filterMap]
  obtain ⟨text, key⟩ := entry
  simp only [Function.comp_apply, keyOf?_record hparent, Option.map_eq_some_iff,
    Prod.mk.injEq]
  constructor
  · rintro ⟨row, hrow, found, hfound, rfl, hkey⟩
    exact ⟨row, hrow, hfound, hkey⟩
  · rintro ⟨row, hrow, htext, hkey⟩
    exact ⟨row, hrow, text, htext, rfl, hkey⟩

/-- Data without a place for a parent shows no records. -/
theorem shown_eq_nil (hplain : info.IsPlain) {columns : List Column} {rows : List Object}
    (h : objectPaths (Shape.ofObjects info.many (rows.map (record columns))) [] info = []) :
    shown info.many rows = [] := by
  have hparents := congrArg (List.map Prod.snd)
    (parentsAt_ofObjects hplain.paginate info.many (rows.map (record columns)))
  rw [h, snd_rootParents, shown_map] at hparents
  simpa [parentsAt] using hparents.symm

section Filled

variable {rows : List Object} {scope : List Json}

theorem levelBoundaries_parentTable {table : Table Node} {data : Json} {paths : List Path}
    (hboundary : table.info.isBoundary = true) (hne : paths ≠ []) :
    levelBoundaries data [⟨parentTable info (key :: rest) after table, paths.map ofPath⟩] =
      [⟨table, paths.map ofPath⟩] := by
  have hsome : (paths.map ofPath).isEmpty = false := by simpa using hne
  rw [levelBoundaries, List.flatMap_singleton, Table.boundaries_eq, hsome,
    if_neg Bool.false_ne_true, tables_parentTable, List.flatMap_singleton, Node.boundaries_table,
    if_pos hboundary]

/-- Every record shown gets the list of the records that have its key. -/
theorem putAll_records {columns : List Column} (hparent : Stands columns parentKey)
    (hthis : Stands others thisKey)
    (hsame : ∀ key ∈ scope, ∀ other ∈ database.table child.reference,
      isTrue (equal (Shape.cell other thisKey.name) key) =
        matched key (Shape.cell other thisKey.name))
    (hscope : ∀ row ∈ shown info.many rows, ∀ text,
      keyText? (Shape.cell row parentKey.name) = some text →
        ∃ key ∈ scope, keyText? key = some text) :
    putAll child.fieldName ((rootParents info.many (rows.map (record columns))).map fun parent =>
        (parent.1, .array (matching thisKey parentKey
          ((batchedRows database child thisKey scope).map fun other =>
            .object (record others other)) parent.2)))
        (Shape.ofObjects info.many (rows.map (record columns))) =
      Shape.ofObjects info.many (rows.map fun row => recordWith columns child.fieldName others
        (matchedRows database child thisKey parentKey row) row) := by
  rw [putAll_rootParents child.fieldName fun parent => .array (matching thisKey parentKey
    ((batchedRows database child thisKey scope).map fun other => .object (record others other))
      parent), List.map_map]
  apply ofObjects_map_congr
  intro row hrow
  have hfound := filter_batchedRows hsame (hscope row hrow)
  rw [Function.comp_apply, matching_records hparent hthis, hfound, recordWith,
    Shape.ofObjects, List.map_map]
  rfl

/-- Splicing a batch for the keys shown gives every record its list. -/
theorem splice_records {columns : List Column} {table : Table Node} (hplain : info.IsPlain)
    (htable : table.info.IsPlain) (hmany : table.info.many = true)
    (hkeys : table.info.batchKeys? = some (thisKey, parentKey))
    (hparent : Stands columns parentKey) (hthis : Stands others thisKey)
    (hsame : ∀ key ∈ scope, ∀ other ∈ database.table table.info.reference,
      isTrue (equal (Shape.cell other thisKey.name) key) =
        matched key (Shape.cell other thisKey.name))
    (hscope : ∀ row ∈ shown info.many rows, ∀ text,
      keyText? (Shape.cell row parentKey.name) = some text →
        ∃ key ∈ scope, keyText? key = some text) :
    ∃ fetched : Located, fetched.table = table ∧
      splice (Shape.ofObjects info.many (rows.map (record columns)))
          ⟨table, (objectPaths (Shape.ofObjects info.many (rows.map (record columns))) []
            info).map ofPath⟩
          (groupByKey thisKey ((batchedRows database table.info thisKey scope).map fun other =>
            .object (record others other))) =
        .ok (Shape.ofObjects info.many (rows.map fun row =>
          recordWith columns table.info.fieldName others
            (matchedRows database table.info thisKey parentKey row) row), fetched) := by
  have hplaced : (⟨table, (objectPaths (Shape.ofObjects info.many (rows.map (record columns)))
      [] info).map ofPath⟩ : Located).Placed :=
    Located.Placed.mk_map (pairwise_objectPaths _ [] info)
  have hparents := parentsAt_ofObjects hplain.paginate info.many (rows.map (record columns))
  have hvalues := @fieldValues_groupByKey table.info thisKey parentKey htable.paginate hmany
    ((batchedRows database table.info thisKey scope).map fun other =>
      .object (record others other))
    (rootParents info.many (rows.map (record columns)))
  have hfilled := putAll_records hparent hthis hsame hscope
  have hspliced := splice_eq hkeys hplaced (groupByKey thisKey
    ((batchedRows database table.info thisKey scope).map fun other =>
      .object (record others other))) (Shape.ofObjects info.many (rows.map (record columns)))
  rw [Located.paths_mk, hparents] at hspliced
  change _ = (fieldValues table.info parentKey _ _).map _ at hspliced
  rw [hvalues] at hspliced
  change _ = Except.ok (putAll table.info.fieldName _ _, _) at hspliced
  rw [hfilled] at hspliced
  exact ⟨_, rfl, hspliced⟩

end Filled

theorem outcome_fillBatches
    (htables : BatchedTables info child thisKey parentKey key rest after otherKey others)
    (hkeyedOther : Keyed (database.table child.reference) otherKey.name) (rows : List Object)
    (hsame : ∀ row ∈ rows, ∀ other ∈ database.table child.reference,
      isTrue (equal (Shape.cell other thisKey.name) (Shape.cell row parentKey.name)) =
        matched (Shape.cell row parentKey.name) (Shape.cell other thisKey.name))
    (hbatches : ∀ scope, KeysOf rows parentKey.name scope →
      Evaluates executor database (columnTable child (otherKey :: others))
        ⟨context, dialect, scope⟩) (sent : List String) :
    ∃ statements,
      ((parentTable info (key :: rest) after
          (columnTable child (otherKey :: others))).fillBatches executor dialect context
            (Shape.ofObjects info.many
              (rows.map (record (key :: rest ++ parentKey :: after))))).outcome sent =
        (.ok (Shape.ofObjects info.many (rows.map fun row =>
          recordWith (key :: rest ++ parentKey :: after) child.fieldName (otherKey :: others)
            (matchedRows database child thisKey parentKey row) row)), statements) := by
  have hobjects (data : Json) : objectsAt data "" info = (objectPaths data [] info).map ofPath := by
    rw [← objectsAt_ofPath, Json.Pointer.ofPath_nil]
  obtain ⟨height, hheight⟩ := Nat.exists_eq_succ_of_ne_zero (Table.height_pos
    (parentTable info (key :: rest) after (columnTable child (otherKey :: others)))).ne'
  rw [Table.fillBatches, hheight]
  change ∃ statements, (fillLevels executor dialect context (height + 1)
    [⟨_, objectsAt _ "" info⟩] _).outcome sent = _
  rw [hobjects]
  have hkeysOf := @mem_parentKeys_records info parentKey _ htables.parentKey htables.plain
    (columnTable child (otherKey :: others)) rows
  by_cases hnone : objectPaths (Shape.ofObjects info.many
      (rows.map (record (key :: rest ++ parentKey :: after)))) [] info = []
  · -- no parent is shown, so there is nothing to fetch
    have hshown := shown_eq_nil htables.plain hnone
    refine ⟨sent, ?_⟩
    rw [hnone, fillLevels_eq_pure (by simp [levelBoundaries, Table.boundaries_eq]),
      Session.outcome_pure, ofObjects_map_congr]
    simp [hshown]
  · have hscope := keysOf_batchScope htables.batchKeys? fun entry hentry => by
      obtain ⟨row, hrow, -, hkey⟩ := hkeysOf.mp hentry
      exact ⟨row, mem_of_mem_shown hrow, hkey⟩
    obtain ⟨statements, hfetched⟩ := outcome_fetchBatch_plain htables.childPlain htables.batch
      htables.childColumns hkeyedOther (hbatches _ hscope) sent
    obtain ⟨fetched, htable, hspliced⟩ := @splice_records database info _ _ _ rows _ _ _
      htables.plain htables.childPlain htables.many htables.batchKeys? htables.parentKey
      htables.thisKey
      (fun key hkey other hother => by
        obtain ⟨row, hrow, rfl⟩ := hscope.key key hkey
        exact hsame row hrow other hother)
      (fun row hrow text htext => by
        have hentry := (@hkeysOf (text, Shape.cell row parentKey.name)).mpr ⟨row, hrow, htext, rfl⟩
        exact exists_mem_batchScope htables.batchKeys? hentry)
    refine ⟨statements, outcome_fillLevels_single
      (levelBoundaries_parentTable htables.isBoundary hnone) hfetched hspliced ?_ height⟩
    simp [levelBoundaries, htable, boundaries_columnTable]

/-- The data of a table with another one fetched after it. -/
theorem outcome_fetch_batched
    (htables : BatchedTables info child thisKey parentKey key rest after otherKey others)
    (hkeyed : Keyed (database.table info.reference) key.name)
    (hkeyedOther : Keyed (database.table child.reference) otherKey.name)
    (hsame : ∀ row ∈ database.table info.reference, ∀ other ∈ database.table child.reference,
      isTrue (equal (Shape.cell other thisKey.name) (Shape.cell row parentKey.name)) =
        matched (Shape.cell row parentKey.name) (Shape.cell other thisKey.name))
    (hevaluates : Evaluates executor database
      (parentTable info (key :: rest) after (columnTable child (otherKey :: others)))
      ⟨context, dialect, []⟩)
    (hbatches : ∀ scope, KeysOf (database.table info.reference) parentKey.name scope →
      Evaluates executor database (columnTable child (otherKey :: others))
        ⟨context, dialect, scope⟩) (sent : List String) :
    ∃ statements,
      ((parentTable info (key :: rest) after
          (columnTable child (otherKey :: others))).fetch executor dialect context).outcome sent =
        (.ok (some (Shape.ofObjects info.many ((database.table info.reference).map fun row =>
          recordWith (key :: rest ++ parentKey :: after) child.fieldName (otherKey :: others)
            (matchedRows database child thisKey parentKey row) row))), statements) := by
  obtain ⟨select, rows, hstatement, hrows, hnest⟩ :=
    exists_rows_of_parent htables dialect context hkeyed
  have hdata := rootData_parentTable htables.plain hnest
    (fun object _ => resolveUnions_of_boundary htables.isBoundary object)
    (fun object _ => connect_of_boundary htables.isBoundary object)
  obtain ⟨statements, hfilled⟩ := outcome_fillBatches htables hkeyedOther _ hsame hbatches
    (sent ++ [select.render dialect])
  refine ⟨statements, ?_⟩
  rw [outcome_fetch hevaluates hstatement hrows hdata, Session.outcome_map, hfilled]
  rfl

end Batched

end JoinPlan.Plan
