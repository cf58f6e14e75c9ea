import JoinPlan.Proofs.Plan.PlainColumns

/-!
# Compiling a table with another one below it

Columns are selected of a type, and of the type of one of its list fields.  The plan is one
table with the other among its columns, whichever way the other is reached and however often
the field is selected: what is selected again is added to the table already there.
-/

namespace JoinPlan.Plan

/-- A type backed by a table whose rows are told from each other by one column. -/
structure RowType where
  name : String
  type : TypeDefinition
  table : TableOptions
  key : String

/-- An object type, no interface and no connection, with a table whose rows have one key
column. -/
structure RowType.IsIn (schema : Schema) (rows : RowType) : Prop where
  found : schema.type? rows.name = some rows.type
  kind : rows.type.kind = .object
  notConnection : rows.type.isConnection = false
  table : rows.type.table = some rows.table
  key : rows.table.uniqueKey = .one rows.key

/-- A field whose rows are those of a type, as they are. -/
structure RowField where
  name : String
  ref : TypeRef
  options : FieldOptions
  rows : RowType

structure RowField.IsIn (type : TypeDefinition) (field : RowField) : Prop where
  notReserved : isReserved field.name = false
  definition : type.field? field.name = some ⟨field.ref, field.options⟩
  target : field.ref.namedType = field.rows.name
  bare : field.options.IsBare

/-- The field where it is selected. -/
def RowField.tableField (field : RowField) (args : Arguments) : TableField where
  name := field.name
  args := args
  options := field.options
  typeName := field.rows.name
  kind := field.rows.type.kind
  table := field.rows.table
  many := field.ref.isList
  paginate := false

/-- How the rows of a field are reached, given the aliases there are; `keys` are the columns
this needs, of which `last` is fetched after all others. -/
structure ReachedBy (env : Environment) (options : FieldOptions)
    (reach : Namespace → Option Relation) (keys last : List (String × String)) : Prop where
  run : ∀ (field : TableField) (names : Namespace), field.options = options →
    ∃ after, relation env field names = .ok ((reach after, []), after) ∧ Supplies names keys after
  grows : ∀ {names after : Namespace}, names.Grows after →
    (∀ entry ∈ keys, names.Knows entry.1) → reach after = reach names
  direct : ∀ names, relationJunction? (reach names) = none
  lastColumns : ∀ (info : TableInfo) (names : Namespace), info.relation = reach names →
    lastColumns info none = columnNodes (columnsUnder names last)
  subset : last ⊆ keys

section ReachedBy

variable {env : Environment} {options : FieldOptions}

theorem reachedBy_root (hbare : options.IsBare) (hjoin : options.sqlJoin = none)
    (hbatch : options.sqlBatch = none) : ReachedBy env options (fun _ => none) [] [] where
  run field names hoptions := by
    refine ⟨names, ?_, .nothing names⟩
    simp [relation, hoptions, hjoin, hbatch, hbare.junction]
    rfl
  grows _ _ := rfl
  direct _ := rfl
  lastColumns info names h := by
    simp [Plan.lastColumns, TableInfo.batchKeys?, h, columnNodes, columnsUnder]
  subset := List.Subset.refl _

theorem reachedBy_join {condition : JoinCondition} (hjoin : options.sqlJoin = some condition) :
    ReachedBy env options (fun _ => some (.join condition)) [] [] where
  run field names hoptions := by
    refine ⟨names, ?_, .nothing names⟩
    simp [relation, hoptions, hjoin]
    rfl
  grows _ _ := rfl
  direct _ := rfl
  lastColumns info names h := by
    simp [Plan.lastColumns, TableInfo.batchKeys?, h, columnNodes, columnsUnder]
  subset := List.Subset.refl _

theorem reachedBy_batch {batch : BatchOption} (hbare : options.IsBare)
    (hjoin : options.sqlJoin = none) (hbatch : options.sqlBatch = some batch) :
    ReachedBy env options
      (fun names => some (.batch (columnUnder names (batch.thisKey, batch.thisKey))
        (columnUnder names (batch.parentKey, batch.parentKey))))
      (ownEntries [batch.thisKey, batch.parentKey]) (ownEntries [batch.thisKey]) where
  run field names hoptions := by
    have hthis := names.grows_column batch.thisKey
    have hkept := ((names.column batch.thisKey).2.grows_column batch.parentKey).known batch.thisKey
      (names.knows_column batch.thisKey)
    refine ⟨((names.column batch.thisKey).2.column batch.parentKey).2, ?_,
      (Supplies.one names (batch.thisKey, batch.thisKey)).append
        (Supplies.one _ (batch.parentKey, batch.parentKey))⟩
    simp only [relation, hoptions, hjoin, hbatch, hbare.junction]
    rw [Compile.run_bind (ownColumn_run _ _), Compile.run_bind (ownColumn_run _ _), columnUnder,
      columnUnder, hkept.2, names.column_column, Namespace.column_column]
    rfl
  grows hgrows hknown := by
    have hthis := (hgrows.known batch.thisKey (hknown (batch.thisKey, batch.thisKey) (by
      simp [ownEntries]))).2
    have hparent := (hgrows.known batch.parentKey (hknown (batch.parentKey, batch.parentKey) (by
      simp [ownEntries]))).2
    simp only [columnUnder, hthis, hparent]
  direct _ := rfl
  lastColumns info names h := by
    simp [Plan.lastColumns, TableInfo.batchKeys?, h, columnNodes, columnsUnder, ownEntries,
      columnUnder]
  subset := by simp [ownEntries]

end ReachedBy

/-! ### Tables of columns -/

/-- The scope of what is selected on a type's rows. -/
def RowType.scope (rows : RowType) : Scope := ⟨rows.name, rows.type, none⟩

section Columns

variable {env : Environment} {fragments : Fragments} {scope : Scope} {names : Namespace}
  {field : RowField} {args : Arguments} {selections : List Selection} {nested : Bool}
  {fill : Place → Scope → Children → Compile Children} {reach : Namespace → Option Relation}
  {keys last : List (String × String)}

theorem compileField_rows (existing : Option (Table Node)) (hrows : field.rows.IsIn env.schema)
    (hfield : field.IsIn scope.type) (hjunction : scope.junction = none)
    (hrelation : checkRelation nested field.options field.name scope.typeName = .ok ()) :
    compileField env fragments scope nested none existing field.name args selections fill names =
      compileTable env (field.tableField args) field.rows.type existing (fill .rows) names := by
  have hscoped : scope.field? field.name = some ⟨field.ref, field.options, none⟩ := by
    simp [Scope.field?, hfield.definition, hjunction]
  have htarget := @fieldTarget_eq fragments env.schema field.name
    ⟨field.ref, field.options, none⟩ selections hfield.bare.sqlPaginate (by
      intro type htype
      rw [hfield.target, hrows.found] at htype
      rw [← Option.some.inj htype, hrows.notConnection, Bool.and_false])
  rw [hfield.target] at htarget
  have hbacking : backingTable? env.schema field.rows.name field.options =
      some (field.rows.type, field.rows.table) := by
    simp [backingTable?, hrows.found, hrows.table, hrows.kind, TypeKind.isComposite,
      hfield.bare.ignoreTable]
  rw [compileField_of_table hfield.notReserved hscoped hfield.bare.ignoreAll htarget hbacking
    hrelation]
  rfl

/-- A new table, once what is selected on it is compiled. -/
theorem compileTable_new {info : TableInfo} {columns : List Column} {children : Children}
    {tableField : TableField} {type : TypeDefinition} {fill : Scope → Children → Compile Children}
    {between after : Namespace}
    (hnew : newTable env tableField names = .ok (columnTable info columns, between))
    (hdirect : info.junction? = none) (habstract : info.isAbstract = tableField.kind.isAbstract)
    (hfill : fill ⟨tableField.typeName, type, none⟩ ⟨columnNodes columns, []⟩ between =
      .ok (children, after)) :
    compileTable env tableField type none fill names =
      .ok (.table ⟨info, children.shared ++ lastColumns info none, children.typed⟩, after) := by
  have htable : tableOf env tableField none names = .ok (columnTable info columns, between) := hnew
  have hscope : (columnTable info columns).info.junction? = none := hdirect
  rw [compileTable, Compile.run_bind htable]
  simp only [hscope]
  dsimp only [columnTable]
  rw [Compile.run_bind hfill, ← habstract]
  rfl

/-- A table that was selected before, once what is selected again is compiled. -/
theorem compileTable_again {table : Table Node} {children : Children} {tableField : TableField}
    {type : TypeDefinition} {fill : Scope → Children → Compile Children} {after : Namespace}
    (hdirect : table.info.junction? = none)
    (habstract : table.info.isAbstract = tableField.kind.isAbstract)
    (hfill : fill ⟨tableField.typeName, type, none⟩ ⟨table.shared, table.typed⟩ names =
      .ok (children, after)) :
    compileTable env tableField type (some table) fill names =
      .ok (.table ⟨table.info, children.shared, children.typed⟩, after) := by
  have htable : tableOf env tableField (some table) names = .ok (table, names) := rfl
  rw [compileTable, Compile.run_bind htable]
  simp only [hdirect]
  rw [Compile.run_bind hfill, ← habstract, lastColumns, List.append_nil]
  rfl

/-- The columns fetched for a field's rows whatever is selected on them. -/
def RowField.ownEntries (env : Environment) (field : RowField) (args : Arguments)
    (aliasName : String) : List (String × String) :=
  (field.rows.key, field.rows.key) :: alwaysEntries env (field.tableField args) aliasName

/-- What a field's table says besides its children. -/
def RowField.info (env : Environment) (field : RowField) (args : Arguments) (aliasName : String)
    (relation : Option Relation) : TableInfo :=
  (field.tableField args).info env aliasName relation

theorem newTable_rows (hrows : field.rows.IsIn env.schema) (hbare : field.options.IsBare)
    (hreached : ReachedBy env field.options reach keys last) (args : Arguments)
    (names : Namespace) :
    ∃ after, newTable env (field.tableField args) names =
        .ok (columnTable (field.info env args (names.table field.name).1 (reach after))
          (columnsUnder after (field.ownEntries env args (names.table field.name).1)), after) ∧
      Supplies (names.table field.name).2
        (keys ++ field.ownEntries env args (names.table field.name).1) after := by
  obtain ⟨between, hrelation, hkeys⟩ :=
    hreached.run (field.tableField args) (names.table field.name).2 rfl
  obtain ⟨after, hnew, hown⟩ := @newTable_run env (field.tableField args) names between
    field.rows.key (reach between) hbare rfl hrows.key hrelation (hreached.direct between)
  refine ⟨after, ?_, hkeys.append hown⟩
  rw [hreached.grows hown.grows hkeys.known]
  exact hnew

/-- What a table of columns fetches: its own columns, those selected, and those its relation
needs. -/
def RowField.entries (env : Environment) (field : RowField) (args : Arguments)
    (aliasName : String) (listed : List Occurrence) (last : List (String × String)) :
    List (String × String) :=
  field.ownEntries env args aliasName ++ (selectedEntries field.rows.type listed ++ last)

/-- A field of whose type columns are selected. -/
theorem compileField_columns {listed : List Occurrence} (hrows : field.rows.IsIn env.schema)
    (hfield : field.IsIn scope.type) (hjunction : scope.junction = none)
    (hrelation : checkRelation nested field.options field.name scope.typeName = .ok ())
    (hreached : ReachedBy env field.options reach keys last)
    (hfill : ∀ children, fill .rows field.rows.scope children =
      listed.foldlM (selectField env fragments field.rows.scope) children)
    (hcolumns : ∀ occurrence ∈ listed,
      field.rows.type.HasColumn env.schema occurrence.name) :
    ∃ after, compileField env fragments scope nested none none field.name args selections fill
        names = .ok (.table (columnTable
          (field.info env args (names.table field.name).1 (reach after))
          (columnsUnder after
            (field.entries env args (names.table field.name).1 listed last))), after) ∧
      Supplies (names.table field.name).2
        (keys ++ field.entries env args (names.table field.name).1 listed last) after := by
  obtain ⟨between, hnew, hown⟩ := newTable_rows hrows hfield.bare hreached args names
  obtain ⟨after, hselect, hselected⟩ := @foldlM_columns env fragments field.rows.scope between
    ⟨columnNodes (columnsUnder between (field.ownEntries env args (names.table field.name).1)), []⟩
    listed hrows.kind rfl hcolumns (by
      intro occurrence _ node hnode
      obtain ⟨column, -, rfl⟩ := List.mem_map.mp hnode
      rfl)
  rw [← hfill] at hselect
  have hall := hown.append hselected
  have hagain : Supplies after last after :=
    (supplied_of_known fun entry hentry =>
      hall.known entry (by simp [hreached.subset hentry])).symm
  refine ⟨after, ?_, ?_⟩
  · have hkept : reach after = reach between :=
      hreached.grows hselected.grows fun entry hentry => hown.known entry (by simp [hentry])
    have hlast := hreached.lastColumns
      (field.info env args (names.table field.name).1 (reach after)) after rfl
    have hcolumns : columnsUnder after (field.ownEntries env args (names.table field.name).1) =
        columnsUnder between (field.ownEntries env args (names.table field.name).1) :=
      columnsUnder_of_grows hselected.grows fun entry hentry => hown.known entry (by simp [hentry])
    rw [compileField_rows none hrows hfield hjunction hrelation,
      compileTable_new hnew (hreached.direct between) rfl hselect, ← hkept, hlast]
    simp only [columnTable, RowField.entries, columnsUnder_append, columnNodes_append, hcolumns,
      List.append_assoc]
    rfl
  · have hsupplied := hall.append hagain
    rw [List.append_assoc, List.append_assoc] at hsupplied
    exact hsupplied

end Columns

/-! ### A table among columns -/

/-- The children of a table that fetches columns and one other table. -/
def nestedChildren (info : TableInfo) (before after columns : List Column) : Children :=
  ⟨columnNodes before ++ .table (columnTable info columns) :: columnNodes after, []⟩

/-- The fields below an occurrence, none when a fragment is not defined. -/
def RowField.below (fragments : Fragments) (field : RowField) (occurrence : Occurrence) :
    List Occurrence :=
  (occurrences? fragments field.rows.scope occurrence.depth occurrence.selections).getD []

/-- What is selected on a type is its columns, and one field with columns of its rows. -/
structure RowField.SelectsColumns (schema : Schema) (fragments : Fragments)
    (type : TypeDefinition) (field : RowField) (occurrence : Occurrence) : Prop where
  column : occurrence.name ≠ field.name → type.HasColumn schema occurrence.name
  below : occurrence.name = field.name → ∃ listed,
    occurrences? fragments field.rows.scope occurrence.depth occurrence.selections =
      some listed ∧ ∀ other ∈ listed, field.rows.type.HasColumn schema other.name

/-- The columns among what is selected. -/
def RowField.columnsBeside (field : RowField) (type : TypeDefinition) (listed : List Occurrence) :
    List (String × String) :=
  selectedEntries type (listed.filter fun occurrence => occurrence.name != field.name)

/-- The columns of the field's rows among what is selected. -/
def RowField.columnsBelow (fragments : Fragments) (field : RowField)
    (listed : List Occurrence) : List (String × String) :=
  selectedEntries field.rows.type
    ((listed.filter fun occurrence => occurrence.name == field.name).flatMap
      (field.below fragments))

section Nested

variable {env : Environment} {fragments : Fragments} {scope : Scope} {names : Namespace}
  {field : RowField} {occurrence : Occurrence} {reach : Namespace → Option Relation}
  {keys last before after others : List (String × String)} {aliasName : String} {args : Arguments}

theorem isTableOf_columnNodes (name : String) (columns : List Column) :
    ∀ node ∈ columnNodes columns, isTableOf name node = false := by
  intro node hnode
  obtain ⟨column, -, rfl⟩ := List.mem_map.mp hnode
  rfl

theorem isTableOf_nestedChildren {info : TableInfo} {name : String} (hname : name ≠ info.fieldName)
    (before after columns : List Column) :
    ∀ node ∈ (nestedChildren info before after columns).shared, isTableOf name node = false := by
  intro node hnode
  rcases List.mem_append.mp hnode with hbefore | hrest
  · exact isTableOf_columnNodes name before node hbefore
  rcases List.mem_cons.mp hrest with rfl | hafter
  · exact beq_eq_false_iff_ne.mpr hname.symm
  · exact isTableOf_columnNodes name after node hafter

theorem findIdx?_nestedChildren (info : TableInfo) (before after columns : List Column) :
    (nestedChildren info before after columns).shared.findIdx? (isTableOf info.fieldName) =
      some before.length := by
  have hbefore : (columnNodes before).findIdx? (isTableOf info.fieldName) = none :=
    List.findIdx?_eq_none_iff.mpr (isTableOf_columnNodes _ _)
  have htable : isTableOf info.fieldName (.table (columnTable info columns)) = true :=
    beq_self_eq_true _
  rw [nestedChildren, List.findIdx?_append, hbefore, List.findIdx?_cons, htable]
  simp [columnNodes]

theorem getElem?_nestedChildren (info : TableInfo) (before after columns : List Column) :
    (nestedChildren info before after columns).shared[before.length]? =
      some (.table (columnTable info columns)) := by
  simp [nestedChildren, columnNodes]

/-- The table is put back with its children. -/
theorem set_nestedChildren (info : TableInfo) (before after columns others : List Column) :
    (nestedChildren info before after columns).shared.set before.length
        (.table (columnTable info others)) =
      (nestedChildren info before after others).shared := by
  simp [nestedChildren, columnNodes]

/-- The children with a field's table among them, given the aliases there are. -/
def RowField.children (env : Environment) (field : RowField) (args : Arguments)
    (aliasName : String) (reach : Namespace → Option Relation)
    (before after others : List (String × String)) (names : Namespace) : Children :=
  nestedChildren (field.info env args aliasName (reach names)) (columnsUnder names before)
    (columnsUnder names after) (columnsUnder names others)

theorem RowField.children_of_grows (hreached : ReachedBy env field.options reach keys last)
    {later : Namespace} (hgrows : names.Grows later)
    (hknown : ∀ entry ∈ keys ++ before ++ after ++ others, names.Knows entry.1) :
    field.children env args aliasName reach before after others later =
      field.children env args aliasName reach before after others names := by
  simp only [List.mem_append] at hknown
  rw [RowField.children, RowField.children,
    hreached.grows hgrows fun entry hentry => hknown entry (by simp [hentry]),
    columnsUnder_of_grows hgrows fun entry hentry => hknown entry (by simp [hentry]),
    columnsUnder_of_grows hgrows fun entry hentry => hknown entry (by simp [hentry]),
    columnsUnder_of_grows hgrows fun entry hentry => hknown entry (by simp [hentry])]

/-- The table is put back with more columns, in the children there are by then. -/
theorem RowField.set_children (args : Arguments) (aliasName : String)
    (hreached : ReachedBy env field.options reach keys last) {later : Namespace}
    (hgrows : names.Grows later)
    (hknown : ∀ entry ∈ keys ++ before ++ after ++ others, names.Knows entry.1)
    (entries : List (String × String)) :
    (field.children env args aliasName reach before after others later).shared.set
        (columnsUnder names before).length
        (.table (columnTable (field.info env args aliasName (reach names))
          (columnsUnder names others ++ columnsUnder later entries))) =
      (field.children env args aliasName reach before after (others ++ entries) later).shared := by
  have hreach : reach later = reach names :=
    hreached.grows hgrows fun entry hentry => hknown entry (by simp [hentry])
  have hothers : columnsUnder later others = columnsUnder names others :=
    columnsUnder_of_grows hgrows fun entry hentry => hknown entry (by simp [hentry])
  have hplace : (columnsUnder names before).length = (columnsUnder later before).length := by
    simp [columnsUnder]
  rw [RowField.children, RowField.children, hplace, hreach, set_nestedChildren,
    columnsUnder_append, hothers]

/-- The table is put after the columns there are. -/
theorem selectField_new (hjunction : scope.junction = none) (hrows : field.rows.IsIn env.schema)
    (hfield : field.IsIn scope.type)
    (hrelation : checkRelation true field.options field.name scope.typeName = .ok ())
    (hreached : ReachedBy env field.options reach keys last)
    (hname : occurrence.name = field.name) {listed : List Occurrence}
    (hlisted : occurrences? fragments field.rows.scope occurrence.depth occurrence.selections =
      some listed)
    (hcolumns : ∀ other ∈ listed, field.rows.type.HasColumn env.schema other.name)
    (hknown : ∀ entry ∈ before, names.Knows entry.1) :
    ∃ later, selectField env fragments scope ⟨columnNodes (columnsUnder names before), []⟩
        occurrence names =
        .ok (field.children env occurrence.args (names.table field.name).1 reach before []
          (field.entries env occurrence.args (names.table field.name).1 listed last) later,
            later) ∧
      Supplies (names.table field.name).2
        (keys ++ field.entries env occurrence.args (names.table field.name).1 listed last)
        later := by
  obtain ⟨name, args, selections, depth⟩ := occurrence
  obtain rfl : name = field.name := hname
  obtain ⟨later, hcompiled, hsupplied⟩ := @compileField_columns env fragments scope names field
    args selections true (fun place scope children => select env fragments
      (selectSpread env fragments depth) place scope none selections children) reach keys last
    listed hrows hfield hjunction hrelation hreached
    (fun children => select_occurrences hrows.kind hlisted children) hcolumns
  refine ⟨later, ?_, hsupplied⟩
  have hindex : (columnNodes (columnsUnder names before)).findIdx? (isTableOf field.name) = none :=
    List.findIdx?_eq_none_iff.mpr (isTableOf_columnNodes _ _)
  have hkept : columnsUnder later before = columnsUnder names before :=
    columnsUnder_of_grows ((names.grows_table field.name).trans hsupplied.grows) hknown
  rw [selectField, selectOne]
  simp only [Children.bucket, hindex, Option.bind_none]
  rw [Compile.run_bind hcompiled, RowField.children, hkept]
  rfl

/-- A column is put after the table. -/
theorem selectField_beside (fragments : Fragments) (args : Arguments) (aliasName : String)
    (hkind : scope.type.kind = .object) (hjunction : scope.junction = none)
    (hreached : ReachedBy env field.options reach keys last)
    (hname : occurrence.name ≠ field.name)
    (hcolumn : scope.type.HasColumn env.schema occurrence.name)
    (hknown : ∀ entry ∈ keys ++ before ++ after ++ others, names.Knows entry.1) :
    ∃ later, selectField env fragments scope
        (field.children env args aliasName reach before after others names) occurrence names =
        .ok (field.children env args aliasName reach before
          (after ++ [(occurrence.name, scope.type.columnOf occurrence.name)]) others later,
            later) ∧
      Supplies names [(occurrence.name, scope.type.columnOf occurrence.name)] later := by
  have hgrows := names.grows_column occurrence.name
  refine ⟨(names.column occurrence.name).2, ?_, Supplies.one names (occurrence.name, _)⟩
  rw [← field.children_of_grows hreached hgrows hknown, RowField.children, RowField.children,
    selectField_column hkind hjunction hcolumn (isTableOf_nestedChildren hname _ _ _),
    columnsUnder_append]
  simp [nestedChildren, columnNodes, columnsUnder, columnUnder, Namespace.column_column]

/-- What is selected on the table again is put after its columns. -/
theorem selectField_below (args : Arguments) (aliasName : String)
    (hjunction : scope.junction = none) (hrows : field.rows.IsIn env.schema)
    (hfield : field.IsIn scope.type)
    (hrelation : checkRelation true field.options field.name scope.typeName = .ok ())
    (hreached : ReachedBy env field.options reach keys last)
    (hname : occurrence.name = field.name) {listed : List Occurrence}
    (hlisted : occurrences? fragments field.rows.scope occurrence.depth occurrence.selections =
      some listed)
    (hcolumns : ∀ other ∈ listed, field.rows.type.HasColumn env.schema other.name)
    (hknown : ∀ entry ∈ keys ++ before ++ after ++ others, names.Knows entry.1) :
    ∃ later, selectField env fragments scope
        (field.children env args aliasName reach before after others names) occurrence names =
        .ok (field.children env args aliasName reach before after
          (others ++ selectedEntries field.rows.type listed) later, later) ∧
      Supplies names (selectedEntries field.rows.type listed) later := by
  obtain ⟨name, otherArgs, selections, depth⟩ := occurrence
  obtain rfl : name = field.name := hname
  obtain ⟨later, hselect, hsupplied⟩ := @foldlM_columns env fragments field.rows.scope names
    ⟨columnNodes (columnsUnder names others), []⟩ listed hrows.kind rfl hcolumns
    fun other _ => isTableOf_columnNodes other.name _
  refine ⟨later, ?_, hsupplied⟩
  have hindex : (field.children env args aliasName reach before after others names).shared.findIdx?
      (isTableOf field.name) = some (columnsUnder names before).length :=
    findIdx?_nestedChildren (field.info env args aliasName (reach names)) _ _ _
  have htable : (field.children env args aliasName reach before after others
      names).shared[(columnsUnder names before).length]? =
        some (.table (columnTable (field.info env args aliasName (reach names))
          (columnsUnder names others))) :=
    getElem?_nestedChildren _ _ _ _
  have hcompiled := @compileTable_again env names
    (columnTable (field.info env args aliasName (reach names)) (columnsUnder names others)) _
    (field.tableField otherArgs) field.rows.type
    (fun scope children => select env fragments (selectSpread env fragments depth) .rows scope
      none selections children) later
    (hreached.direct names) rfl ((congrFun (select_occurrences hrows.kind hlisted _) names).trans
      hselect)
  rw [selectField, selectOne]
  simp only [Children.bucket, hindex, htable, Option.bind_some, Node.table?]
  rw [Compile.run_bind ((compileField_rows _ hrows hfield hjunction hrelation).trans hcompiled),
    ← field.children_of_grows hreached hsupplied.grows hknown]
  have hset := field.set_children args aliasName hreached hsupplied.grows hknown
    (selectedEntries field.rows.type listed)
  rw [columnTable, columnNodes_append] at hset
  exact congrArg (fun shared => Except.ok ((⟨shared, []⟩ : Children), later)) hset

theorem columnsBeside_cons_of_ne (type : TypeDefinition) (hname : occurrence.name ≠ field.name)
    (rest : List Occurrence) :
    field.columnsBeside type (occurrence :: rest) =
      (occurrence.name, type.columnOf occurrence.name) :: field.columnsBeside type rest := by
  simp [RowField.columnsBeside, selectedEntries, hname]

theorem columnsBeside_cons_of_eq (type : TypeDefinition) (hname : occurrence.name = field.name)
    (rest : List Occurrence) :
    field.columnsBeside type (occurrence :: rest) = field.columnsBeside type rest := by
  simp [RowField.columnsBeside, hname]

theorem columnsBelow_cons_of_ne (fragments : Fragments) (hname : occurrence.name ≠ field.name)
    (rest : List Occurrence) :
    field.columnsBelow fragments (occurrence :: rest) = field.columnsBelow fragments rest := by
  simp [RowField.columnsBelow, hname]

theorem columnsBelow_cons_of_eq (hname : occurrence.name = field.name) {listed : List Occurrence}
    (hlisted : occurrences? fragments field.rows.scope occurrence.depth occurrence.selections =
      some listed) (rest : List Occurrence) :
    field.columnsBelow fragments (occurrence :: rest) =
      selectedEntries field.rows.type listed ++ field.columnsBelow fragments rest := by
  simp [RowField.columnsBelow, hname, RowField.below, hlisted, selectedEntries]

/-- Fields selected beside a table and again on it are put after the columns there are. -/
theorem foldlM_nested (hkind : scope.type.kind = .object) (hjunction : scope.junction = none)
    (hrows : field.rows.IsIn env.schema) (hfield : field.IsIn scope.type)
    (hrelation : checkRelation true field.options field.name scope.typeName = .ok ())
    (hreached : ReachedBy env field.options reach keys last) {listed : List Occurrence}
    (hlisted : ∀ occurrence ∈ listed,
      field.SelectsColumns env.schema fragments scope.type occurrence)
    (hknown : ∀ entry ∈ keys ++ before ++ after ++ others, names.Knows entry.1) :
    ∃ later, listed.foldlM (selectField env fragments scope)
        (field.children env args aliasName reach before after others names) names =
        .ok (field.children env args aliasName reach before
          (after ++ field.columnsBeside scope.type listed)
          (others ++ field.columnsBelow fragments listed) later, later) ∧
      names.Grows later ∧
      ∀ entry ∈ keys ++ before ++ (after ++ field.columnsBeside scope.type listed) ++
        (others ++ field.columnsBelow fragments listed), later.Knows entry.1 := by
  induction listed generalizing names after others with
  | nil =>
      have hbeside : field.columnsBeside scope.type [] = [] := rfl
      have hbelow : field.columnsBelow fragments [] = [] := rfl
      rw [hbeside, hbelow, List.append_nil, List.append_nil]
      exact ⟨names, rfl, .refl names, hknown⟩
  | cons occurrence rest ih =>
      rw [List.forall_mem_cons] at hlisted
      by_cases hname : occurrence.name = field.name
      · obtain ⟨below, hbelow, hcolumns⟩ := hlisted.1.below hname
        obtain ⟨between, hfirst, hsupplied⟩ := selectField_below args aliasName hjunction
          hrows hfield hrelation hreached hname hbelow hcolumns hknown
        have hbetween : ∀ entry ∈ keys ++ before ++ after ++
            (others ++ selectedEntries field.rows.type below), between.Knows entry.1 := by
          apply hsupplied.known_all hknown
          intro entry hentry
          rw [← List.append_assoc] at hentry
          exact List.mem_append.mp hentry
        obtain ⟨later, hrest, hgrows, hall⟩ := ih hlisted.2 hbetween
        rw [columnsBeside_cons_of_eq _ hname, columnsBelow_cons_of_eq hname hbelow,
          ← List.append_assoc others]
        refine ⟨later, ?_, hsupplied.grows.trans hgrows, hall⟩
        rw [List.foldlM_cons, Compile.run_bind hfirst, hrest]
      · obtain ⟨between, hfirst, hsupplied⟩ := selectField_beside fragments args aliasName hkind
          hjunction hreached hname (hlisted.1.column hname) hknown
        have hbetween : ∀ entry ∈ keys ++ before ++
            (after ++ [(occurrence.name, scope.type.columnOf occurrence.name)]) ++ others,
              between.Knows entry.1 := by
          apply hsupplied.known_all hknown
          intro entry hentry
          simp only [List.mem_append] at hentry ⊢
          tauto
        obtain ⟨later, hrest, hgrows, hall⟩ := ih hlisted.2 hbetween
        rw [columnsBeside_cons_of_ne _ hname, columnsBelow_cons_of_ne _ hname,
          List.append_cons after]
        refine ⟨later, ?_, hsupplied.grows.trans hgrows, hall⟩
        rw [List.foldlM_cons, Compile.run_bind hfirst, hrest]

end Nested

end JoinPlan.Plan
