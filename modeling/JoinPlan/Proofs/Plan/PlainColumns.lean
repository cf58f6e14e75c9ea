import JoinPlan.Proofs.ColumnAliases
import JoinPlan.Proofs.Plan.Compiling
import JoinPlan.Proofs.Plan.Occurrences
import JoinPlan.Proofs.Plan.PlainTables

/-!
# Compiling columns

What compiling makes of fields that are columns, and of a table that is neither cut to pages
nor ordered: the columns it fetches, under aliases that the rest of the compiling keeps.
-/

namespace JoinPlan

/-- Options of a field whose rows are neither filtered nor ordered nor cut. -/
structure FieldOptions.IsBare (options : FieldOptions) : Prop where
  junction : options.junction = none
  condition : options.condition = none
  orderBy : options.orderBy = none
  limit : options.limit = none
  sqlPaginate : options.sqlPaginate = false
  ignoreTable : options.ignoreTable = false
  ignoreAll : options.ignoreAll = false

theorem FieldOptions.isBare_empty : FieldOptions.empty.IsBare :=
  ⟨rfl, rfl, rfl, rfl, rfl, rfl, rfl⟩

/-- How rows are related to their parents does not enter. -/
theorem FieldOptions.IsBare.related {options : FieldOptions} (h : options.IsBare)
    (sqlJoin : Option JoinCondition) (sqlBatch : Option BatchOption) :
    { options with sqlJoin, sqlBatch }.IsBare :=
  ⟨h.junction, h.condition, h.orderBy, h.limit, h.sqlPaginate, h.ignoreTable, h.ignoreAll⟩

/-- Whether a name is kept for asking about the types themselves. -/
def isReserved (name : String) : Bool := ['_', '_'].isPrefixOf name.toList

theorem not_prefix_of_not_reserved {name : String} (h : isReserved name = false) :
    ¬['_', '_'] <+: name.toList := by
  rw [← List.isPrefixOf_iff_prefix]
  exact Bool.eq_false_iff.mp h

/-- A field that is neither computed nor backed by a table of its own. -/
structure FieldDefinition.IsColumn (schema : Schema) (definition : FieldDefinition) : Prop where
  notIgnored : definition.options.ignoreAll = false
  notComputed : definition.options.sqlExpr = none
  notDerived : definition.options.sqlDeps = none
  notPaginated : definition.options.sqlPaginate = false
  notConnection : ∀ type, schema.type? definition.type.namedType = some type →
    (type.kind == .object && type.isConnection) = false
  notTable : Plan.backingTable? schema definition.type.namedType definition.options = none

/-- A field of a type the schema does not have is a column. -/
theorem FieldDefinition.isColumn_of_unknown {schema : Schema} {name : String}
    (h : schema.type? name = none) :
    FieldDefinition.IsColumn schema ⟨.named name, FieldOptions.empty⟩ where
  notIgnored := rfl
  notComputed := rfl
  notDerived := rfl
  notPaginated := rfl
  notConnection type htype := by simp [TypeRef.namedType, h] at htype
  notTable := by simp [Plan.backingTable?, TypeRef.namedType, h]

/-- A field of a type that is a column of its table. -/
structure TypeDefinition.HasColumn (schema : Schema) (type : TypeDefinition) (name : String) :
    Prop where
  notReserved : isReserved name = false
  definition : ∃ definition, type.field? name = some definition ∧ definition.IsColumn schema

/-- The column a field of a type is fetched from, if it is one. -/
def TypeDefinition.columnOf (type : TypeDefinition) (name : String) : String :=
  ((type.field? name).bind fun definition => definition.options.sqlColumn).getD name

namespace Plan

/-! ### Columns under their aliases -/

section Entries

variable {names between after : Namespace} {entries others : List (String × String)}

/-- A column under the alias it has; an entry is a property and the name of its column. -/
def columnUnder (names : Namespace) (entry : String × String) : Column :=
  ⟨entry.2, entry.1, (names.column entry.1).1, none⟩

theorem columnUnder_of_plain (hminify : names.minify = false)
    (name : String) : columnUnder names (name, name) = ⟨name, name, name, none⟩ := by
  rw [columnUnder, Namespace.column_of_plain hminify]

def columnsUnder (names : Namespace) (entries : List (String × String)) : List Column :=
  entries.map (columnUnder names)

/-- What a namespace becomes when columns are named. -/
def supplied (names : Namespace) (entries : List (String × String)) : Namespace :=
  entries.foldl (fun names entry => (names.column entry.1).2) names

theorem supplied_append (names : Namespace) (entries others : List (String × String)) :
    supplied names (entries ++ others) = supplied (supplied names entries) others :=
  List.foldl_append

theorem grows_supplied (names : Namespace) (entries : List (String × String)) :
    names.Grows (supplied names entries) := by
  induction entries generalizing names with
  | nil => exact .refl names
  | cons entry rest ih => exact (names.grows_column entry.1).trans (ih _)

theorem knows_supplied {entry : String × String} (hentry : entry ∈ entries) :
    (supplied names entries).Knows entry.1 := by
  induction entries generalizing names with
  | nil => cases hentry
  | cons first rest ih =>
      rcases List.mem_cons.mp hentry with rfl | hrest
      · exact ((grows_supplied _ rest).known entry.1 (names.knows_column entry.1)).1
      · exact ih hrest

/-- Columns that have their aliases need no others. -/
theorem supplied_of_known (hknown : ∀ entry ∈ entries, names.Knows entry.1) :
    supplied names entries = names := by
  induction entries with
  | nil => rfl
  | cons entry rest ih =>
      rw [List.forall_mem_cons] at hknown
      rw [supplied, List.foldl_cons, hknown.1]
      exact ih hknown.2

/-- The columns were named, one after the other. -/
def Supplies (names : Namespace) (entries : List (String × String)) (after : Namespace) : Prop :=
  after = supplied names entries

theorem Supplies.nothing (names : Namespace) : Supplies names [] names := rfl

theorem Supplies.one (names : Namespace) (entry : String × String) :
    Supplies names [entry] (names.column entry.1).2 := rfl

theorem Supplies.append (hfirst : Supplies names entries between)
    (hsecond : Supplies between others after) : Supplies names (entries ++ others) after := by
  rw [Supplies, supplied_append, ← hfirst]
  exact hsecond

theorem Supplies.grows (h : Supplies names entries after) : names.Grows after :=
  h ▸ grows_supplied names entries

theorem Supplies.known (h : Supplies names entries after) :
    ∀ entry ∈ entries, after.Knows entry.1 :=
  fun _ hentry => h ▸ knows_supplied hentry

/-- Columns are known when they were before, or are among those named. -/
theorem Supplies.known_all {earlier all : List (String × String)}
    (h : Supplies names entries after) (hearlier : ∀ entry ∈ earlier, names.Knows entry.1)
    (hall : ∀ entry ∈ all, entry ∈ earlier ∨ entry ∈ entries) :
    ∀ entry ∈ all, after.Knows entry.1 := by
  intro entry hentry
  rcases hall entry hentry with hold | hnew
  · exact (h.grows.known entry.1 (hearlier entry hold)).1
  · exact h.known entry hnew

theorem columnsUnder_append (names : Namespace) (entries others : List (String × String)) :
    columnsUnder names (entries ++ others) =
      columnsUnder names entries ++ columnsUnder names others :=
  List.map_append

/-- A column keeps its alias. -/
theorem columnUnder_of_grows (hgrows : between.Grows after) {entry : String × String}
    (hknown : between.Knows entry.1) : columnUnder after entry = columnUnder between entry := by
  rw [columnUnder, (hgrows.known entry.1 hknown).2]
  rfl

theorem columnsUnder_of_grows (hgrows : between.Grows after)
    (hknown : ∀ entry ∈ entries, between.Knows entry.1) :
    columnsUnder after entries = columnsUnder between entries :=
  List.map_congr_left fun entry hentry => columnUnder_of_grows hgrows (hknown entry hentry)

/-- A column that was named before the others. -/
theorem columnsUnder_cons {name column : String}
    (hgrows : (names.column name).2.Grows after) (rest : List (String × String)) :
    columnsUnder after ((name, column) :: rest) =
      ⟨column, name, (names.column name).1, none⟩ :: columnsUnder after rest := by
  rw [columnsUnder, List.map_cons,
    @columnUnder_of_grows _ _ hgrows (name, column) (names.knows_column name), columnUnder,
    names.column_column]
  rfl

theorem layered_columnsUnder (htidy : names.Tidy)
    (hknown : ∀ entry ∈ entries ++ others, names.Knows entry.1)
    (hentries : Assoc.Functional entries) (hothers : Assoc.Functional others) :
    Layered (columnsUnder names (entries ++ others)) where
  owner column hcolumn := by
    obtain ⟨entry, -, rfl⟩ := List.mem_map.mp hcolumn
    rfl
  aliases first hfirst second hsecond := by
    obtain ⟨entry, hentry, rfl⟩ := List.mem_map.mp hfirst
    obtain ⟨other, hother, rfl⟩ := List.mem_map.mp hsecond
    exact ⟨htidy.column_injective (hknown entry hentry) (hknown other hother),
      fun heq => congrArg (fun name => (names.column name).1) heq⟩
  layers := by
    have hagree {entries : List (String × String)} (h : Assoc.Functional entries) :
        Agreeing (columnsUnder names entries) := by
      intro first hfirst second hsecond heq
      obtain ⟨entry, hentry, rfl⟩ := List.mem_map.mp hfirst
      obtain ⟨other, hother, rfl⟩ := List.mem_map.mp hsecond
      exact h entry hentry other hother heq
    exact ⟨columnsUnder names entries, columnsUnder names others, columnsUnder_append _ _ _,
      hagree hentries, hagree hothers⟩

theorem stands_columnsUnder {entry : String × String} (hmem : entry ∈ entries)
    (halone : ∀ other ∈ entries, other.1 = entry.1 → other.2 = entry.2) :
    Stands (columnsUnder names entries) (columnUnder names entry) where
  mem := List.mem_map_of_mem hmem
  alone column hcolumn heq := by
    obtain ⟨other, hother, rfl⟩ := List.mem_map.mp hcolumn
    exact halone other hother heq

theorem columnNodes_append (first second : List Column) :
    columnNodes (first ++ second) = columnNodes first ++ columnNodes second :=
  List.map_append

end Entries

/-! ### New tables -/

section Tables

variable {env : Environment} {field : TableField} {names between after : Namespace}

theorem Compile.run_bind {α β : Type} {action : Compile α} {next : α → Compile β} {value : α}
    (h : action names = .ok (value, between)) : (action >>= next) names = next value between := by
  change (action names >>= fun found => next found.1 found.2) = _
  rw [h]
  rfl

theorem Compile.run_refuse (error : ConfigurationError) (names : Namespace) :
    Compile.refuse false error names = .ok ((), names) := rfl

theorem Compile.run_table (name : String) (names : Namespace) :
    Compile.table name names = .ok ((names.table name).1, (names.table name).2) := rfl

theorem Compile.run_column (name : String) (names : Namespace) :
    Compile.column name names = .ok ((names.column name).1, (names.column name).2) := rfl

theorem Compile.run_lift {α : Type} {action : Except ConfigurationError α} {value : α}
    (h : action = .ok value) (names : Namespace) :
    (liftM action : Compile α) names = .ok (value, names) :=
  Compile.lift_eq_ok.mpr ⟨h, rfl⟩

/-- Columns that are fetched under their own names. -/
def ownEntries (columns : List String) : List (String × String) :=
  columns.map fun name => (name, name)

theorem ownColumn_run (name : String) (names : Namespace) :
    ownColumn name none names =
      .ok (⟨name, name, (names.column name).1, none⟩, (names.column name).2) := rfl

theorem ownColumns_run (columns : List String) (names : Namespace) :
    ∃ after, ownColumns columns none names =
        .ok (columnNodes (columnsUnder after (ownEntries columns)), after) ∧
      Supplies names (ownEntries columns) after := by
  induction columns generalizing names with
  | nil => exact ⟨names, rfl, .nothing names⟩
  | cons name rest ih =>
      obtain ⟨after, hrest, hsupplies⟩ := ih (names.column name).2
      have hfirst := Supplies.one names (name, name)
      refine ⟨after, ?_, hfirst.append hsupplies⟩
      have hcolumns : columnsUnder after (ownEntries (name :: rest)) =
          ⟨name, name, (names.column name).1, none⟩ :: columnsUnder after (ownEntries rest) :=
        columnsUnder_cons hsupplies.grows _
      rw [ownColumns] at hrest
      rw [hcolumns, ownColumns, List.mapM_cons]
      rw [Compile.run_bind (show (Node.column <$> ownColumn name none) names =
        .ok (.column ⟨name, name, (names.column name).1, none⟩, (names.column name).2) from rfl)]
      rw [Compile.run_bind hrest]
      rfl

/-- The columns a table fetches whatever is selected, after its key. -/
def alwaysEntries (env : Environment) (field : TableField) (aliasName : String) :
    List (String × String) :=
  ownEntries (match field.table.alwaysFetch with
    | none => []
    | some columns =>
        columns.toList.map fun column => column.fragment aliasName field.args env.context)

theorem alwaysFetched_run (env : Environment) (field : TableField) (aliasName : String)
    (names : Namespace) :
    ∃ after, alwaysFetched env field aliasName names =
        .ok (columnNodes (columnsUnder after (alwaysEntries env field aliasName)), after) ∧
      Supplies names (alwaysEntries env field aliasName) after := by
  unfold alwaysFetched alwaysEntries
  cases field.table.alwaysFetch with
  | none => exact ⟨names, rfl, .nothing names⟩
  | some columns => exact ownColumns_run _ names

/-- What the node of a bare field says besides its children. -/
def TableField.info (env : Environment) (field : TableField) (aliasName : String)
    (relation : Option Relation) : TableInfo where
  fieldName := field.name
  typeName := field.typeName
  isAbstract := field.kind.isAbstract
  reference := field.table.sqlTable.resolve field.args env.context
  aliasName := aliasName
  args := field.args
  many := field.many
  paginate := false
  orderBy := none
  sortKey := none
  limit := none
  condition := none
  relation := relation

theorem TableField.info_isPlain (env : Environment) (field : TableField) (aliasName : String)
    (relation : Option Relation) : (field.info env aliasName relation).IsPlain :=
  ⟨rfl, rfl, rfl, rfl, rfl⟩

/-- A new table fetches its key and the columns that are always fetched. -/
theorem newTable_run {key : String} {reached : Option Relation} (hbare : field.options.IsBare)
    (hpaginate : field.paginate = false) (hkey : field.table.uniqueKey = .one key)
    (hrelation : relation env field (names.table field.name).2 = .ok ((reached, []), between))
    (hjunction : relationJunction? reached = none) :
    ∃ after, newTable env field names =
        .ok (columnTable (field.info env (names.table field.name).1 reached)
          (columnsUnder after
            ((key, key) :: alwaysEntries env field (names.table field.name).1)), after) ∧
      Supplies between ((key, key) :: alwaysEntries env field (names.table field.name).1)
        after := by
  obtain ⟨after, halways, hsupplies⟩ :=
    alwaysFetched_run env field (names.table field.name).1 (between.column key).2
  refine ⟨after, ?_, (Supplies.one between (key, key)).append hsupplies⟩
  have horder : resolveTerms OrderByOption.terms field.args env.context field.options.orderBy =
      .ok none := by rw [hbare.orderBy, resolveTerms]
  have hsort : fieldSortKey env field false none = .ok none := by
    rw [fieldSortKey, hpaginate, if_neg Bool.false_ne_true]
  have hkeyNode : keyNode field.table.uniqueKey none between =
      .ok (.column ⟨key, key, (between.column key).1, none⟩, (between.column key).2) := by
    rw [hkey]
    rfl
  have hpaging : pagingColumns field.paginate none none after = .ok ([], after) := by
    rw [hpaginate]
    rfl
  rw [newTable, Compile.run_bind (Compile.run_table field.name names),
    Compile.run_bind (Compile.run_lift horder _), Compile.run_bind hrelation]
  simp only [hjunction, hbare.limit, Option.bind_none, Option.isSome_none, Option.map_none,
    Bool.false_and, Bool.or_self, Bool.not_false]
  rw [Compile.run_bind (Compile.run_refuse _ between),
    Compile.run_bind (Compile.run_refuse _ between),
    Compile.run_bind (Compile.run_lift hsort between), Compile.run_bind hkeyNode,
    Compile.run_bind halways, Compile.run_bind hpaging]
  rw [columnsUnder_cons hsupplies.grows, hbare.condition, hpaginate, List.append_nil]
  rfl

end Tables

/-! ### Fields -/

section Fields

variable {env : Environment} {fragments : Fragments} {scope : Scope}
  {names between after : Namespace}

/-- The target of a field that is no connection. -/
theorem fieldTarget_eq {schema : Schema} {name : String} {field : ScopedField}
    (selections : List Selection) (hpaginate : field.options.sqlPaginate = false)
    (hconnection : ∀ type, schema.type? field.type.namedType = some type →
      (type.kind == .object && type.isConnection) = false) :
    fieldTarget schema fragments name field selections =
      .ok ⟨field.type.namedType, field.type.isList, false, .rows⟩ := by
  have hnone : ((schema.type? field.type.namedType).filter fun type =>
      type.kind == .object && type.isConnection) = none := by
    cases htype : schema.type? field.type.namedType with
    | none => rfl
    | some type =>
        rw [Option.filter_some, hconnection type htype, if_neg Bool.false_ne_true]
  have hnamed := field.type.namedType_nullable
  unfold fieldTarget TypeRef.isList
  cases hnullable : field.type.nullable with
  | list item =>
      rw [hnullable, TypeRef.namedType] at hnamed
      simp only [TypeRef.namedType_nullable, hnamed, hnone, hpaginate]
      rfl
  | named name | nonNull type =>
      rw [hnullable] at hnamed
      simp only [hnamed, hnone, hpaginate]
      rfl

/-- A field without a table of its own. -/
theorem compileField_of_noTable {name : String} {args : Arguments} {selections : List Selection}
    {nested : Bool} {bucket : Option String} {existing : Option (Table Node)}
    {fill : Place → Scope → Children → Compile Children} {field : ScopedField}
    {target : FieldTarget} (hreserved : isReserved name = false)
    (hfield : scope.field? name = some field) (hignored : field.options.ignoreAll = false)
    (htarget : fieldTarget env.schema fragments name field selections = .ok target)
    (htable : backingTable? env.schema target.typeName field.options = none) :
    compileField env fragments scope nested bucket existing name args selections fill names =
      compileLeaf scope bucket name args field names := by
  unfold compileField
  rw [if_neg (not_prefix_of_not_reserved hreserved)]
  simp only [hfield, hignored]
  rw [if_neg Bool.false_ne_true, Compile.run_bind (Compile.run_lift htarget names), htable]

/-- A field backed by a table. -/
theorem compileField_of_table {name : String} {args : Arguments} {selections : List Selection}
    {nested : Bool} {bucket : Option String} {existing : Option (Table Node)}
    {fill : Place → Scope → Children → Compile Children} {field : ScopedField}
    {target : FieldTarget} {type : TypeDefinition} {table : TableOptions}
    (hreserved : isReserved name = false) (hfield : scope.field? name = some field)
    (hignored : field.options.ignoreAll = false)
    (htarget : fieldTarget env.schema fragments name field selections = .ok target)
    (htable : backingTable? env.schema target.typeName field.options = some (type, table))
    (hrelation : checkRelation nested field.options name scope.typeName = .ok ()) :
    compileField env fragments scope nested bucket existing name args selections fill names =
      compileTable env
        { name, args, table
          options := field.options
          typeName := target.typeName
          kind := type.kind
          many := target.many
          paginate := target.paginate } type existing (fill target.place) names := by
  unfold compileField
  rw [if_neg (not_prefix_of_not_reserved hreserved)]
  simp only [hfield, hignored]
  rw [if_neg Bool.false_ne_true, Compile.run_bind (Compile.run_lift htarget names), htable]
  simp only
  rw [Compile.run_bind (Compile.run_lift hrelation names)]

/-- A field that is a column becomes one. -/
theorem compileField_column {name : String} {args : Arguments} {selections : List Selection}
    {nested : Bool} {existing : Option (Table Node)}
    {fill : Place → Scope → Children → Compile Children} (hkind : scope.type.kind = .object)
    (hjunction : scope.junction = none) (hcolumn : scope.type.HasColumn env.schema name) :
    compileField env fragments scope nested none existing name args selections fill names =
      .ok (.column ⟨scope.type.columnOf name, name, (names.column name).1, none⟩,
        (names.column name).2) := by
  obtain ⟨hreserved, definition, hdefinition, hplain⟩ := hcolumn
  have hfield : scope.field? name = some ⟨definition.type, definition.options, none⟩ := by
    simp [Scope.field?, hdefinition, hjunction]
  have htarget := @fieldTarget_eq fragments env.schema name
    ⟨definition.type, definition.options, none⟩ selections hplain.notPaginated hplain.notConnection
  rw [compileField_of_noTable hreserved hfield hplain.notIgnored htarget hplain.notTable]
  unfold compileLeaf
  simp only [hplain.notComputed, hplain.notDerived, hkind, TypeDefinition.columnOf, hdefinition]
  rw [if_pos (by simp), Compile.run_bind (Compile.run_column name names)]
  rfl

/-- The properties that selected columns become, with their columns. -/
def selectedEntries (type : TypeDefinition) (listed : List Occurrence) :
    List (String × String) :=
  listed.map fun occurrence => (occurrence.name, type.columnOf occurrence.name)

/-- A column is put after the other children. -/
theorem selectField_column {children : Children} {occurrence : Occurrence}
    (hkind : scope.type.kind = .object) (hjunction : scope.junction = none)
    (hcolumn : scope.type.HasColumn env.schema occurrence.name)
    (hfresh : ∀ node ∈ children.shared, isTableOf occurrence.name node = false) :
    selectField env fragments scope children occurrence names =
      .ok (⟨children.shared ++ [.column ⟨scope.type.columnOf occurrence.name, occurrence.name,
          (names.column occurrence.name).1, none⟩], children.typed⟩,
        (names.column occurrence.name).2) := by
  have hindex : children.shared.findIdx? (isTableOf occurrence.name) = none :=
    List.findIdx?_eq_none_iff.mpr hfresh
  rw [selectField, selectOne]
  simp only [Children.bucket, hindex]
  rw [Compile.run_bind (compileField_column hkind hjunction hcolumn)]
  rfl

/-- Columns are put after the other children, one after the other. -/
theorem foldlM_columns {children : Children} {listed : List Occurrence}
    (hkind : scope.type.kind = .object) (hjunction : scope.junction = none)
    (hcolumns : ∀ occurrence ∈ listed, scope.type.HasColumn env.schema occurrence.name)
    (hfresh : ∀ occurrence ∈ listed, ∀ node ∈ children.shared,
      isTableOf occurrence.name node = false) :
    ∃ after, listed.foldlM (selectField env fragments scope) children names =
        .ok (⟨children.shared ++ columnNodes (columnsUnder after
          (selectedEntries scope.type listed)), children.typed⟩, after) ∧
      Supplies names (selectedEntries scope.type listed) after := by
  induction listed generalizing children names with
  | nil => exact ⟨names, by simp [selectedEntries, columnsUnder, columnNodes]; rfl, .nothing names⟩
  | cons occurrence rest ih =>
      rw [List.forall_mem_cons] at hcolumns hfresh
      have hothers : ∀ other ∈ rest, ∀ node ∈ children.shared ++
          [.column ⟨scope.type.columnOf occurrence.name, occurrence.name,
            (names.column occurrence.name).1, none⟩], isTableOf other.name node = false := by
        intro other hother node hnode
        rcases List.mem_append.mp hnode with hold | hnew
        · exact hfresh.2 other hother node hold
        · rw [List.mem_singleton.mp hnew]
          rfl
      obtain ⟨after, hrest, hsupplies⟩ := @ih (names.column occurrence.name).2
        ⟨_, children.typed⟩ hcolumns.2 hothers
      have hfirst := Supplies.one names (occurrence.name, scope.type.columnOf occurrence.name)
      refine ⟨after, ?_, hfirst.append hsupplies⟩
      rw [List.foldlM_cons,
        Compile.run_bind (selectField_column hkind hjunction hcolumns.1 hfresh.1), hrest]
      have hentries : columnsUnder after (selectedEntries scope.type (occurrence :: rest)) =
          ⟨scope.type.columnOf occurrence.name, occurrence.name,
              (names.column occurrence.name).1, none⟩ ::
            columnsUnder after (selectedEntries scope.type rest) :=
        columnsUnder_cons hsupplies.grows _
      rw [hentries, List.append_assoc]
      rfl

end Fields

end Plan

end JoinPlan
