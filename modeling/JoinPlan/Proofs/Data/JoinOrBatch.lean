import JoinPlan.Proofs.Data.Keyless
import JoinPlan.Proofs.Data.ScalarKeys
import JoinPlan.Proofs.Plan.KeyedRequests

/-!
# Joining or fetching in batches

A list field whose rows are matched by a key can be joined to its parent's rows or fetched
in a batch for their keys.  Both give the same data, but for the keys: a batch leaves them in
the objects it matches.
-/

namespace JoinPlan

open Plan Sql

namespace Plan

/-! ### The two plans -/

namespace NestedRequest

section Contents

variable (nested : NestedRequest) (env : Environment) (parentKey thisKey : String)

/-- The contents of the root field's table. -/
def parents (database : Database) : List Object :=
  database.table (nested.root.rows.table.sqlTable.resolve nested.args env.context)

/-- The contents of the list field's table. -/
def children (database : Database) : List Object :=
  database.table (nested.field.rows.table.sqlTable.resolve nested.first.args env.context)

/-- Every parent with the list of the children whose key is its own, both without keys. -/
def keylessData (minify : Bool) (database : Database) : Json :=
  Shape.ofObjects nested.root.ref.isList ((nested.parents env database).map fun row =>
    let parent := keyless parentKey (nested.before env minify ++ nested.after) row
    if parentKey = nested.field.name then parent
    else
      let found := (nested.children env database).filter fun other =>
        isTrue (equal (Shape.cell row parentKey) (Shape.cell other thisKey))
      Assoc.insert nested.field.name
        (Shape.ofObjects true (found.map (keyless thisKey (nested.others env minify [])))) parent)

end Contents

end NestedRequest

section Plans

variable {names : Namespace} {env : Environment} {nested : NestedRequest} {minify : Bool}
  {parentKey thisKey : String}

theorem joinedTables (hkeeps : nested.KeepsKeys env parentKey thisKey minify)
    (hitems : nested.ItemsApart env minify) (hmany : nested.field.ref.isList = true)
    (htidy : names.Tidy) (hminify : names.minify = minify)
    (hknown : ∀ entry ∈ nested.before env minify ++ nested.after ++ nested.others env minify [],
      names.Knows entry.1) (condition : JoinCondition) :
    JoinedTables (nested.rootInfo env minify)
      (nested.fieldInfo env minify (some (.join condition))) condition
      (columnUnder names (nested.root.rows.key, nested.root.rows.key))
      (columnsUnder names (nested.before env minify)).tail (columnsUnder names nested.after)
      (columnUnder names (nested.field.rows.key, nested.field.rows.key))
      (columnsUnder names (nested.others env minify [])).tail where
  plain := TableField.info_isPlain ..
  root := rfl
  childPlain := TableField.info_isPlain ..
  join := rfl
  many := hmany
  aliases := nested.rootAlias_ne_fieldAlias env minify
  columns := by
    have hcolumns := @identified_parents _ _ _ _ _ _ hkeeps htidy [] (by simp) fun entry hentry =>
      hknown entry (List.mem_append_left _ hentry)
    rw [columnsUnder_append] at hcolumns
    exact hcolumns
  childColumns := @identified_children _ _ _ _ _ _ hkeeps htidy [] (by simp) fun entry hentry =>
    hknown entry (List.mem_append_right _ hentry)
  field := hkeeps.field
  later column hcolumn := by
    obtain ⟨entry, hentry, rfl⟩ := List.mem_map.mp hcolumn
    obtain ⟨occurrence, hoccurrence, rfl⟩ := List.mem_map.mp hentry
    have hname : (occurrence.name != nested.field.name) = true :=
      (List.mem_filter.mp hoccurrence).2
    exact bne_iff_ne.mp hname
  clear column hcolumn other hother := by
    have hparents : column ∈ columnsUnder names (nested.before env minify ++ nested.after) := by
      rw [columnsUnder_append]
      exact hcolumn
    obtain ⟨entry, hentry, rfl⟩ := List.mem_map.mp hparents
    have hchildren : other ∈ columnsUnder names (nested.others env minify []) := hother
    obtain ⟨found, hfound, rfl⟩ := List.mem_map.mp hchildren
    exact outputAlias_ne_of_apart hitems htidy hminify hentry hfound
      (hknown entry (List.mem_append_left _ hentry))

theorem batchedTables (hkeeps : nested.KeepsKeys env parentKey thisKey minify)
    (hmany : nested.field.ref.isList = true) (htidy : names.Tidy)
    (hknown : ∀ entry ∈ ownEntries [thisKey, parentKey] ++ nested.before env minify ++
      nested.after ++ nested.others env minify (ownEntries [thisKey]), names.Knows entry.1) :
    BatchedTables (nested.rootInfo env minify)
      (nested.fieldInfo env minify (some (.batch (columnUnder names (thisKey, thisKey))
        (columnUnder names (parentKey, parentKey)))))
      (columnUnder names (thisKey, thisKey)) (columnUnder names (parentKey, parentKey))
      (columnUnder names (nested.root.rows.key, nested.root.rows.key))
      (columnsUnder names (nested.before env minify)).tail (columnsUnder names nested.after)
      (columnUnder names (nested.field.rows.key, nested.field.rows.key))
      (columnsUnder names (nested.others env minify (ownEntries [thisKey]))).tail where
  plain := TableField.info_isPlain ..
  root := rfl
  childPlain := TableField.info_isPlain ..
  batch := rfl
  many := hmany
  columns := by
    have hcolumns := @identified_parents _ _ _ _ _ _ hkeeps htidy [(parentKey, parentKey)] (by simp)
      fun entry hentry => hknown entry (by
        simp only [List.mem_append, ownEntries, List.map_cons, List.map_nil,
          List.mem_cons] at hentry ⊢
        tauto)
    rw [columnsUnder_append] at hcolumns
    exact hcolumns
  childColumns := @identified_children _ _ _ _ _ _ hkeeps htidy (ownEntries [thisKey])
    (by simp [ownEntries]) fun entry hentry => hknown entry (List.mem_append_right _ hentry)
  parentKey := by
    have hkey := @keeps_parents parentKey env nested minify parentKey [(parentKey, parentKey)]
      (by simp) hkeeps.parentKey
    have hstands := @stands_columnsUnder names _ (parentKey, parentKey) (by simp) hkey
    rw [columnsUnder_append] at hstands
    exact hstands
  thisKey := by
    have hkey := @keeps_children thisKey env nested minify thisKey (ownEntries [thisKey])
      (by simp [ownEntries]) hkeeps.thisKey
    have hmem : (thisKey, thisKey) ∈ nested.others env minify (ownEntries [thisKey]) := by
      simp [NestedRequest.others, RowField.entries, ownEntries]
    exact stands_columnsUnder hmem hkey

end Plans

/-! ### The two runs -/

/-- The executor answers every statement of a request with what it fetches: that of the root,
and those of the batches below it for the keys there may be. -/
structure AnswersRequest (executor : Executor) (database : Database) (options : RunOptions)
    (env : Environment) (request : Request) (asked : List Json → Prop) : Prop where
  root : ∀ root, compile env options.minify request = .ok root →
    Evaluates executor database root ⟨env.context, options.dialect, []⟩
  batch : ∀ root, compile env options.minify request = .ok root → ∀ child ∈ root.tables,
    child.info.isBoundary = true → ∀ scope, asked scope →
      Evaluates executor database child ⟨env.context, options.dialect, scope⟩

namespace NestedRequest

/-- The condition of the join is read as the equality of the keys. -/
def ReadsKeys (nested : NestedRequest) (env : Environment) (options : RunOptions)
    (database : Database) (parentKey thisKey : String) : Prop :=
  ∀ row other,
    database.raw (Builder.joinText (keysTemplate parentKey thisKey)
        (options.dialect.quote (nested.rootAlias options.minify))
        (options.dialect.quote (nested.fieldAlias env options.minify)))
      [(nested.rootAlias options.minify, row), (nested.fieldAlias env options.minify, other)] =
    equal (Shape.cell row parentKey) (Shape.cell other thisKey)

/-- The rows of the tables have distinct keys, and what they are matched by is of one scalar
type. -/
structure Contents (nested : NestedRequest) (env : Environment) (database : Database)
    (parentKey thisKey : String) (type : ScalarType) : Prop where
  rootKey : Keyed (nested.parents env database) nested.root.rows.key
  fieldKey : Keyed (nested.children env database) nested.field.rows.key
  parentKeys : ∀ row ∈ nested.parents env database, type.Holds (Shape.cell row parentKey)
  thisKeys : ∀ other ∈ nested.children env database, type.Holds (Shape.cell other thisKey)

/-- No parent has the one zero where a child has the other. -/
def ZerosApart (nested : NestedRequest) (env : Environment) (database : Database)
    (parentKey thisKey : String) : Prop :=
  ∀ row ∈ nested.parents env database, ∀ other ∈ nested.children env database,
    ¬ OppositeZeros (Shape.cell other thisKey) (Shape.cell row parentKey)

/-- A request for a list field of the root's rows, whose rows are found by a key, and an
executor that answers its statements whether the field is joined or fetched in batches. -/
structure DeclaredTwice (nested : NestedRequest) (env : Environment) (request : Request)
    (options : RunOptions) (database : Database) (executor : Executor)
    (parentKey thisKey : String) (type : ScalarType) : Prop where
  asked : nested.IsAsked env request
  apart : ¬ (request.parentType = nested.root.rows.name ∧ nested.root.name = nested.field.name)
  many : nested.field.ref.isList = true
  keeps : nested.KeepsKeys env parentKey thisKey options.minify
  contents : nested.Contents env database parentKey thisKey type
  reads : nested.ReadsKeys env options database parentKey thisKey
  joined : AnswersRequest executor database options (nested.joined env parentKey thisKey) request
    (KeysOf (nested.parents env database) parentKey)
  batched : AnswersRequest executor database options (nested.batched env parentKey thisKey)
    request (KeysOf (nested.parents env database) parentKey)

/-- Joined or fetched in batches, the data is the same but for the keys. -/
def SameData (nested : NestedRequest) (env : Environment) (request : Request)
    (options : RunOptions) (executor : Executor) (parentKey thisKey : String) : Prop :=
  ∃ joined batched first second,
    (run executor options (nested.joined env parentKey thisKey) request).outcome [] =
        (.ok joined, first) ∧
      (run executor options (nested.batched env parentKey thisKey) request).outcome [] =
        (.ok batched, second) ∧
      withoutKeys parentKey nested.field.name thisKey joined =
        withoutKeys parentKey nested.field.name thisKey batched

end NestedRequest

section Runs

variable {executor : Executor} {database : Database} {options : RunOptions} {env : Environment}
  {nested : NestedRequest} {request : Request} {names : Namespace} {parentKey thisKey : String}

/-- The key a batch fetches besides does not show without keys. -/
theorem keyless_others (nested : NestedRequest) (env : Environment) (minify : Bool)
    (thisKey : String) (other : Object) :
    keyless thisKey (nested.others env minify (ownEntries [thisKey])) other =
      keyless thisKey (nested.others env minify []) other := by
  have hkey := keyless_key thisKey
    (nested.field.ownEntries env nested.first.args (nested.fieldAlias env minify) ++
      selectedEntries nested.field.rows.type (nested.field.below nested.fragments nested.first))
    (nested.field.columnsBelow nested.fragments nested.rest) other
  simpa [NestedRequest.others, RowField.entries, ownEntries] using hkey

/-- The records of all parents, each with those found for it, without keys. -/
theorem withoutKeys_records {entries others : List (String × String)}
    {found : Object → List Object}
    (hentries : ∀ row, keyless parentKey entries row =
      keyless parentKey (nested.before env options.minify ++ nested.after) row)
    (hothers : ∀ other, keyless thisKey others other =
      keyless thisKey (nested.others env options.minify []) other)
    (hfound : ∀ row ∈ nested.parents env database, found row =
      (nested.children env database).filter fun other =>
        isTrue (equal (Shape.cell row parentKey) (Shape.cell other thisKey))) :
    withoutKeys parentKey nested.field.name thisKey
        (Shape.ofObjects nested.root.ref.isList ((nested.parents env database).map fun row =>
          recordWith (columnsUnder names entries) nested.field.name (columnsUnder names others)
            (found row) row)) =
      nested.keylessData env parentKey thisKey options.minify database := by
  rw [withoutKeys, onObjects_ofObjects, List.map_map, NestedRequest.keylessData]
  congr 1
  apply List.map_congr_left
  intro row hrow
  rw [Function.comp_apply, onProperty_erase_recordWith, erase_record, hentries]
  simp only [erase_record, hothers, hfound row hrow]

/-- The data of the joined declaration: every parent with its children. -/
theorem withoutKeys_run_joined {type : ScalarType}
    (h : nested.DeclaredTwice env request options database executor parentKey thisKey type)
    (hitems : nested.ItemsApart env options.minify) :
    ∃ data statements,
      (run executor options (nested.joined env parentKey thisKey) request).outcome [] =
          (.ok data, statements) ∧
        withoutKeys parentKey nested.field.name thisKey data =
          nested.keylessData env parentKey thisKey options.minify database := by
  obtain ⟨names, hcompiled, hgrows, hknown⟩ :=
    compile_joined parentKey thisKey h.asked h.apart options.minify
  have htables := joinedTables h.keeps hitems h.many (hgrows.tidy (Namespace.fresh_tidy _))
    hgrows.minify hknown (.template (keysTemplate parentKey thisKey))
  obtain ⟨statements, hfetch⟩ := outcome_fetch_joined htables h.contents.rootKey
    h.contents.fieldKey (h.joined.root _ hcompiled) []
  refine ⟨_, statements, outcome_run hcompiled hfetch, ?_⟩
  rw [keepMatched_ofObjects fun object _ => by
    rw [NestedRequest.plan, batchedFields_parentTable]
    rfl]
  have hall := @withoutKeys_records database options env nested names parentKey thisKey
    (nested.before env options.minify ++ nested.after) (nested.others env options.minify [])
    (joinedRows database options.dialect env.context (nested.rootInfo env options.minify)
      (nested.fieldInfo env options.minify
        (some (.join (.template (keysTemplate parentKey thisKey)))))
      (.template (keysTemplate parentKey thisKey))) (fun _ => rfl) (fun _ => rfl)
    fun row _ => List.filter_congr fun other _ => congrArg Sql.isTrue (h.reads row other)
  rw [columnsUnder_append] at hall
  exact hall

/-- Only floating point numbers have two zeros. -/
theorem NestedRequest.Contents.zerosApart {type : ScalarType}
    (hcontents : nested.Contents env database parentKey thisKey type) (htype : type ≠ .float) :
    nested.ZerosApart env database parentKey thisKey := by
  rintro _ - other hother ⟨negative, hzero, -⟩
  have hholds := hcontents.thisKeys other hother
  rw [hzero] at hholds
  cases type <;> simp_all [ScalarType.Holds, ScalarType.has]

/-- Rows with equal keys are matched, as long as their keys are of one type. -/
theorem NestedRequest.Contents.isTrue_equal {type : ScalarType}
    (hcontents : nested.Contents env database parentKey thisKey type)
    (hzeros : nested.ZerosApart env database parentKey thisKey) {row other : Object}
    (hrow : row ∈ nested.parents env database) (hother : other ∈ nested.children env database) :
    Sql.isTrue (equal (Shape.cell other thisKey) (Shape.cell row parentKey)) =
      matched (Shape.cell row parentKey) (Shape.cell other thisKey) :=
  isTrue_equal_eq_matched (hcontents.parentKeys row hrow) (hcontents.thisKeys other hother)
    (hzeros row hrow other hother)

/-- The data of the batched declaration: every parent with its children. -/
theorem withoutKeys_run_batched {type : ScalarType}
    (h : nested.DeclaredTwice env request options database executor parentKey thisKey type)
    (hzeros : nested.ZerosApart env database parentKey thisKey) :
    ∃ data statements,
      (run executor options (nested.batched env parentKey thisKey) request).outcome [] =
          (.ok data, statements) ∧
        withoutKeys parentKey nested.field.name thisKey data =
          nested.keylessData env parentKey thisKey options.minify database := by
  obtain ⟨names, hcompiled, hgrows, hknown⟩ :=
    compile_batched parentKey thisKey h.asked h.apart options.minify
  have htables := batchedTables h.keeps h.many (hgrows.tidy (Namespace.fresh_tidy _)) hknown
  have hbatches (scope : List Json)
      (hscope : KeysOf (nested.parents env database) parentKey scope) :=
    h.batched.batch _ hcompiled _ (by
      rw [NestedRequest.plan, tables_parentTable]
      exact List.mem_singleton_self _) htables.isBoundary scope hscope
  obtain ⟨statements, hfetch⟩ := outcome_fetch_batched htables h.contents.rootKey
    h.contents.fieldKey
    (fun row hrow other hother => h.contents.isTrue_equal hzeros hrow hother)
    (h.batched.root _ hcompiled) hbatches []
  refine ⟨_, statements, outcome_run hcompiled hfetch, ?_⟩
  rw [keepMatched_ofObjects fun object hobject => by
    obtain ⟨row, -, rfl⟩ := List.mem_map.mp hobject
    rw [NestedRequest.plan, batchedFields_parentTable]
    exact hasAll_recordWith _ _ _ _ row]
  have hall := @withoutKeys_records database options env nested names parentKey thisKey
    (nested.before env options.minify ++ (parentKey, parentKey) :: nested.after)
    (nested.others env options.minify (ownEntries [thisKey]))
    (matchedRows database (nested.fieldInfo env options.minify
      (some (.batch (columnUnder names (thisKey, thisKey))
        (columnUnder names (parentKey, parentKey))))) (columnUnder names (thisKey, thisKey))
          (columnUnder names (parentKey, parentKey)))
    (fun row => keyless_key parentKey _ _ row)
    (fun other => keyless_others nested env options.minify thisKey other)
    fun row hrow => List.filter_congr fun other hother =>
      (h.contents.isTrue_equal hzeros hrow hother).symm.trans (by rw [equal_comm])
  rw [columnsUnder_append] at hall
  exact hall

/-- Joining and fetching in batches give the same data, unless a property of a parent is named
like an item of its list or a key of a parent and one of a child are opposite zeros. -/
theorem run_joined_agrees_run_batched {type : ScalarType}
    (h : nested.DeclaredTwice env request options database executor parentKey thisKey type)
    (hitems : nested.ItemsApart env options.minify)
    (hzeros : nested.ZerosApart env database parentKey thisKey) :
    nested.SameData env request options executor parentKey thisKey := by
  obtain ⟨joined, first, hjoined, hjoinedData⟩ := withoutKeys_run_joined h hitems
  obtain ⟨batched, second, hbatched, hbatchedData⟩ := withoutKeys_run_batched h hzeros
  exact ⟨joined, batched, first, second, hjoined, hbatched,
    hjoinedData.trans hbatchedData.symm⟩

end Runs

theorem not_sameData {executor : Executor} {options : RunOptions} {env : Environment}
    {nested : NestedRequest} {request : Request} {parentKey thisKey : String}
    (h : ((run executor options (nested.joined env parentKey thisKey) request).outcome
          []).1.toOption.map
        (fun data => (withoutKeys parentKey nested.field.name thisKey data).text) ≠
      ((run executor options (nested.batched env parentKey thisKey) request).outcome
          []).1.toOption.map
        (fun data => (withoutKeys parentKey nested.field.name thisKey data).text)) :
    ¬ nested.SameData env request options executor parentKey thisKey := by
  rintro ⟨joined, batched, first, second, hjoined, hbatched, hsame⟩
  rw [hjoined, hbatched] at h
  exact h (congrArg (fun data => some (Json.text data)) hsame)

/-! ### Gauges -/

/-- River gauges, each with the marks at its level.  A gauge also notes one mark itself. -/
def gaugesEnvironment : Environment where
  schema :=
    ⟨[("Gauge", ⟨.object,
        [("marks", ⟨.list (.named "Mark"), FieldOptions.empty⟩),
          ("marks__id", ⟨.named "Int", FieldOptions.empty⟩),
          ("name", ⟨.named "String", FieldOptions.empty⟩)], [], [],
        some ⟨.literal "gauges", .one "id", none⟩⟩),
      ("Mark", ⟨.object, [("label", ⟨.named "String", FieldOptions.empty⟩)], [], [],
        some ⟨.literal "marks", .one "id", none⟩⟩),
      ("Q", ⟨.object, [("gauges", ⟨.list (.named "Gauge"), FieldOptions.empty⟩)], [], [],
        none⟩)]⟩
  context := .null

def gaugesRequest (property : String) : Request where
  parentType := "Q"
  fields :=
    [⟨"gauges", [], [.field property [] [], .field "marks" [] [.field "label" [] []]]⟩]
  fragments := []

/-- The rows of a type of the gauges' schema. -/
def rowTypeOf (name table : String) : RowType where
  name := name
  type := (gaugesEnvironment.schema.type? name).getD ⟨.object, [], [], [], none⟩
  table := ⟨.literal table, .one "id", none⟩
  key := "id"

/-- A property of the gauges and the labels of their marks. -/
def gaugesAndMarks (property : String) : NestedRequest where
  root := ⟨"gauges", .list (.named "Gauge"), FieldOptions.empty, rowTypeOf "Gauge" "gauges"⟩
  args := []
  field := ⟨"marks", .list (.named "Mark"), FieldOptions.empty, rowTypeOf "Mark" "marks"⟩
  fragments := []
  front := [⟨property, [], [], 0⟩]
  first := ⟨"marks", [], [.field "label" [] []], 0⟩
  rest := []

/-- Two gauges at a level and one at none; a mark at a level and one at none. -/
def gaugesDatabase (level other : Json) : Database where
  table name :=
    if name = "gauges" then
      [[("id", .number (.int 1)), ("level", level), ("marks__id", .number (.int 9)),
          ("name", .string "Kelso")],
        [("id", .number (.int 2)), ("level", .null), ("marks__id", .null),
          ("name", .string "Peebles")],
        [("id", .number (.int 3)), ("level", level), ("marks__id", .null),
          ("name", .string "Melrose")]]
    else
      [[("id", .number (.int 5)), ("label", .string "flood"), ("level", other)],
        [("id", .number (.int 6)), ("label", .string "drought"), ("level", .null)]]
  raw _ row := equal (row.column "gauges" "level") (row.column "marks" "level")

/-- The gauges with their marks joined to them. -/
def joinedGauges (property : String) : Select :=
  ⟨.items [("id", .column "gauges" "id"), (property, .column "gauges" property),
      ("marks__id", .column "marks" "id"), ("marks__label", .column "marks" "label")],
    some (.table "gauges" "gauges"),
    [.left "marks" "marks" (.raw "\"gauges\".\"level\" = \"marks\".\"level\"")], .always, [],
    none, none⟩

/-- The gauges with their levels. -/
def leveledGauges (property : String) : Select :=
  ⟨.items [("id", .column "gauges" "id"), (property, .column "gauges" property),
      ("level", .column "gauges" "level")],
    some (.table "gauges" "gauges"), [], .always, [], none, none⟩

/-- The marks at some levels. -/
def marksAt (levels : List Json) : Select :=
  ⟨.items [("id", .column "marks" "id"), ("label", .column "marks" "label"),
      ("level", .column "marks" "level")],
    some (.table "marks" "marks"), [], .isIn (.column "marks" "level") (levels.map .value), [],
    none, none⟩

def gaugesStatements (property : String) (level : Json) : List Select :=
  [joinedGauges property, leveledGauges property, marksAt [], marksAt [level]]

def gaugesExecutor (property : String) (level other : Json) : Executor :=
  answering (gaugesDatabase level other) .postgres (gaugesStatements property level)

section Gauges

variable {property : String} {level other : Json} {type : ScalarType}

theorem isIn_gaugeRows : (rowTypeOf "Gauge" "gauges").IsIn gaugesEnvironment.schema :=
  ⟨rfl, rfl, rfl, rfl, rfl⟩

theorem isIn_markRows : (rowTypeOf "Mark" "marks").IsIn gaugesEnvironment.schema :=
  ⟨rfl, rfl, rfl, rfl, rfl⟩

theorem isAsked_gauges (hproperty : property = "name" ∨ property = "marks__id") :
    (gaugesAndMarks property).IsAsked gaugesEnvironment (gaugesRequest property) where
  query :=
    ⟨_, rfl, by change isReserved "gauges" = false; decide, rfl, rfl, FieldOptions.isBare_empty⟩
  rootRows := isIn_gaugeRows
  rootBare := FieldOptions.isBare_empty
  rootJoin := rfl
  rootBatch := rfl
  field := ⟨by change isReserved "marks" = false; decide, rfl, rfl, FieldOptions.isBare_empty⟩
  fieldRows := isIn_markRows
  fragments := rfl
  merged := by
    have hdepth : (gaugesAndMarks property).fragments.depth = 0 := Nat.zero_mul _
    refine ⟨_, rfl, ?_⟩
    rw [hdepth]
    rfl
  front occurrence hoccurrence := by
    obtain rfl := List.mem_singleton.mp hoccurrence
    rcases hproperty with rfl | rfl <;> decide
  first := rfl
  selects occurrence hoccurrence := by
    rcases List.mem_cons.mp hoccurrence with rfl | hfield
    · constructor
      · intro _
        rcases hproperty with rfl | rfl
        · exact ⟨by decide, _, rfl, FieldDefinition.isColumn_of_unknown rfl⟩
        · exact ⟨by decide, _, rfl, FieldDefinition.isColumn_of_unknown rfl⟩
      · intro hname
        rcases hproperty with rfl | rfl <;> exact absurd hname (by decide)
    · obtain rfl := List.mem_singleton.mp hfield
      refine ⟨fun hname => absurd rfl hname, fun _ => ⟨_, rfl, ?_⟩⟩
      intro column hcolumn
      obtain rfl := List.mem_singleton.mp hcolumn
      exact ⟨by change isReserved "label" = false; decide, _, rfl,
        FieldDefinition.isColumn_of_unknown rfl⟩

theorem keepsKeys_gauges (hproperty : property = "name" ∨ property = "marks__id") :
    (gaugesAndMarks property).KeepsKeys gaugesEnvironment "level" "level" false := by
  rcases hproperty with rfl | rfl <;> constructor <;> decide

/-- The plan of the gauges, with their marks reached in some way. -/
def gaugesPlan (property : String) (reached : Option Relation) (keys : List Column) :
    Table Node :=
  parentTable { plainInfo "gauges" "gauges" true none with typeName := "Gauge" }
    [ownedColumn "id", ownedColumn property] []
    (columnTable { plainInfo "marks" "marks" true reached with typeName := "Mark" }
      ([ownedColumn "id", ownedColumn "label"] ++ keys))

theorem rootAlias_gauges (hproperty : property = "name" ∨ property = "marks__id") :
    (gaugesAndMarks property).rootAlias false = "gauges" := by
  rcases hproperty with rfl | rfl <;> decide +kernel

theorem fieldAlias_gauges (hproperty : property = "name" ∨ property = "marks__id") :
    (gaugesAndMarks property).fieldAlias gaugesEnvironment false = "marks" := by
  rcases hproperty with rfl | rfl <;> decide +kernel

theorem plan_gauges (hproperty : property = "name" ∨ property = "marks__id")
    {names : Namespace} (hminify : names.minify = false) (reach : Namespace → Option Relation)
    (last : List (String × String)) :
    (gaugesAndMarks property).plan gaugesEnvironment false reach last names =
      gaugesPlan property (reach names) (columnsUnder names last) := by
  have hbefore : (gaugesAndMarks property).before gaugesEnvironment false =
      [("id", "id"), (property, property)] := by
    rcases hproperty with rfl | rfl <;> decide +kernel
  have hothers : (gaugesAndMarks property).others gaugesEnvironment false last =
      [("id", "id"), ("label", "label")] ++ last := by
    change [("id", "id")] ++ ([("label", _)] ++ last) ++ [] = _
    rw [List.append_nil]
    rfl
  rw [NestedRequest.plan, hbefore, hothers, NestedRequest.rootInfo, NestedRequest.fieldInfo,
    rootAlias_gauges hproperty, fieldAlias_gauges hproperty, columnsUnder_append]
  simp only [columnsUnder, List.map_cons, List.map_nil, columnUnder_of_plain hminify]
  rfl

/-- Each key of the gauges is asked for at most once. -/
theorem scope_gauges (scope : List Json)
    (h : KeysOf ((gaugesAndMarks property).parents gaugesEnvironment (gaugesDatabase level other))
      "level" scope) : scope = [] ∨ scope = [level] := by
  have hlevel : ∀ key ∈ scope, key = level := by
    intro key hkey
    obtain ⟨row, hrow, rfl⟩ := h.key key hkey
    have hnotNull : Shape.cell row "level" ≠ .null := fun heq => h.notNull (heq ▸ hkey)
    change row ∈ [_, _, _] at hrow
    simp only [List.mem_cons, List.not_mem_nil, or_false] at hrow
    rcases hrow with rfl | rfl | rfl
    · rfl
    · exact absurd rfl hnotNull
    · rfl
  cases scope with
  | nil => exact Or.inl rfl
  | cons first rest =>
      have hfirst := hlevel first List.mem_cons_self
      have hnodup := List.nodup_cons.mp h.nodup
      cases rest with
      | nil => exact Or.inr (by rw [hfirst])
      | cons second others =>
          have hsecond := hlevel second (by simp)
          exact absurd (by simp [hfirst, hsecond]) hnodup.1

theorem apart_gauges : ¬ ((gaugesRequest property).parentType =
    (gaugesAndMarks property).root.rows.name ∧
      (gaugesAndMarks property).root.name = (gaugesAndMarks property).field.name) :=
  fun h => absurd (show "Q" = "Gauge" from h.1) (by decide)

theorem compile_gauges_joined (hproperty : property = "name" ∨ property = "marks__id") :
    compile ((gaugesAndMarks property).joined gaugesEnvironment "level" "level") false
        (gaugesRequest property) =
      .ok (gaugesPlan property (some (.join (.template (keysTemplate "level" "level")))) []) := by
  obtain ⟨names, hcompiled, hgrows, -⟩ :=
    compile_joined "level" "level" (isAsked_gauges hproperty) apart_gauges false
  rw [hcompiled, plan_gauges hproperty hgrows.minify]
  rfl

theorem compile_gauges_batched (hproperty : property = "name" ∨ property = "marks__id") :
    compile ((gaugesAndMarks property).batched gaugesEnvironment "level" "level") false
        (gaugesRequest property) =
      .ok (gaugesPlan property (some (.batch (ownedColumn "level") (ownedColumn "level")))
        [ownedColumn "level"]) := by
  obtain ⟨names, hcompiled, hgrows, -⟩ :=
    compile_batched "level" "level" (isAsked_gauges hproperty) apart_gauges false
  rw [hcompiled, plan_gauges hproperty hgrows.minify]
  simp only [columnUnder_of_plain hgrows.minify, columnsUnder, ownEntries, List.map_cons,
    List.map_nil]
  rfl

theorem statement_gauges_joined (hproperty : property = "name" ∨ property = "marks__id") :
    (gaugesPlan property (some (.join (.template (keysTemplate "level" "level"))))
        []).statement ⟨.null, .postgres, []⟩ = .ok (some (joinedGauges property)) := by
  rcases hproperty with rfl | rfl <;> rfl

theorem statement_gauges_batched (hproperty : property = "name" ∨ property = "marks__id") :
    (gaugesPlan property (some (.batch (ownedColumn "level") (ownedColumn "level")))
        [ownedColumn "level"]).statement ⟨.null, .postgres, []⟩ =
      .ok (some (leveledGauges property)) := by
  rcases hproperty with rfl | rfl <;> rfl

theorem statement_marks (scope : List Json) :
    (columnTable
        { plainInfo "marks" "marks" true (some (.batch (ownedColumn "level") (ownedColumn "level")))
          with typeName := "Mark" }
        [ownedColumn "id", ownedColumn "label", ownedColumn "level"]).statement
        ⟨.null, .postgres, scope⟩ = .ok (some (marksAt scope)) := by
  rfl

theorem answers_gauges_joined (hproperty : property = "name" ∨ property = "marks__id")
    (hstatements : ((gaugesStatements property level).map (Select.render .postgres)).Nodup)
    (asked : List Json → Prop) :
    AnswersRequest (gaugesExecutor property level other) (gaugesDatabase level other)
      ⟨.postgres, false⟩ ((gaugesAndMarks property).joined gaugesEnvironment "level" "level")
      (gaugesRequest property) asked := by
  have hcompiled := compile_gauges_joined hproperty
  constructor
  · intro root hroot
    obtain rfl := Except.ok.inj (hcompiled.symm.trans hroot)
    apply @evaluates_answering _ _ _ ⟨_, .postgres, _⟩ hstatements
    intro select hselect
    obtain rfl : joinedGauges property = select :=
      Option.some.inj (Except.ok.inj ((statement_gauges_joined hproperty).symm.trans hselect))
    exact List.mem_cons_self
  · intro root hroot child hchild hboundary
    obtain rfl := Except.ok.inj (hcompiled.symm.trans hroot)
    rw [gaugesPlan, tables_parentTable] at hchild
    obtain rfl := List.mem_singleton.mp hchild
    cases hboundary

theorem answers_gauges_batched (hproperty : property = "name" ∨ property = "marks__id")
    (hstatements : ((gaugesStatements property level).map (Select.render .postgres)).Nodup) :
    AnswersRequest (gaugesExecutor property level other) (gaugesDatabase level other)
      ⟨.postgres, false⟩ ((gaugesAndMarks property).batched gaugesEnvironment "level" "level")
      (gaugesRequest property)
      (KeysOf ((gaugesAndMarks property).parents gaugesEnvironment (gaugesDatabase level other))
        "level") := by
  have hcompiled := compile_gauges_batched hproperty
  constructor
  · intro root hroot
    obtain rfl := Except.ok.inj (hcompiled.symm.trans hroot)
    apply @evaluates_answering _ _ _ ⟨_, .postgres, _⟩ hstatements
    intro select hselect
    obtain rfl : leveledGauges property = select :=
      Option.some.inj (Except.ok.inj ((statement_gauges_batched hproperty).symm.trans hselect))
    simp [gaugesStatements]
  · intro root hroot child hchild hboundary scope hscope
    obtain rfl := Except.ok.inj (hcompiled.symm.trans hroot)
    rw [gaugesPlan, tables_parentTable] at hchild
    obtain rfl := List.mem_singleton.mp hchild
    apply @evaluates_answering _ _ _ ⟨_, .postgres, _⟩ hstatements
    intro select hselect
    obtain rfl : marksAt scope = select :=
      Option.some.inj (Except.ok.inj ((statement_marks scope).symm.trans hselect))
    rcases scope_gauges scope hscope with rfl | rfl <;> simp [gaugesStatements]

/-- Gauges at a level that marks may have, whichever way the marks are reached. -/
theorem declaredTwice_gauges (hproperty : property = "name" ∨ property = "marks__id")
    (hlevel : type.has level = true) (hother : type.has other = true)
    (hstatements : ((gaugesStatements property level).map (Select.render .postgres)).Nodup) :
    (gaugesAndMarks property).DeclaredTwice gaugesEnvironment (gaugesRequest property)
      ⟨.postgres, false⟩ (gaugesDatabase level other) (gaugesExecutor property level other)
      "level" "level" type where
  asked := isAsked_gauges hproperty
  apart := apart_gauges
  many := rfl
  keeps := keepsKeys_gauges hproperty
  contents :=
    { rootKey := keyed_of_map_eq (show _ = [.number (.int 1), .number (.int 2), .number (.int 3)]
        from rfl) (by simp) (by simp)
      fieldKey := keyed_of_map_eq (show _ = [.number (.int 5), .number (.int 6)] from rfl)
        (by simp) (by simp)
      parentKeys := by
        intro row hrow
        change row ∈ [_, _, _] at hrow
        simp only [List.mem_cons, List.not_mem_nil, or_false] at hrow
        rcases hrow with rfl | rfl | rfl
        · exact Or.inr hlevel
        · exact Or.inl rfl
        · exact Or.inr hlevel
      thisKeys := by
        intro row hrow
        change row ∈ [_, _] at hrow
        simp only [List.mem_cons, List.not_mem_nil, or_false] at hrow
        rcases hrow with rfl | rfl
        · exact Or.inr hother
        · exact Or.inl rfl }
  reads _ _ := by
    have hroot : (gaugesAndMarks property).rootAlias false = "gauges" := rootAlias_gauges hproperty
    have hfield : (gaugesAndMarks property).fieldAlias gaugesEnvironment false = "marks" :=
      fieldAlias_gauges hproperty
    rw [hroot, hfield]
    rfl
  joined := answers_gauges_joined hproperty hstatements _
  batched := answers_gauges_batched hproperty hstatements

end Gauges

/-- Gauges at one level and a mark at it. -/
theorem run_joined_agrees_run_batched_gauges :
    (gaugesAndMarks "name").DeclaredTwice gaugesEnvironment (gaugesRequest "name")
        ⟨.postgres, false⟩ (gaugesDatabase (.number (.int 7)) (.number (.int 7)))
        (gaugesExecutor "name" (.number (.int 7)) (.number (.int 7))) "level" "level" .integer ∧
      (gaugesAndMarks "name").ItemsApart gaugesEnvironment false ∧
      (gaugesAndMarks "name").ZerosApart gaugesEnvironment
        (gaugesDatabase (.number (.int 7)) (.number (.int 7))) "level" "level" ∧
      (gaugesAndMarks "name").SameData gaugesEnvironment (gaugesRequest "name")
        ⟨.postgres, false⟩ (gaugesExecutor "name" (.number (.int 7)) (.number (.int 7)))
        "level" "level" := by
  have hdeclared := @declaredTwice_gauges "name" (.number (.int 7)) (.number (.int 7)) .integer
    (Or.inl rfl) rfl rfl (by decide +kernel)
  have hitems : (gaugesAndMarks "name").ItemsApart gaugesEnvironment false :=
    Or.inr (by decide +kernel)
  have hzeros : (gaugesAndMarks "name").ZerosApart gaugesEnvironment
      (gaugesDatabase (.number (.int 7)) (.number (.int 7))) "level" "level" :=
    hdeclared.contents.zerosApart (by decide)
  exact ⟨hdeclared, hitems, hzeros, run_joined_agrees_run_batched hdeclared hitems hzeros⟩

/-- A mark at a level of zero belongs to the gauges at the other zero only when it is joined
to them; and a property of a gauge named like an item of its marks is lost to the join. -/
theorem exists_declaredTwice_not_sameData :
    (∃ nested env request options database executor parentKey thisKey type,
      NestedRequest.DeclaredTwice nested env request options database executor parentKey thisKey
          type ∧
        nested.ItemsApart env options.minify ∧
        ¬ nested.SameData env request options executor parentKey thisKey) ∧
    ∃ nested env request options database executor parentKey thisKey type,
      NestedRequest.DeclaredTwice nested env request options database executor parentKey thisKey
          type ∧
        nested.ZerosApart env database parentKey thisKey ∧
        ¬ nested.SameData env request options executor parentKey thisKey := by
  constructor
  · refine ⟨_, _, _, _, _, _, _, _, _, @declaredTwice_gauges "name"
      (.number (.decimal (.zero true))) (.number (.decimal (.zero false))) .float (Or.inl rfl) rfl
        rfl (by decide +kernel), Or.inr (by decide +kernel), not_sameData ?_⟩
    decide +kernel
  · have hdeclared := @declaredTwice_gauges "marks__id" (.number (.int 7)) (.number (.int 7))
      .integer (Or.inr rfl) rfl rfl (by decide +kernel)
    refine ⟨_, _, _, _, _, _, _, _, _, hdeclared, hdeclared.contents.zerosApart (by decide),
      not_sameData ?_⟩
    decide +kernel

end Plan

end JoinPlan
