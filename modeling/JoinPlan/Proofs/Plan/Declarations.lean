import JoinPlan.Proofs.Plan.NestedRequests

/-!
# Declaring a field anew

A schema with other options for one of its fields.  What is selected beside the field and
below it stays what it was, so a request for a table with another one below it has one plan,
but for the relation, however the other table is declared to be reached.
-/

namespace JoinPlan

/-- Changes the values under one key. -/
def Assoc.modify {K V : Type} [DecidableEq K] (key : K) (change : V → V)
    (entries : List (K × V)) : List (K × V) :=
  entries.map fun entry => (entry.1, if entry.1 = key then change entry.2 else entry.2)

theorem Assoc.get?_mapWithKey {K V W : Type} [DecidableEq K] (change : K → V → W) (key : K)
    (entries : List (K × V)) :
    Assoc.get? key (entries.map fun entry => (entry.1, change entry.1 entry.2)) =
      (Assoc.get? key entries).map (change key) := by
  induction entries with
  | nil => rfl
  | cons entry rest ih =>
      rw [List.map_cons, Assoc.get?, Assoc.get?, ih]
      split
      · rename_i heq
        rw [heq]
        rfl
      · rfl

theorem Assoc.get?_modify {K V : Type} [DecidableEq K] (key other : K) (change : V → V)
    (entries : List (K × V)) :
    Assoc.get? other (Assoc.modify key change entries) =
      if other = key then (Assoc.get? other entries).map change else Assoc.get? other entries := by
  rw [Assoc.modify,
    Assoc.get?_mapWithKey (fun name value => if name = key then change value else value)]
  split <;> simp

/-- Options for a field of a type. -/
structure Declaration where
  typeName : String
  fieldName : String
  options : FieldOptions

namespace Declaration

variable (declaration : Declaration)

/-- Whether a field of a type is the one declared. -/
def Declares (typeName fieldName : String) : Prop :=
  typeName = declaration.typeName ∧ fieldName = declaration.fieldName

/-- What becomes of the type of a name. -/
def type (name : String) (type : TypeDefinition) : TypeDefinition where
  kind := type.kind
  fields :=
    if name = declaration.typeName then
      Assoc.modify declaration.fieldName
        (fun definition => { definition with options := declaration.options }) type.fields
    else type.fields
  interfaces := type.interfaces
  possibleTypes := type.possibleTypes
  table := type.table

def schema (schema : Schema) : Schema :=
  ⟨schema.types.map fun entry => (entry.1, declaration.type entry.1 entry.2)⟩

def environment (env : Plan.Environment) : Plan.Environment :=
  ⟨declaration.schema env.schema, env.context⟩

def rows (rows : Plan.RowType) : Plan.RowType :=
  { rows with type := declaration.type rows.name rows.type }

section Lookup

variable {declaration : Declaration} {name field : String} {type : TypeDefinition}

theorem type?_schema (declaration : Declaration) (schema : Schema) (name : String) :
    (declaration.schema schema).type? name = (schema.type? name).map (declaration.type name) :=
  Assoc.get?_mapWithKey declaration.type name schema.types

theorem field?_type_self :
    (declaration.type declaration.typeName type).field? declaration.fieldName =
      (type.field? declaration.fieldName).map fun definition =>
        { definition with options := declaration.options } := by
  rw [TypeDefinition.field?, Declaration.type, if_pos rfl, Assoc.get?_modify, if_pos rfl]
  rfl

/-- Other fields, and those of other types, stay as they are. -/
theorem field?_type_of_not (h : ¬ declaration.Declares name field) :
    (declaration.type name type).field? field = type.field? field := by
  rw [TypeDefinition.field?, Declaration.type]
  split
  · rename_i hname
    rw [Assoc.get?_modify, if_neg fun hfield => h ⟨hname, hfield⟩]
    rfl
  · rfl

theorem isConnection_type (declaration : Declaration) (name : String) (type : TypeDefinition) :
    (declaration.type name type).isConnection = type.isConnection := by
  have hcontains (field : String) : Assoc.contains field (declaration.type name type).fields =
      Assoc.contains field type.fields := by
    rw [Assoc.contains, Assoc.contains, Declaration.type]
    split
    · rw [Assoc.get?_modify]
      split <;> simp
    · rfl
  rw [TypeDefinition.isConnection, TypeDefinition.isConnection, hcontains, hcontains]

theorem backingTable?_schema (declaration : Declaration) (schema : Schema) (name : String)
    (options : FieldOptions) :
    Plan.backingTable? (declaration.schema schema) name options =
      (Plan.backingTable? schema name options).map fun found =>
        (declaration.type name found.1, found.2) := by
  unfold Plan.backingTable?
  rw [type?_schema]
  cases schema.type? name with
  | none => rfl
  | some type =>
      change (type.table >>= _) = Option.map _ (type.table >>= _)
      cases type.table with
      | none => rfl
      | some table =>
          change (if type.kind.isComposite && !options.ignoreTable then _ else _) =
            Option.map _ (if type.kind.isComposite && !options.ignoreTable then _ else _)
          split <;> rfl

/-- A column that is not the field declared is still one. -/
theorem hasColumn_type {schema : Schema} (hcolumn : type.HasColumn schema field)
    (h : ¬ declaration.Declares name field) :
    (declaration.type name type).HasColumn (declaration.schema schema) field := by
  obtain ⟨hreserved, definition, hdefinition, hplain⟩ := hcolumn
  refine ⟨hreserved, definition, (field?_type_of_not h).trans hdefinition, hplain.notIgnored,
    hplain.notComputed, hplain.notDerived, hplain.notPaginated, ?_, ?_⟩
  · intro target htarget
    rw [type?_schema] at htarget
    obtain ⟨found, hfound, rfl⟩ := Option.map_eq_some_iff.mp htarget
    rw [isConnection_type]
    exact hplain.notConnection found hfound
  · rw [backingTable?_schema, hplain.notTable]
    rfl

theorem columnOf_type (h : ¬ declaration.Declares name field) :
    (declaration.type name type).columnOf field = type.columnOf field := by
  rw [TypeDefinition.columnOf, TypeDefinition.columnOf, field?_type_of_not h]

theorem selectedEntries_type {listed : List Plan.Occurrence}
    (h : ∀ occurrence ∈ listed, ¬ declaration.Declares name occurrence.name) :
    Plan.selectedEntries (declaration.type name type) listed =
      Plan.selectedEntries type listed :=
  List.map_congr_left fun occurrence hoccurrence => by
    rw [columnOf_type (h occurrence hoccurrence)]

/-- Fragments apply to a type whatever its fields. -/
theorem occurrences?_rows (declaration : Declaration) (fragments : Fragments)
    (rows : Plan.RowType) (depth : Nat) (selections : List Selection) :
    Plan.occurrences? fragments (declaration.rows rows).scope depth selections =
      Plan.occurrences? fragments rows.scope depth selections := by
  have hmatches : (declaration.rows rows).scope.matches = rows.scope.matches := by
    funext condition
    cases condition <;> rfl
  rw [Plan.occurrences?, Plan.occurrences?, hmatches]

theorem isIn_rows {schema : Schema} {rows : Plan.RowType} (h : rows.IsIn schema) :
    (declaration.rows rows).IsIn (declaration.schema schema) where
  found := by
    change (declaration.schema schema).type? rows.name = _
    rw [type?_schema, h.found]
    rfl
  kind := h.kind
  notConnection := (isConnection_type declaration rows.name rows.type).trans h.notConnection
  table := h.table
  key := h.key

end Lookup

end Declaration

namespace Plan

/-! ### Requests -/

namespace NestedRequest

variable (nested : NestedRequest) (options : FieldOptions)

/-- The list field declared with some options. -/
def declaration : Declaration := ⟨nested.root.rows.name, nested.field.name, options⟩

/-- The request with the list field declared anew. -/
def declared : NestedRequest :=
  { nested with
    root := { nested.root with rows := (nested.declaration options).rows nested.root.rows }
    field :=
      { nested.field with
        options := options
        rows := (nested.declaration options).rows nested.field.rows } }

end NestedRequest

section Declared

variable {env : Environment} {nested : NestedRequest} {request : Request}
  {options : FieldOptions}

theorem RowField.below_declared (nested : NestedRequest) (options : FieldOptions)
    (occurrence : Occurrence) :
    (nested.declared options).field.below nested.fragments occurrence =
      nested.field.below nested.fragments occurrence :=
  congrArg (·.getD []) ((nested.declaration options).occurrences?_rows nested.fragments
    nested.field.rows occurrence.depth occurrence.selections)

/-- The list field is no column, whatever type it is looked up in. -/
theorem NestedRequest.IsAsked.not_declares_column (hasked : nested.IsAsked env request)
    {rows : RowType} (hrows : rows.IsIn env.schema) {name : String}
    (hcolumn : rows.type.HasColumn env.schema name) :
    ¬ (nested.declaration options).Declares rows.name name := by
  rintro ⟨htype, rfl⟩
  have hsame : rows.type = nested.root.rows.type := by
    have hfound := hrows.found
    rw [show rows.name = nested.root.rows.name from htype, hasked.rootRows.found] at hfound
    exact (Option.some.inj hfound).symm
  obtain ⟨-, definition, hdefinition, hplain⟩ := hcolumn
  rw [hsame] at hdefinition
  obtain rfl := Option.some.inj (hasked.field.definition.symm.trans hdefinition)
  have hbacked : backingTable? env.schema nested.field.ref.namedType nested.field.options =
      some (nested.field.rows.type, nested.field.rows.table) := by
    rw [hasked.field.target]
    simp [backingTable?, hasked.fieldRows.found, hasked.fieldRows.table, hasked.fieldRows.kind,
      TypeKind.isComposite, hasked.field.bare.ignoreTable]
  have hnone := hplain.notTable
  rw [hbacked] at hnone
  cases hnone

theorem not_declares_of_ne {name : String} (hname : name ≠ nested.field.name) (typeName : String) :
    ¬ (nested.declaration options).Declares typeName name :=
  fun h => hname h.2

/-- What is asked for stays so when the list field is declared anew. -/
theorem NestedRequest.IsAsked.declared (hasked : nested.IsAsked env request)
    (hapart : ¬ (nested.declaration options).Declares request.parentType nested.root.name)
    (hbare : options.IsBare) :
    (nested.declared options).IsAsked ((nested.declaration options).environment env) request where
  query := by
    obtain ⟨query, hquery, hroot⟩ := hasked.query
    refine ⟨(nested.declaration options).type request.parentType query, ?_, hroot.notReserved,
      (Declaration.field?_type_of_not hapart).trans hroot.definition, hroot.target, hroot.bare⟩
    change ((nested.declaration options).schema env.schema).type? _ = _
    rw [Declaration.type?_schema, hquery]
    rfl
  rootRows := Declaration.isIn_rows hasked.rootRows
  rootBare := hasked.rootBare
  rootJoin := hasked.rootJoin
  rootBatch := hasked.rootBatch
  field :=
    ⟨hasked.field.notReserved, by
      have hself := @Declaration.field?_type_self (nested.declaration options)
        nested.root.rows.type
      refine hself.trans ?_
      change Option.map _ (nested.root.rows.type.field? nested.field.name) = _
      rw [hasked.field.definition]
      rfl, hasked.field.target, hbare⟩
  fieldRows := Declaration.isIn_rows hasked.fieldRows
  fragments := hasked.fragments
  merged := by
    obtain ⟨selections, hmerged, hlisted⟩ := hasked.merged
    refine ⟨selections, hmerged, ?_⟩
    exact ((nested.declaration options).occurrences?_rows _ _ _ _).trans hlisted
  front := hasked.front
  first := hasked.first
  selects occurrence hoccurrence := by
    have hselects := hasked.selects occurrence hoccurrence
    refine ⟨fun hname => Declaration.hasColumn_type (hselects.column hname)
      (not_declares_of_ne hname _), fun hname => ?_⟩
    obtain ⟨listed, hlisted, hcolumns⟩ := hselects.below hname
    refine ⟨listed, ((nested.declaration options).occurrences?_rows _ _ _ _).trans hlisted, ?_⟩
    intro other hother
    exact Declaration.hasColumn_type (hcolumns other hother)
      (hasked.not_declares_column hasked.fieldRows (hcolumns other hother))

/-- Below the list field there are columns only. -/
theorem NestedRequest.IsAsked.hasColumn_of_mem_below (hasked : nested.IsAsked env request)
    {occurrence : Occurrence} (hoccurrence : occurrence ∈ nested.first :: nested.rest)
    (hname : occurrence.name = nested.field.name) {other : Occurrence}
    (hother : other ∈ nested.field.below nested.fragments occurrence) :
    nested.field.rows.type.HasColumn env.schema other.name := by
  obtain ⟨listed, hlisted, hcolumns⟩ :=
    (hasked.selects occurrence (List.mem_append_right _ hoccurrence)).below hname
  rw [RowField.below, hlisted] at hother
  exact hcolumns other hother

theorem NestedRequest.before_declared (hasked : nested.IsAsked env request) (minify : Bool) :
    (nested.declared options).before ((nested.declaration options).environment env) minify =
      nested.before env minify := by
  have hselected : selectedEntries (nested.declared options).root.rows.type nested.front =
      selectedEntries nested.root.rows.type nested.front :=
    Declaration.selectedEntries_type fun occurrence hoccurrence =>
      not_declares_of_ne (hasked.front occurrence hoccurrence) _
  rw [NestedRequest.before, NestedRequest.before]
  exact congrArg (_ ++ ·) hselected

theorem NestedRequest.after_declared (nested : NestedRequest) (options : FieldOptions) :
    (nested.declared options).after = nested.after := by
  apply Declaration.selectedEntries_type
  intro occurrence hoccurrence
  have hname : (occurrence.name != nested.field.name) = true := (List.mem_filter.mp hoccurrence).2
  exact not_declares_of_ne (by simpa using hname) _

theorem NestedRequest.fieldAlias_declared (hasked : nested.IsAsked env request)
    (minify : Bool) :
    (nested.declared options).fieldAlias ((nested.declaration options).environment env) minify =
      nested.fieldAlias env minify := by
  rw [NestedRequest.fieldAlias, NestedRequest.before_declared hasked]
  rfl

theorem NestedRequest.others_declared (hasked : nested.IsAsked env request) (minify : Bool)
    (last : List (String × String)) :
    (nested.declared options).others ((nested.declaration options).environment env) minify last =
      nested.others env minify last := by
  have hbelow {occurrence : Occurrence} (hoccurrence : occurrence ∈ nested.first :: nested.rest)
      (hname : occurrence.name = nested.field.name) :
      ∀ other ∈ nested.field.below nested.fragments occurrence,
        ¬ (nested.declaration options).Declares nested.field.rows.name other.name :=
    fun other hother => hasked.not_declares_column hasked.fieldRows
      (hasked.hasColumn_of_mem_below hoccurrence hname hother)
  have hfirst : selectedEntries (nested.declared options).field.rows.type
      ((nested.declared options).field.below nested.fragments nested.first) =
        selectedEntries nested.field.rows.type
          (nested.field.below nested.fragments nested.first) := by
    rw [RowField.below_declared]
    exact Declaration.selectedEntries_type (hbelow List.mem_cons_self hasked.first)
  have hrest : (nested.declared options).field.columnsBelow nested.fragments nested.rest =
      nested.field.columnsBelow nested.fragments nested.rest := by
    have hsame : (nested.declared options).field.below nested.fragments =
        nested.field.below nested.fragments := funext (RowField.below_declared nested options)
    rw [RowField.columnsBelow, hsame]
    apply Declaration.selectedEntries_type
    intro other hother
    obtain ⟨occurrence, hoccurrence, hmem⟩ := List.mem_flatMap.mp hother
    obtain ⟨hlisted, hname⟩ := List.mem_filter.mp hoccurrence
    exact hbelow (List.mem_cons_of_mem _ hlisted) (beq_iff_eq.mp hname) other hmem
  rw [NestedRequest.others, NestedRequest.others, RowField.entries, RowField.entries,
    NestedRequest.fieldAlias_declared hasked]
  change _ ++ (selectedEntries _ ((nested.declared options).field.below nested.fragments
    nested.first) ++ last) ++ (nested.declared options).field.columnsBelow nested.fragments
      nested.rest = _
  rw [hfirst, hrest]
  rfl

/-- The plan does not depend on how the list field is declared, but for its relation. -/
theorem NestedRequest.plan_declared (hasked : nested.IsAsked env request) (minify : Bool)
    (reach : Namespace → Option Relation) (last : List (String × String)) (names : Namespace) :
    (nested.declared options).plan ((nested.declaration options).environment env) minify reach
        last names = nested.plan env minify reach last names := by
  rw [NestedRequest.plan, NestedRequest.plan, NestedRequest.before_declared hasked,
    NestedRequest.after_declared, NestedRequest.others_declared hasked,
    NestedRequest.fieldInfo, NestedRequest.fieldAlias_declared hasked]
  rfl

/-- The plan of a request whose list field is declared anew. -/
theorem compile_declared (hasked : nested.IsAsked env request)
    (hapart : ¬ (nested.declaration options).Declares request.parentType nested.root.name)
    (hbare : options.IsBare) {reach : Namespace → Option Relation}
    {keys last : List (String × String)}
    (hreached : ReachedBy ((nested.declaration options).environment env) options reach keys last)
    (hrelation : checkRelation true options nested.field.name nested.root.rows.name = .ok ())
    (minify : Bool) :
    ∃ names, compile ((nested.declaration options).environment env) minify request =
        .ok (nested.plan env minify reach last names) ∧
      (Namespace.fresh minify).Grows names ∧
      ∀ entry ∈ keys ++ nested.before env minify ++ nested.after ++
        nested.others env minify last, names.Knows entry.1 := by
  obtain ⟨names, hcompiled, hgrows, hknown⟩ :=
    compile_nested (hasked.declared hapart hbare) hreached hrelation minify
  rw [NestedRequest.plan_declared hasked] at hcompiled
  rw [NestedRequest.before_declared hasked, NestedRequest.after_declared,
    NestedRequest.others_declared hasked] at hknown
  exact ⟨names, hcompiled, hgrows, hknown⟩

end Declared

end Plan

end JoinPlan
