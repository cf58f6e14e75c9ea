import JoinPlan.Proofs.Plan.Selected

/-!
# What a field is in its scope

Before its selections are compiled, a field is known to be nothing, a leaf or a table: that
depends on its scope and, for a connection, on whether the fragments spread on its wrappers
are defined.  Compiling the field is compiling it as what it is, so selections are compiled
alike if they make of the field the same thing and fill in the same children.
-/

namespace JoinPlan.Plan

/-- What a field is: nothing to fetch, a leaf, or a table with the place its selections
stand in. -/
inductive FieldKind
  | nothing
  | leaf (field : ScopedField)
  | table (field : TableField) (type : TypeDefinition) (place : Place)

def fieldKind (env : Environment) (fragments : Fragments) (scope : Scope) (nested : Bool)
    (name : String) (args : Arguments) (selections : List Selection) :
    Except ConfigurationError FieldKind := do
  if ['_', '_'] <+: name.toList then return .nothing
  let some field := scope.field? name
    | .error (.unknownField name scope.typeName)
  if field.options.ignoreAll then return .nothing
  let target ← fieldTarget env.schema fragments name field selections
  match backingTable? env.schema target.typeName field.options with
  | some (type, table) => do
      checkRelation nested field.options name scope.typeName
      return .table
        { name, args, table
          options := field.options
          typeName := target.typeName
          kind := type.kind
          many := target.many
          paginate := target.paginate }
        type target.place
  | none => return .leaf field

/-- Compiles a field as what it is. -/
def FieldKind.compile (env : Environment) (scope : Scope) (bucket : Option String)
    (existing : Option (Table Node)) (name : String) (args : Arguments)
    (fill : Place → Scope → Children → Compile Children) : FieldKind → Compile Node
  | .nothing => pure .nothing
  | .leaf field => compileLeaf scope bucket name args field
  | .table field type place => compileTable env field type existing (fill place)

/-- The type of a field's rows and the place their selections stand in, if its wrappers have
the fields they need. -/
def rowsOf? (schema : Schema) (type : TypeRef) : Option (String × Place) :=
  match (schema.type? type.namedType).filter fun type =>
    type.kind == .object && type.isConnection with
  | some connection => do
      let edges ← connection.field? "edges"
      let edge ← schema.type? edges.type.namedType
      let node ← edge.field? "node"
      some (node.type.namedType, .connection type.namedType edges.type.namedType)
  | none => some (type.namedType, .rows)

/-- The first undefined fragment on the wrappers that selections stand on, if they do. -/
def undefinedIn (fragments : Fragments) (selections : List Selection) : Place → Option String
  | .connection connectionType edgeType =>
      undefinedInConnection fragments connectionType edgeType selections
  | _ => none

/-- The first undefined fragment on the wrappers of a field, if it has any. -/
def undefinedInField (schema : Schema) (fragments : Fragments) (type : TypeRef)
    (selections : List Selection) : Option String := do
  let rows ← rowsOf? schema type
  undefinedIn fragments selections rows.2

/-- A scope as tables have it: its type is the one the schema has under its name. -/
def Scope.IsKnown (schema : Schema) (scope : Scope) : Prop :=
  schema.type? scope.typeName = some scope.type

theorem Compile.lift_ok_bind {α β : Type} (value : α) (next : α → Compile β) :
    (liftM (.ok value : Except ConfigurationError α) >>= next : Compile β) = next value := rfl

theorem Compile.lift_error_bind {α β : Type} (error : ConfigurationError)
    (next : α → Compile β) :
    (liftM (.error error : Except ConfigurationError α) >>= next : Compile β) =
      liftM (.error error : Except ConfigurationError β) := rfl

/-- What follows a check matters for what the check gives alone. -/
theorem Compile.lift_bind_congr {α β : Type} {found : Except ConfigurationError α}
    {next other : α → Compile β} (h : ∀ value, found = .ok value → next value = other value) :
    (liftM found >>= next : Compile β) = liftM found >>= other := by
  cases found with
  | error error => rw [lift_error_bind, lift_error_bind]
  | ok value => exact h value rfl

section Field

variable {env : Environment} {fragments : Fragments} {scope : Scope} {nested : Bool}
  {name : String} {args : Arguments} {selections : List Selection}

theorem compileField_eq (bucket : Option String) (existing : Option (Table Node))
    (fill : Place → Scope → Children → Compile Children) :
    compileField env fragments scope nested bucket existing name args selections fill =
      (liftM (fieldKind env fragments scope nested name args selections) : Compile FieldKind) >>=
        FieldKind.compile env scope bucket existing name args fill := by
  unfold compileField fieldKind
  split
  · rfl
  · cases scope.field? name with
    | none => rfl
    | some field =>
        dsimp only
        split
        · rfl
        · cases fieldTarget env.schema fragments name field selections with
          | error error => rfl
          | ok target =>
              rw [Compile.lift_ok_bind, ok_bind]
              cases backingTable? env.schema target.typeName field.options with
              | none => rfl
              | some backing =>
                  dsimp only
                  cases checkRelation nested field.options name scope.typeName <;> rfl

/-! ### The wrappers of a field -/

/-- What is left to do once a field's wrappers are known: every fragment on them is defined. -/
def ifDefined {α : Type} (undefined : Option String) (value : α) : Except ConfigurationError α :=
  match undefined with
  | some fragment => .error (.unknownFragment fragment)
  | none => .ok value

theorem ifDefined_bind {α β : Type} (undefined : Option String) (value : α) (next : α → β) :
    (ifDefined undefined value >>= fun value => .ok (next value)) =
      ifDefined undefined (next value) := by
  cases undefined <;> rfl

theorem unwrapConnection_eq (schema : Schema) (connectionType : String)
    (connection : TypeDefinition) :
    unwrapConnection schema fragments connectionType connection selections =
      unwrapConnection schema [] connectionType connection [] >>=
        ifDefined (do
          let edges ← connection.field? "edges"
          let edge ← schema.type? edges.type.namedType
          let _ ← edge.field? "node"
          undefinedInConnection fragments connectionType edges.type.namedType selections) := by
  unfold unwrapConnection
  cases hedges : connection.field? "edges" with
  | none => rfl
  | some edges =>
      simp only [Option.bind_eq_bind, Option.bind_some]
      cases hedge : schema.type? edges.type.namedType with
      | none => rfl
      | some edge =>
          simp only [Option.bind_some]
          cases hnode : edge.field? "node" with
          | none => rfl
          | some node =>
              change (match undefinedInConnection fragments connectionType
                edges.type.namedType selections with
                | some fragment => _
                | none => _) = ifDefined (undefinedInConnection fragments connectionType
                  edges.type.namedType selections) _
              cases undefinedInConnection fragments connectionType edges.type.namedType
                selections <;> rfl

theorem fieldTarget_cases (schema : Schema) (field : ScopedField) :
    fieldTarget schema fragments name field selections =
      match (schema.type? field.type.namedType).filter fun type =>
        type.kind == .object && type.isConnection with
      | some connection => do
          let rows ← unwrapConnection schema fragments field.type.namedType connection selections
          .ok ⟨rows.1, true, field.options.sqlPaginate, rows.2⟩
      | none =>
          if field.options.sqlPaginate then
            .error (.paginationOnNonConnection name field.type.namedType)
          else .ok ⟨field.type.namedType, field.type.isList, false, .rows⟩ := by
  have hnamed := field.type.namedType_nullable
  unfold fieldTarget TypeRef.isList
  generalize field.type.namedType = typeName at hnamed ⊢
  cases hnullable : field.type.nullable with
  | list item =>
      rw [hnullable] at hnamed
      have hitem : item.nullable.namedType = typeName := item.namedType_nullable.trans hnamed
      subst hitem
      rfl
  | named name | nonNull type =>
      rw [hnullable] at hnamed
      subst hnamed
      rfl

/-- The selections below a field decide on its target only by the fragments they spread on
its wrappers, which have to be defined. -/
theorem fieldTarget_eq_bind (schema : Schema) (field : ScopedField) :
    fieldTarget schema fragments name field selections =
      fieldTarget schema [] name field [] >>=
        ifDefined (undefinedInField schema fragments field.type selections) := by
  rw [fieldTarget_cases, fieldTarget_cases]
  unfold undefinedInField rowsOf?
  cases (schema.type? field.type.namedType).filter fun type =>
      type.kind == .object && type.isConnection with
  | none =>
      dsimp only
      split <;> rfl
  | some connection =>
      dsimp only
      rw [unwrapConnection_eq]
      simp only [Option.bind_eq_bind, Option.bind_some, Option.bind_assoc]
      cases unwrapConnection schema [] field.type.namedType connection [] with
      | error error => rfl
      | ok rows =>
          simp only [ok_bind, undefinedIn]
          exact ifDefined_bind _ _ _

/-- The first undefined fragment on the wrappers of a field of a scope. -/
def Scope.undefined? (env : Environment) (fragments : Fragments) (scope : Scope) (name : String)
    (selections : List Selection) : Option String := do
  let field ← scope.field? name
  undefinedInField env.schema fragments field.type selections

theorem definition_of_field? {found : ScopedField} (h : scope.field? name = some found) :
    ∃ definition, scope.type.field? name = some definition ∧ found.type = definition.type := by
  unfold Scope.field? at h
  obtain ⟨definition, hdefinition, hfound⟩ := Option.map_eq_some_iff.mp h
  refine ⟨definition, hdefinition, ?_⟩
  rw [← hfound]
  dsimp only
  split <;> rfl

theorem fieldKind_congr {others : Fragments} {otherSelections : List Selection}
    (h : scope.undefined? env fragments name selections =
      scope.undefined? env others name otherSelections) :
    fieldKind env fragments scope nested name args selections =
      fieldKind env others scope nested name args otherSelections := by
  unfold Scope.undefined? at h
  unfold fieldKind
  split
  · rfl
  · cases hfield : scope.field? name with
    | none => rfl
    | some field =>
        have hsame : undefinedInField env.schema fragments field.type selections =
            undefinedInField env.schema others field.type otherSelections := by
          simpa [hfield] using h
        dsimp only
        rw [fieldTarget_eq_bind, hsame, ← fieldTarget_eq_bind]

/-- What a field is does not depend on its selections, as long as no undefined fragment is
spread on its wrappers. -/
theorem fieldKind_eq_ok_iff {kind : FieldKind} :
    fieldKind env fragments scope nested name args selections = .ok kind ↔
      fieldKind env [] scope nested name args [] = .ok kind ∧
        (kind = .nothing ∨ scope.undefined? env fragments name selections = none) := by
  unfold fieldKind Scope.undefined?
  split
  · exact ⟨fun h => ⟨h, .inl (Except.ok.inj h).symm⟩, And.left⟩
  · cases scope.field? name with
    | none => exact ⟨nofun, fun h => nomatch h.1⟩
    | some field =>
        dsimp only
        split
        · exact ⟨fun h => ⟨h, .inl (Except.ok.inj h).symm⟩, And.left⟩
        · have htarget : fieldTarget env.schema fragments name field selections = _ :=
            fieldTarget_eq_bind env.schema field
          rw [htarget]
          cases fieldTarget env.schema [] name field [] with
          | error error => exact ⟨nofun, fun h => nomatch h.1⟩
          | ok target =>
              simp only [ok_bind, Option.bind_eq_bind, Option.bind_some]
              cases undefinedInField env.schema fragments field.type selections with
              | none => exact ⟨fun h => ⟨h, .inr rfl⟩, And.left⟩
              | some fragment =>
                  refine ⟨nofun, ?_⟩
                  rintro ⟨hkind, rfl | hnone⟩
                  · cases hbacking : backingTable? env.schema target.typeName field.options with
                    | none => rw [hbacking] at hkind; cases hkind
                    | some backing =>
                        rw [hbacking] at hkind
                        dsimp only at hkind
                        cases hrelation : checkRelation nested field.options name
                            scope.typeName with
                        | error error => rw [hrelation] at hkind; cases hkind
                        | ok checked => rw [hrelation] at hkind; cases hkind
                  · cases hnone

theorem unwrapConnection_eq_ok {schema : Schema} {connectionType : String}
    {connection : TypeDefinition} {rows : String × Place}
    (h : unwrapConnection schema fragments connectionType connection selections = .ok rows) :
    ∃ edges edge node, connection.field? "edges" = some edges ∧
      schema.type? edges.type.namedType = some edge ∧ edge.field? "node" = some node ∧
      rows = (node.type.namedType, .connection connectionType edges.type.namedType) := by
  unfold unwrapConnection at h
  cases hedges : connection.field? "edges" with
  | none => rw [hedges] at h; cases h
  | some edges =>
      rw [hedges] at h
      dsimp only at h
      cases hedge : schema.type? edges.type.namedType with
      | none => rw [hedge] at h; cases h
      | some edge =>
          rw [hedge] at h
          dsimp only at h
          cases hnode : edge.field? "node" with
          | none => rw [hnode] at h; cases h
          | some node =>
              rw [hnode] at h
              dsimp only at h
              split at h
              · cases h
              · exact ⟨edges, edge, node, rfl, hedge, hnode, (Except.ok.inj h).symm⟩

theorem rowsOf?_of_fieldTarget {schema : Schema} {field : ScopedField} {target : FieldTarget}
    (h : fieldTarget schema fragments name field selections = .ok target) :
    rowsOf? schema field.type = some (target.typeName, target.place) := by
  rw [fieldTarget_cases] at h
  unfold rowsOf?
  split at h
  · obtain ⟨rows, hrows, h⟩ := bind_eq_ok.mp h
    obtain rfl := Except.ok.inj h
    obtain ⟨edges, edge, node, hedges, hedge, hnode, rfl⟩ := unwrapConnection_eq_ok hrows
    simp [hedges, hedge, hnode]
  · split at h
    · cases h
    · rw [← Except.ok.inj h]

/-- A field that is a table is selected on rows of the type the schema has for them, where its
wrappers say. -/
theorem fieldKind_table {field : TableField} {type : TypeDefinition} {place : Place}
    (h : fieldKind env fragments scope nested name args selections =
      .ok (.table field type place)) :
    field.name = name ∧ field.IsBacked env scope nested ∧
      env.schema.type? field.typeName = some type ∧
      ∃ found, scope.field? name = some found ∧
        rowsOf? env.schema found.type = some (field.typeName, place) := by
  unfold fieldKind at h
  split at h
  · cases h
  · cases hfield : scope.field? name with
    | none => rw [hfield] at h; cases h
    | some found =>
        rw [hfield] at h
        dsimp only at h
        split at h
        · cases h
        · obtain ⟨target, htarget, h⟩ := bind_eq_ok.mp h
          cases hbacking : backingTable? env.schema target.typeName found.options with
          | none => rw [hbacking] at h; cases h
          | some backing =>
              rw [hbacking] at h
              obtain ⟨checked, hchecked, h⟩ := bind_eq_ok.mp h
              obtain ⟨rfl, rfl, rfl⟩ := FieldKind.table.inj (Except.ok.inj h)
              obtain ⟨htype, htable⟩ := backingTable?_eq_some hbacking
              exact ⟨rfl, ⟨⟨found, hfield, rfl⟩, ⟨_, htype, htable⟩, hchecked⟩, htype, found, rfl,
                rowsOf?_of_fieldTarget htarget⟩

/-- A field compiles alike with fills that agree on the scopes of its rows. -/
theorem compileField_congr {others : Fragments} {otherSelections : List Selection}
    (hundefined : scope.undefined? env fragments name selections =
      scope.undefined? env others name otherSelections)
    {fill other : Place → Scope → Children → Compile Children}
    (hfill : ∀ found place inner children, scope.field? name = some found →
      rowsOf? env.schema found.type = some (inner.typeName, place) →
      inner.IsKnown env.schema → fill place inner children = other place inner children)
    (bucket : Option String) (existing : Option (Table Node)) :
    compileField env fragments scope nested bucket existing name args selections fill =
      compileField env others scope nested bucket existing name args otherSelections other := by
  rw [compileField_eq, compileField_eq, ← fieldKind_congr hundefined]
  refine Compile.lift_bind_congr fun kind hkind => ?_
  cases kind with
  | nothing | leaf field => rfl
  | table field type place =>
      obtain ⟨-, -, hknown, found, hfound, hrows⟩ := fieldKind_table hkind
      rw [FieldKind.compile, FieldKind.compile, compileTable, compileTable]
      congr 1
      funext table
      have hsame := hfill found place ⟨field.typeName, type, table.info.junction?⟩
        ⟨table.shared, table.typed⟩ hfound hrows hknown
      dsimp only
      rw [hsame]

end Field

/-! ### Scopes of fragments -/

theorem rowsScope_isKnown {schema : Schema} {scope : Scope} {bucket condition : Option String}
    {target : Scope × Option String} (hscope : scope.IsKnown schema)
    (h : rowsScope schema scope bucket condition = .ok (some target)) :
    target.1.IsKnown schema := by
  unfold rowsScope at h
  split at h
  · split at h
    · rw [← Option.some.inj (Except.ok.inj h)]
      exact hscope
    · cases h
  · unfold conditionScope at h
    split at h
    · cases h
    · rename_i type htype
      rw [← Option.some.inj (Except.ok.inj h)]
      exact htype

theorem inlineScope_isKnown {schema : Schema} {place : Place} {scope : Scope}
    {bucket condition : Option String} {target : Scope × Option String}
    (hscope : scope.IsKnown schema)
    (h : inlineScope schema place scope bucket condition = .ok (some target)) :
    target.1.IsKnown schema := by
  unfold inlineScope at h
  split at h
  · exact rowsScope_isKnown hscope h
  all_goals
    split at h
    · rw [← Option.some.inj (Except.ok.inj h)]
      exact hscope
    · cases h

theorem spreadScope_isKnown {schema : Schema} {place : Place} {scope : Scope}
    {bucket : Option String} {condition : String} {target : Scope × Option String}
    (hscope : scope.IsKnown schema)
    (h : spreadScope schema place scope bucket condition = .ok (some target)) :
    target.1.IsKnown schema := by
  unfold spreadScope at h
  split at h
  · exact rowsScope_isKnown hscope h
  all_goals
    rw [← Option.some.inj (Except.ok.inj h)]
    exact hscope

/-! ### Fields on wrappers -/

/-- Where the selections of a field on a wrapper stand, if they are compiled. -/
def Place.inside? (name : String) : Place → Option Place
  | .rows => none
  | .edges _ => if name = "node" then some .rows else none
  | .connection _ edgeType => if name = "edges" then some (.edges edgeType) else none

/-- A field on a wrapper is passed through, or left out. -/
theorem selectOne_wrapper (env : Environment) {place : Place} (hplace : place ≠ .rows)
    (scope : Scope) (bucket : Option String) (name : String) (args : Arguments)
    (fragments : Fragments) (spread : SpreadCompiler) (selections : List Selection)
    (children : Children) :
    selectOne env fragments spread place scope bucket (.field name args selections) children =
      match place.inside? name with
      | some inside => select env fragments spread inside scope bucket selections children
      | none => pure children := by
  cases place with
  | rows => exact absurd rfl hplace
  | edges typeName | connection typeName edgeType =>
      rw [selectOne, Place.inside?]
      split <;> rfl

/-! ### Selections in a row -/

section Append

variable {env : Environment} {fragments : Fragments} {spread : SpreadCompiler} {place : Place}
  {scope : Scope} {bucket : Option String}

theorem select_append (first second : List Selection) (children : Children) :
    select env fragments spread place scope bucket (first ++ second) children =
      select env fragments spread place scope bucket first children >>=
        select env fragments spread place scope bucket second := by
  induction first generalizing children with
  | nil => rw [List.nil_append, select, pure_bind]
  | cons selection rest ih =>
      rw [List.cons_append, select, select, bind_assoc]
      congr 1
      funext between
      exact ih between

theorem undefinedAmong_append (typeName : String)
    (field : String → List Selection → Option String) (spread : String → Option String)
    (first second : List Selection) :
    undefinedAmong typeName field spread (first ++ second) =
      (undefinedAmong typeName field spread first <|>
        undefinedAmong typeName field spread second) := by
  induction first with
  | nil => rfl
  | cons selection rest ih =>
      rw [List.cons_append, undefinedAmong, undefinedAmong, ih]
      cases undefinedAt typeName field spread selection <;> rfl

end Append

/-! ### Selections that compile alike -/

section Congruence

variable {env : Environment} {fragments others : Fragments} {spread other : SpreadCompiler}
  {place : Place} {scope : Scope} {bucket : Option String} {children : Children}

theorem select_cons_congr {selection another : Selection} {rest more : List Selection}
    (hfirst : selectOne env fragments spread place scope bucket selection children =
      selectOne env others other place scope bucket another children)
    (hrest : ∀ between, select env fragments spread place scope bucket rest between =
      select env others other place scope bucket more between) :
    select env fragments spread place scope bucket (selection :: rest) children =
      select env others other place scope bucket (another :: more) children := by
  rw [select, select, hfirst]
  congr 1
  funext between
  exact hrest between

/-- A field compiles alike if its wrappers do, and what is selected on them or on its rows. -/
theorem selectOne_field_congr {name : String} {args : Arguments} {inner another : List Selection}
    (hundefined : place = .rows → scope.undefined? env fragments name inner =
      scope.undefined? env others name another)
    (hrows : place = .rows → ∀ found standing below children, scope.field? name = some found →
      rowsOf? env.schema found.type = some (below.typeName, standing) →
      below.IsKnown env.schema →
        select env fragments spread standing below none inner children =
          select env others other standing below none another children)
    (hinside : ∀ inside, place.inside? name = some inside →
      select env fragments spread inside scope bucket inner children =
        select env others other inside scope bucket another children) :
    selectOne env fragments spread place scope bucket (.field name args inner) children =
      selectOne env others other place scope bucket (.field name args another) children := by
  by_cases hplace : place = .rows
  · subst hplace
    rw [selectOne, selectOne]
    simp only [compileField_congr (hundefined rfl) (hrows rfl)]
  · rw [selectOne_wrapper env hplace, selectOne_wrapper env hplace]
    cases hstanding : place.inside? name with
    | none => rfl
    | some inside => exact hinside inside hstanding

/-- A fragment without a name compiles alike if its selections do where it applies. -/
theorem selectOne_inline_congr {condition : Option String} {inner another : List Selection}
    (hinner : ∀ target, inlineScope env.schema place scope bucket condition = .ok (some target) →
      select env fragments spread place target.1 target.2 inner children =
        select env others other place target.1 target.2 another children) :
    selectOne env fragments spread place scope bucket (.inline condition inner) children =
      selectOne env others other place scope bucket (.inline condition another) children := by
  rw [selectOne, selectOne]
  refine Compile.lift_bind_congr fun target htarget => ?_
  cases target with
  | none => rfl
  | some target => exact hinner target htarget

end Congruence

end JoinPlan.Plan
