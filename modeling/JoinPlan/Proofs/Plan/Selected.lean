import JoinPlan.Proofs.Plan.Compiling

/-!
# Selecting fields of a table

Selections are compiled one field after the other: a field becomes a node, and the node
is put among the children of the table it is selected on.  What is known of the node
depends on the scope of the field, and of the scope only the junction is passed on to
fragments.  A relation between the children before and after that every field preserves
therefore holds for whole selections, and for the fragments they spread.
-/

namespace JoinPlan.Plan

/-- What filling in children does to them and to the namespace. -/
abbrev FillRelation := Namespace → Children → Namespace → Children → Prop

/-- Whether what a function compiles is filled in as a relation says. -/
def Fills (fill : FillRelation) (action : Children → Compile Children) : Prop :=
  ∀ names children after filled, action children names = .ok (filled, after) →
    fill names children after filled

/-- A field selected in a scope whose type is backed by the table it is set up with. -/
structure TableField.IsBacked (field : TableField) (env : Environment) (scope : Scope)
    (nested : Bool) : Prop where
  options : ∃ found, scope.field? field.name = some found ∧ found.options = field.options
  table : ∃ type, env.schema.type? field.typeName = some type ∧ type.table = some field.table
  related : checkRelation nested field.options field.name scope.typeName = .ok ()

/-- The node of a field that a table is set up for, `existing` being the table it was already
selected as, when the children of a table with a junction are filled in as `fill` says. -/
inductive TableNode (env : Environment) (fill : Option Junction → FillRelation)
    (field : TableField) (existing : Option (Table Node)) (names : Namespace) :
    Node → Namespace → Prop
  | again {table : Table Node} {children : Children} {after : Namespace}
      (hexisting : existing = some table)
      (hfill : fill table.info.junction? names ⟨table.shared, table.typed⟩ after children) :
      TableNode env fill field existing names
        (.table ⟨{ table.info with isAbstract := field.kind.isAbstract }, children.shared,
          children.typed⟩) after
  | new {table : Table Node} {children : Children} {between after : Namespace}
      (hexisting : existing = none) (hnew : newTable env field names = .ok (table, between))
      (hfill : fill table.info.junction? between ⟨table.shared, table.typed⟩ after children) :
      TableNode env fill field existing names
        (.table ⟨{ table.info with isAbstract := field.kind.isAbstract },
          children.shared ++ lastColumns table.info none, children.typed⟩) after

/-- The node of a field selected in a scope, `existing` being the table it was already
selected as, when the children of a table with a junction are filled in as `fill` says. -/
inductive SelectedNode (env : Environment) (fill : Option Junction → FillRelation)
    (scope : Scope) (nested : Bool) (existing : Option (Table Node)) (names : Namespace) :
    Node → Namespace → Prop
  | nothing : SelectedNode env fill scope nested existing names .nothing names
  | leaf {bucket : Option String} {name : String} {args : Arguments} {field : ScopedField}
      {node : Node} {after : Namespace} (hfield : scope.field? name = some field)
      (hleaf : compileLeaf scope bucket name args field names = .ok (node, after)) :
      SelectedNode env fill scope nested existing names node after
  | again {table : Table Node} {children : Children} {after : Namespace} (isAbstract : Bool)
      (hexisting : existing = some table)
      (hfill : fill table.info.junction? names ⟨table.shared, table.typed⟩ after children) :
      SelectedNode env fill scope nested existing names
        (.table ⟨{ table.info with isAbstract }, children.shared, children.typed⟩) after
  | new {field : TableField} {table : Table Node} {children : Children}
      {between after : Namespace} (isAbstract : Bool) (hexisting : existing = none)
      (hfield : field.IsBacked env scope nested)
      (hnew : newTable env field names = .ok (table, between))
      (hfill : fill table.info.junction? between ⟨table.shared, table.typed⟩ after children) :
      SelectedNode env fill scope nested existing names
        (.table ⟨{ table.info with isAbstract },
          children.shared ++ lastColumns table.info none, children.typed⟩) after

theorem backingTable?_eq_some {schema : Schema} {typeName : String} {options : FieldOptions}
    {type : TypeDefinition} {table : TableOptions}
    (h : backingTable? schema typeName options = some (type, table)) :
    schema.type? typeName = some type ∧ type.table = some table := by
  unfold backingTable? at h
  simp only [Option.bind_eq_bind, Option.bind_eq_some_iff] at h
  obtain ⟨found, htype, backing, htable, h⟩ := h
  split at h
  · obtain ⟨rfl, rfl⟩ := Prod.mk.inj (Option.some.inj h)
    exact ⟨htype, htable⟩
  · cases h

section Field

variable {env : Environment} {fill : Option Junction → FillRelation} {scope : Scope}
  {nested : Bool} {existing : Option (Table Node)} {names after : Namespace} {node : Node}

theorem compileTable_eq_ok {field : TableField} {type : TypeDefinition}
    {action : Scope → Children → Compile Children}
    (haction : ∀ scope, Fills (fill scope.junction) (action scope))
    (h : compileTable env field type existing action names = .ok (node, after)) :
    TableNode env fill field existing names node after := by
  obtain ⟨table, between, htable, h⟩ := Compile.bind_eq_ok.mp h
  obtain ⟨children, filled, hfilled, h⟩ := Compile.bind_eq_ok.mp h
  obtain ⟨rfl, rfl⟩ := Compile.pure_eq_ok.mp h
  have hfill := haction _ _ _ _ _ hfilled
  cases existing with
  | some found =>
      obtain ⟨rfl, rfl⟩ := Compile.pure_eq_ok.mp htable
      have hagain : TableNode env fill field (some table) between
          (.table ⟨{ table.info with isAbstract := field.kind.isAbstract }, children.shared,
            children.typed⟩) after := .again rfl hfill
      simpa [lastColumns] using hagain
  | none => exact .new rfl htable hfill

theorem TableNode.selected {field : TableField} (hfield : field.IsBacked env scope nested)
    (h : TableNode env fill field existing names node after) :
    SelectedNode env fill scope nested existing names node after := by
  cases h with
  | again hexisting hfill => exact .again field.kind.isAbstract hexisting hfill
  | new hexisting hnew hfill => exact .new field.kind.isAbstract hexisting hfield hnew hfill

/-- A field compiles to nothing, to a leaf, or to a table it is backed by. -/
theorem compileField_eq_ok {fragments : Fragments} {bucket : Option String} {name : String}
    {args : Arguments} {selections : List Selection}
    {action : Place → Scope → Children → Compile Children}
    (h : compileField env fragments scope nested bucket existing name args selections action
      names = .ok (node, after)) :
    (node = .nothing ∧ after = names) ∨
      (∃ field, scope.field? name = some field ∧
        compileLeaf scope bucket name args field names = .ok (node, after)) ∨
      ∃ field type place, field.name = name ∧ field.IsBacked env scope nested ∧
        compileTable env field type existing (action place) names = .ok (node, after) := by
  unfold compileField at h
  split at h
  · obtain ⟨rfl, rfl⟩ := Compile.pure_eq_ok.mp h
    exact Or.inl ⟨rfl, rfl⟩
  · cases hfield : scope.field? name with
    | none =>
        rw [hfield] at h
        exact absurd h Compile.not_fail_eq_ok
    | some field =>
        rw [hfield] at h
        dsimp only at h
        split at h
        · obtain ⟨rfl, rfl⟩ := Compile.pure_eq_ok.mp h
          exact Or.inl ⟨rfl, rfl⟩
        · obtain ⟨target, between, htarget, hmade⟩ := Compile.bind_eq_ok.mp h
          obtain ⟨-, rfl⟩ := Compile.lift_eq_ok.mp htarget
          cases hbacking : backingTable? env.schema target.typeName field.options with
          | none =>
              rw [hbacking] at hmade
              exact Or.inr (Or.inl ⟨field, rfl, hmade⟩)
          | some backing =>
              rw [hbacking] at hmade
              obtain ⟨_, checked, hchecked, htable⟩ := Compile.bind_eq_ok.mp hmade
              obtain ⟨hrelated, rfl⟩ := Compile.lift_eq_ok.mp hchecked
              obtain ⟨htype, hbacked⟩ := backingTable?_eq_some hbacking
              exact Or.inr (Or.inr ⟨_, _, _, rfl,
                ⟨⟨field, hfield, rfl⟩, ⟨backing.1, htype, hbacked⟩, hrelated⟩, htable⟩)

theorem compileField_selected {fragments : Fragments} {bucket : Option String} {name : String}
    {args : Arguments} {selections : List Selection}
    {action : Place → Scope → Children → Compile Children}
    (haction : ∀ place scope, Fills (fill scope.junction) (action place scope))
    (h : compileField env fragments scope nested bucket existing name args selections action
      names = .ok (node, after)) :
    SelectedNode env fill scope nested existing names node after := by
  rcases compileField_eq_ok h with ⟨rfl, rfl⟩ | ⟨field, hfield, hleaf⟩ |
    ⟨field, type, place, -, hfield, htable⟩
  · exact .nothing
  · exact .leaf hfield hleaf
  · exact (compileTable_eq_ok (haction place) htable).selected hfield

end Field

/-! ### Selections -/

/-- The child of a bucket that a field was already selected as. -/
def existingNode (nodes : List Node) (name : String) : Option Node :=
  (nodes.findIdx? (isTableOf name)).bind fun index => nodes[index]?

def existingTable (nodes : List Node) (name : String) : Option (Table Node) :=
  (existingNode nodes name).bind Node.table?

/-- The children with the node of a field put where it belongs. -/
def putField (children : Children) (bucket : Option String) (name : String) (node : Node) :
    Children :=
  children.setBucket bucket
    (putNode (children.bucket bucket) ((children.bucket bucket).findIdx? (isTableOf name)) node)

/-- A relation that selecting on a table preserves, given the table's junction. -/
structure Selecting (env : Environment) (fill : Option Junction → FillRelation) : Prop where
  refl (junction : Option Junction) (names : Namespace) (children : Children) :
    fill junction names children names children
  trans {junction : Option Junction} {names between after : Namespace}
    {children inner filled : Children} (hfirst : fill junction names children between inner)
    (hsecond : fill junction between inner after filled) :
    fill junction names children after filled
  field {scope : Scope} {names after : Namespace} {children : Children} {bucket : Option String}
    {name : String} {node : Node}
    (hnode : SelectedNode env fill scope true (existingTable (children.bucket bucket) name)
      names node after) :
    fill scope.junction names children after (putField children bucket name node)

/-- A relation that compiling a field on a table preserves whenever compiling what is selected
on the field does. -/
structure FieldByField (env : Environment) (fragments : Fragments)
    (fill : Option Junction → FillRelation) : Prop where
  refl (junction : Option Junction) (names : Namespace) (children : Children) :
    fill junction names children names children
  trans {junction : Option Junction} {names between after : Namespace}
    {children inner filled : Children} (hfirst : fill junction names children between inner)
    (hsecond : fill junction between inner after filled) :
    fill junction names children after filled
  field {scope : Scope} {bucket : Option String} {name : String} {args : Arguments}
    {selections : List Selection} {action : Place → Scope → Children → Compile Children}
    {names after : Namespace} {children : Children} {node : Node}
    (haction : ∀ place scope, Fills (fill scope.junction) (action place scope))
    (hnode : compileField env fragments scope true bucket
      (existingTable (children.bucket bucket) name) name args selections action names =
        .ok (node, after)) :
    fill scope.junction names children after (putField children bucket name node)

theorem Selecting.fieldByField {env : Environment} {fill : Option Junction → FillRelation}
    (hselecting : Selecting env fill) (fragments : Fragments) :
    FieldByField env fragments fill where
  refl := hselecting.refl
  trans := hselecting.trans
  field haction hnode := hselecting.field (compileField_selected haction hnode)

theorem rowsScope_junction {schema : Schema} {scope : Scope} {bucket condition : Option String}
    {target : Scope × Option String}
    (h : rowsScope schema scope bucket condition = .ok (some target)) :
    target.1.junction = scope.junction := by
  unfold rowsScope at h
  split at h
  · split at h
    · rw [← Option.some.inj (Except.ok.inj h)]
    · cases h
  · unfold conditionScope at h
    split at h
    · cases h
    · rw [← Option.some.inj (Except.ok.inj h)]

theorem inlineScope_junction {schema : Schema} {place : Place} {scope : Scope}
    {bucket condition : Option String} {target : Scope × Option String}
    (h : inlineScope schema place scope bucket condition = .ok (some target)) :
    target.1.junction = scope.junction := by
  unfold inlineScope at h
  split at h
  · exact rowsScope_junction h
  all_goals
    split at h
    · rw [← Option.some.inj (Except.ok.inj h)]
    · cases h

theorem spreadScope_junction {schema : Schema} {place : Place} {scope : Scope}
    {bucket : Option String} {condition : String} {target : Scope × Option String}
    (h : spreadScope schema place scope bucket condition = .ok (some target)) :
    target.1.junction = scope.junction := by
  unfold spreadScope at h
  split at h
  · exact rowsScope_junction h
  all_goals rw [← Option.some.inj (Except.ok.inj h)]

section Select

variable {env : Environment} {fill : Option Junction → FillRelation} {fragments : Fragments}
  {spread : SpreadCompiler}

theorem FieldByField.fills_pure (hfields : FieldByField env fragments fill)
    (junction : Option Junction) :
    Fills (fill junction) fun children => (pure children : Compile Children) := by
  intro names children after filled h
  obtain ⟨rfl, rfl⟩ := Compile.pure_eq_ok.mp h
  exact hfields.refl _ _ _

mutual

theorem select_fills (hfields : FieldByField env fragments fill)
    (hspread : ∀ place scope bucket name,
      Fills (fill scope.junction) (spread place scope bucket name)) :
    ∀ (selections : List Selection) (place : Place) (scope : Scope) (bucket : Option String),
      Fills (fill scope.junction) (select env fragments spread place scope bucket selections)
  | [], place, scope, bucket => hfields.fills_pure _
  | selection :: rest, place, scope, bucket => by
      intro names children after filled h
      obtain ⟨inner, between, hinner, hrest⟩ := Compile.bind_eq_ok.mp h
      exact hfields.trans
        (selectOne_fills hfields hspread selection place scope bucket _ _ _ _ hinner)
        (select_fills hfields hspread rest place scope bucket _ _ _ _ hrest)

theorem selectOne_fills (hfields : FieldByField env fragments fill)
    (hspread : ∀ place scope bucket name,
      Fills (fill scope.junction) (spread place scope bucket name)) :
    ∀ (selection : Selection) (place : Place) (scope : Scope) (bucket : Option String),
      Fills (fill scope.junction) (selectOne env fragments spread place scope bucket selection)
  | .field name args selections, .rows, scope, bucket => by
      intro names children after filled h
      obtain ⟨node, between, hnode, hput⟩ := Compile.bind_eq_ok.mp h
      obtain ⟨rfl, rfl⟩ := Compile.pure_eq_ok.mp hput
      exact hfields.field
        (fun place scope => select_fills hfields hspread selections place scope none) hnode
  | .field name args selections, .edges typeName, scope, bucket => by
      intro names children after filled h
      rw [selectOne] at h
      split at h
      · exact select_fills hfields hspread selections .rows scope bucket _ _ _ _ h
      · exact hfields.fills_pure _ _ _ _ _ h
  | .field name args selections, .connection typeName edgeType, scope, bucket => by
      intro names children after filled h
      rw [selectOne] at h
      split at h
      · exact select_fills hfields hspread selections (.edges edgeType) scope bucket
          _ _ _ _ h
      · exact hfields.fills_pure _ _ _ _ _ h
  | .inline condition selections, place, scope, bucket => by
      intro names children after filled h
      obtain ⟨found, between, hfound, hrest⟩ := Compile.bind_eq_ok.mp h
      obtain ⟨hscope, rfl⟩ := Compile.lift_eq_ok.mp hfound
      cases found with
      | none => exact hfields.fills_pure _ _ _ _ _ hrest
      | some target =>
          have hinner :=
            select_fills hfields hspread selections place target.1 target.2 _ _ _ _ hrest
          rwa [inlineScope_junction hscope] at hinner
  | .spread fragment, place, scope, bucket => hspread place scope bucket fragment

end

theorem selectSpread_fills (hfields : FieldByField env fragments fill) (depth : Nat)
    (place : Place) (scope : Scope) (bucket : Option String) (name : String) :
    Fills (fill scope.junction) (selectSpread env fragments depth place scope bucket name) := by
  induction depth generalizing place scope bucket name with
  | zero =>
      intro names children after filled h
      exact absurd h Compile.not_fail_eq_ok
  | succ depth ih =>
      intro names children after filled h
      rw [selectSpread] at h
      cases hfragment : fragments.named? name with
      | none =>
          rw [hfragment] at h
          exact absurd h Compile.not_fail_eq_ok
      | some fragment =>
          rw [hfragment] at h
          obtain ⟨found, between, hfound, hrest⟩ := Compile.bind_eq_ok.mp h
          obtain ⟨hscope, rfl⟩ := Compile.lift_eq_ok.mp hfound
          cases found with
          | none => exact hfields.fills_pure _ _ _ _ _ hrest
          | some target =>
              have hinner := select_fills hfields ih fragment.selections place target.1
                target.2 _ _ _ _ hrest
              rwa [spreadScope_junction hscope] at hinner

/-- What holds for the compiling of a field holds for whole selections, with the
fragments they spread. -/
theorem selectAll_fills (hfields : FieldByField env fragments fill) (selections : List Selection)
    (place : Place) (scope : Scope) :
    Fills (fill scope.junction) (selectAll env fragments selections place scope) :=
  select_fills hfields (selectSpread_fills hfields fragments.depth) selections place scope none

theorem selectAll_selected (hselecting : Selecting env fill) (selections : List Selection)
    (place : Place) (scope : Scope) :
    Fills (fill scope.junction) (selectAll env fragments selections place scope) :=
  selectAll_fills (hselecting.fieldByField fragments) selections place scope

end Select

end JoinPlan.Plan
