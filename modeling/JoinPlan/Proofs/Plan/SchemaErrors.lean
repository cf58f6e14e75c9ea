import JoinPlan.Proofs.Plan.FieldKinds

/-!
# Why a request has no plan

A request that names a field either has a plan, or there is a mistake between it and the
schema: compiling fails with a configuration error and with no other.
-/

namespace JoinPlan.Plan

/-- Compiling that fails with configuration errors only. -/
def BlamesSchema {α : Type} (action : Compile α) : Prop :=
  ∀ names error, action names = .error error → ∃ cause, error = .configuration cause

namespace BlamesSchema

variable {α β : Type}

theorem pure (value : α) : BlamesSchema (pure value : Compile α) := nofun

theorem modify (f : Namespace → α × Namespace) : BlamesSchema (modifyGet f : Compile α) := nofun

theorem fail (error : ConfigurationError) : BlamesSchema (Compile.fail error : Compile α) := by
  rintro names _ ⟨⟩
  exact ⟨error, rfl⟩

theorem lift (action : Except ConfigurationError α) :
    BlamesSchema (liftM action : Compile α) := by
  intro names error h
  cases action with
  | error cause =>
      cases h
      exact ⟨cause, rfl⟩
  | ok value => cases h

theorem bind {action : Compile α} {next : α → Compile β} (h : BlamesSchema action)
    (hnext : ∀ value, BlamesSchema (next value)) : BlamesSchema (action >>= next) := by
  intro names error herror
  change (action names >>= fun found => next found.1 found.2) = .error error at herror
  cases hfound : action names with
  | error cause =>
      rw [hfound] at herror
      cases herror
      exact h names _ hfound
  | ok found =>
      rw [hfound] at herror
      exact hnext found.1 found.2 error herror

theorem map {action : Compile α} (f : α → β) (h : BlamesSchema action) :
    BlamesSchema (f <$> action) := by
  rw [map_eq_pure_bind]
  exact h.bind fun _ => .pure _

theorem refuse (refused : Bool) (error : ConfigurationError) :
    BlamesSchema (Compile.refuse refused error) := by
  unfold Compile.refuse
  split
  · exact .fail error
  · exact .pure ()

theorem mapM {action : α → Compile β} (h : ∀ value, BlamesSchema (action value))
    (values : List α) : BlamesSchema (values.mapM action) := by
  induction values with
  | nil => exact .pure []
  | cons value rest ih =>
      rw [List.mapM_cons]
      exact (h value).bind fun _ => ih.bind fun _ => .pure _

end BlamesSchema

/-! ### Setting up a table -/

section Environment

variable {env : Environment}

theorem ownColumn_blames (name : String) (owner : Option String) :
    BlamesSchema (ownColumn name owner) :=
  .bind (.modify _) fun _ => .pure _

theorem keyNode_blames (key : UniqueKey) (owner : Option String) :
    BlamesSchema (keyNode key owner) := by
  cases key with
  | one name => exact .map _ (ownColumn_blames name owner)
  | many names => exact .bind (.modify _) fun _ => .pure _

theorem ownColumns_blames (names : List String) (owner : Option String) :
    BlamesSchema (ownColumns names owner) :=
  .mapM (fun name => .map _ (ownColumn_blames name owner)) names

theorem junctionFetch_blames (fieldName aliasName : String) (junction : JunctionOptions) :
    BlamesSchema (junctionFetch fieldName aliasName junction) := by
  unfold junctionFetch
  split
  · exact .pure _
  · split
    · exact .fail _
    · exact .bind (keyNode_blames _ _) fun _ => .bind (ownColumn_blames _ _) fun _ =>
        .bind (ownColumn_blames _ _) fun _ => .pure _
  · exact .fail _

theorem junctionNode_blames (field : TableField) (junction : JunctionOptions) :
    BlamesSchema (junctionNode env field junction) :=
  .bind (.modify _) fun _ => .bind (.lift _) fun _ => .bind (.lift _) fun _ =>
    .bind (junctionFetch_blames _ _ _) fun _ => .pure _

theorem relation_blames (field : TableField) : BlamesSchema (relation env field) := by
  unfold relation
  split
  · exact .pure _
  · exact .bind (junctionNode_blames field _) fun _ => .pure _
  · exact .bind (ownColumn_blames _ _) fun _ => .bind (ownColumn_blames _ _) fun _ => .pure _
  · exact .pure _

theorem alwaysFetched_blames (field : TableField) (aliasName : String) :
    BlamesSchema (alwaysFetched env field aliasName) := by
  obtain ⟨columns, hcolumns⟩ := exists_alwaysFetched_eq env field aliasName
  rw [hcolumns]
  exact ownColumns_blames _ _

theorem pagingColumns_blames (paginate : Bool) (sortKey : Option (List SortTerm))
    (junction : Option Junction) : BlamesSchema (pagingColumns paginate sortKey junction) := by
  obtain ⟨columns, owner, hcolumns⟩ := exists_pagingColumns_eq paginate sortKey junction
  rw [hcolumns]
  exact ownColumns_blames _ _

theorem newTable_blames (field : TableField) : BlamesSchema (newTable env field) :=
  .bind (.modify _) fun _ => .bind (.lift _) fun _ => .bind (relation_blames field) fun _ =>
    .bind (.refuse _ _) fun _ => .bind (.refuse _ _) fun _ => .bind (.lift _) fun _ =>
      .bind (keyNode_blames _ _) fun _ => .bind (alwaysFetched_blames field _) fun _ =>
        .bind (pagingColumns_blames _ _ _) fun _ => .pure _

/-! ### Fields and selections -/

theorem compileLeaf_blames (scope : Scope) (bucket : Option String) (name : String)
    (args : Arguments) (field : ScopedField) :
    BlamesSchema (compileLeaf scope bucket name args field) := by
  unfold compileLeaf
  dsimp only
  split
  · exact .bind (.modify _) fun _ => .pure _
  · exact .bind (.mapM (fun _ => .bind (.modify _) fun _ => .pure _) _) fun _ => .pure _
  · split
    · exact .bind (.modify _) fun _ => .pure _
    · exact .pure _

theorem compileTable_blames (field : TableField) (type : TypeDefinition)
    (existing : Option (Table Node)) {fill : Scope → Children → Compile Children}
    (hfill : ∀ scope children, BlamesSchema (fill scope children)) :
    BlamesSchema (compileTable env field type existing fill) := by
  have htable : BlamesSchema (tableOf env field existing) := by
    cases existing with
    | some table => exact .pure table
    | none => exact newTable_blames field
  exact htable.bind fun _ => (hfill _ _).bind fun _ => .pure _

theorem compileField_blames (fragments : Fragments) (scope : Scope) (nested : Bool)
    (bucket : Option String) (existing : Option (Table Node)) (name : String) (args : Arguments)
    (selections : List Selection) {fill : Place → Scope → Children → Compile Children}
    (hfill : ∀ place scope children, BlamesSchema (fill place scope children)) :
    BlamesSchema
      (compileField env fragments scope nested bucket existing name args selections fill) := by
  rw [compileField_eq]
  refine .bind (.lift _) fun kind => ?_
  cases kind with
  | nothing => exact .pure _
  | leaf field => exact compileLeaf_blames scope bucket name args field
  | table field type place => exact compileTable_blames field type existing (hfill place)

mutual

theorem select_blames {fragments : Fragments} {spread : SpreadCompiler}
    (hspread : ∀ place scope bucket name children,
      BlamesSchema (spread place scope bucket name children)) :
    ∀ (selections : List Selection) (place : Place) (scope : Scope) (bucket : Option String)
      (children : Children),
      BlamesSchema (select env fragments spread place scope bucket selections children)
  | [], _, _, _, _ => .pure _
  | selection :: rest, place, scope, bucket, children =>
      (selectOne_blames hspread selection place scope bucket children).bind fun inner =>
        select_blames hspread rest place scope bucket inner

theorem selectOne_blames {fragments : Fragments} {spread : SpreadCompiler}
    (hspread : ∀ place scope bucket name children,
      BlamesSchema (spread place scope bucket name children)) :
    ∀ (selection : Selection) (place : Place) (scope : Scope) (bucket : Option String)
      (children : Children),
      BlamesSchema (selectOne env fragments spread place scope bucket selection children)
  | .field name args selections, .rows, scope, bucket, children =>
      (compileField_blames fragments scope true bucket _ name args selections
        fun place scope children =>
          select_blames hspread selections place scope none children).bind fun _ => .pure _
  | .field name args selections, .edges typeName, scope, bucket, children => by
      rw [selectOne]
      split
      · exact select_blames hspread selections .rows scope bucket children
      · exact .pure _
  | .field name args selections, .connection typeName edgeType, scope, bucket, children => by
      rw [selectOne]
      split
      · exact select_blames hspread selections (.edges edgeType) scope bucket children
      · exact .pure _
  | .inline condition selections, place, scope, bucket, children => by
      rw [selectOne]
      refine .bind (.lift _) fun found => ?_
      cases found with
      | none => exact .pure _
      | some target =>
          exact select_blames hspread selections place target.1 target.2 children
  | .spread fragment, place, scope, bucket, children =>
      hspread place scope bucket fragment children

end

theorem selectSpread_blames {fragments : Fragments} (depth : Nat) (place : Place) (scope : Scope)
    (bucket : Option String) (name : String) (children : Children) :
    BlamesSchema (selectSpread env fragments depth place scope bucket name children) := by
  induction depth generalizing place scope bucket name children with
  | zero => exact .fail _
  | succ depth ih =>
      rw [selectSpread]
      cases fragments.named? name with
      | none => exact .fail _
      | some fragment =>
          refine .bind (.lift _) fun found => ?_
          cases found with
          | none => exact .pure _
          | some target =>
              exact select_blames ih fragment.selections place target.1 target.2 children

/-! ### Requests -/

variable {request : Request}

theorem compileOn_blames (hfields : request.fields ≠ []) (type : TypeDefinition) :
    BlamesSchema (compileOn env request type) := by
  obtain ⟨first, rest, hrequest⟩ := List.exists_cons_of_ne_nil hfields
  unfold compileOn mergedField
  rw [hrequest]
  have hmerged (field : RequestedField) : BlamesSchema
      (liftM (.ok field : Except RequestError RequestedField) : Compile RequestedField) := nofun
  refine (hmerged _).bind fun field => ?_
  refine .bind (compileField_blames _ _ _ _ _ _ _ _ fun place scope children =>
    select_blames (selectSpread_blames _) _ place scope none children) fun node => ?_
  cases node with
  | table table => exact .modify _
  | column | dependencies | composite | expression | nothing => exact .fail _

theorem compileWith_blames (hfields : request.fields ≠ []) :
    BlamesSchema (compileWith env request) := by
  unfold compileWith
  cases env.schema.type? request.parentType with
  | none => exact .fail _
  | some type => exact compileOn_blames hfields type

theorem compileNodeWith_blames (dialect : Dialect) (typeName : String) (found : NodeCondition)
    (hfields : request.fields ≠ []) :
    BlamesSchema (compileNodeWith env dialect typeName found request) := by
  obtain ⟨first, rest, hrequest⟩ := List.exists_cons_of_ne_nil hfields
  unfold compileNodeWith
  cases env.schema.type? typeName with
  | none => exact .fail _
  | some type =>
      dsimp only
      cases type.table with
      | none => exact .fail _
      | some table =>
          refine .bind (.lift _) fun condition => ?_
          rw [hrequest]
          exact compileOn_blames hfields _

/-- A run in a fresh namespace gives a plan or the configuration error. -/
theorem BlamesSchema.run' {α : Type} {action : Compile α} (h : BlamesSchema action)
    (names : Namespace) :
    (∃ value, action.run' names = .ok value) ∨
      ∃ cause, action.run' names = .error (.configuration cause) := by
  change (∃ value, (fun found : α × Namespace => found.1) <$> action names = .ok value) ∨
    ∃ cause, (fun found : α × Namespace => found.1) <$> action names =
      .error (.configuration cause)
  cases hrun : action names with
  | error error =>
      obtain ⟨cause, rfl⟩ := h names error hrun
      exact .inr ⟨cause, rfl⟩
  | ok found => exact .inl ⟨found.1, rfl⟩

/-- A request for a field has a plan, or fails with a configuration error. -/
theorem compile_ok_or_configuration (env : Environment) (minify : Bool)
    (hfields : request.fields ≠ []) :
    (∃ root, compile env minify request = .ok root) ∨
      ∃ cause, compile env minify request = .error (.configuration cause) :=
  (compileWith_blames hfields).run' _

theorem compileNode_ok_or_configuration (env : Environment) (dialect : Dialect) (minify : Bool)
    (typeName : String) (found : NodeCondition) (hfields : request.fields ≠ []) :
    (∃ root, compileNode env dialect minify typeName found request = .ok root) ∨
      ∃ cause, compileNode env dialect minify typeName found request =
        .error (.configuration cause) :=
  (compileNodeWith_blames dialect typeName found hfields).run' _

end Environment

end JoinPlan.Plan
