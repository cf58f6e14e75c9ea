import JoinPlan.Proofs.Plan.Pruning
import JoinPlan.Proofs.Plan.TableAliases

/-!
# Compiled plans

A request and a node fetch are compiled alike, in a fresh namespace.  In the plan
the aliases of all tables and junctions are distinct, and minified ones hold no
underscore.
-/

namespace JoinPlan.Plan

/-- The plan of some request or of some node fetch. -/
inductive Compiled (env : Environment) (minify : Bool) (root : Table Node) : Prop
  | request {request : Request} (h : compile env minify request = .ok root)
  | node {dialect : Dialect} {typeName : String} {found : NodeCondition} {request : Request}
      (h : compileNode env dialect minify typeName found request = .ok root)

/-- The plan of some request or of some node fetch, with the namespace that compiling leaves. -/
inductive Compiles (env : Environment) (minify : Bool) (root : Table Node) (after : Namespace) :
    Prop
  | request {request : Request}
      (h : compileWith env request (.fresh minify) = .ok (root, after))
  | node {dialect : Dialect} {typeName : String} {found : NodeCondition} {request : Request}
      (h : compileNodeWith env dialect typeName found request (.fresh minify) =
        .ok (root, after))

section Inversion

variable {env : Environment} {names after : Namespace} {request : Request} {root : Table Node}

theorem Compile.lift_request_eq_ok {α : Type} {action : Except RequestError α} {result : α}
    (h : (liftM action : Compile α) names = .ok (result, after)) :
    action = .ok result ∧ after = names := by
  cases action with
  | error error => cases h
  | ok value =>
      obtain ⟨rfl, rfl⟩ := Prod.mk.inj (Except.ok.inj h)
      exact ⟨rfl, rfl⟩

/-- The plan is the requested field's table with its dependencies merged. -/
theorem compileOn_eq_ok {type : TypeDefinition}
    (h : compileOn env request type names = .ok (root, after)) :
    ∃ (field : RequestedField) (table : Table Node) (between : Namespace),
      compileField env request.fragments ⟨request.parentType, type, none⟩ false none none
        field.name field.args field.selections (selectAll env request.fragments field.selections)
        names = .ok (.table table, between) ∧ table.prune between = (root, after) := by
  obtain ⟨field, asked, hfield, hrest⟩ := Compile.bind_eq_ok.mp h
  obtain ⟨node, between, hnode, hpruned⟩ := Compile.bind_eq_ok.mp hrest
  obtain ⟨-, rfl⟩ := Compile.lift_request_eq_ok hfield
  cases node with
  | table table => exact ⟨field, table, between, hnode, Except.ok.inj hpruned⟩
  | column | dependencies | composite | expression | nothing =>
      exact absurd hpruned Compile.not_fail_eq_ok

theorem run'_eq_ok {α : Type} {action : Compile α} {result : α}
    (h : action.run' names = .ok result) : ∃ after, action names = .ok (result, after) := by
  change (fun found : α × Namespace => found.1) <$> action names = .ok result at h
  cases hrun : action names with
  | error error =>
      rw [hrun] at h
      cases h
  | ok found =>
      rw [hrun] at h
      obtain rfl := Except.ok.inj h
      exact ⟨found.2, rfl⟩

theorem compileWith_eq_ok (h : compileWith env request names = .ok (root, after)) :
    ∃ type, env.schema.type? request.parentType = some type ∧
      compileOn env request type names = .ok (root, after) := by
  unfold compileWith at h
  cases htype : env.schema.type? request.parentType with
  | none =>
      rw [htype] at h
      exact absurd h Compile.not_fail_eq_ok
  | some type =>
      rw [htype] at h
      exact ⟨type, rfl, h⟩

theorem compileNodeWith_eq_ok {dialect : Dialect} {typeName : String} {found : NodeCondition}
    (h : compileNodeWith env dialect typeName found request names = .ok (root, after)) :
    ∃ field condition,
      compileOn env request (nodeType field typeName condition) names = .ok (root, after) := by
  unfold compileNodeWith at h
  cases htype : env.schema.type? typeName with
  | none =>
      rw [htype] at h
      exact absurd h Compile.not_fail_eq_ok
  | some type =>
      rw [htype] at h
      dsimp only at h
      cases htable : type.table with
      | none =>
          rw [htable] at h
          exact absurd h Compile.not_fail_eq_ok
      | some table =>
          rw [htable] at h
          obtain ⟨condition, between, hcondition, hrest⟩ := Compile.bind_eq_ok.mp h
          obtain ⟨-, rfl⟩ := Compile.lift_eq_ok.mp hcondition
          cases hfields : request.fields with
          | nil =>
              rw [hfields] at hrest
              cases hrest
          | cons field others =>
              rw [hfields] at hrest
              exact ⟨field.name, condition, hrest⟩

end Inversion

variable {env : Environment} {minify : Bool} {root : Table Node}

/-- A plan is the table of a field, compiled in a fresh namespace, with its dependencies
merged. -/
theorem Compiles.eq_prune_compileField {after : Namespace}
    (hroot : Compiles env minify root after) :
    ∃ fragments scope name args selections table between,
      compileField env fragments scope false none none name args selections
        (selectAll env fragments selections) (.fresh minify) = .ok (.table table, between) ∧
      table.prune between = (root, after) := by
  cases hroot with
  | request h =>
      obtain ⟨type, -, hcompiled⟩ := compileWith_eq_ok h
      obtain ⟨field, hfield⟩ := compileOn_eq_ok hcompiled
      exact ⟨_, _, _, _, _, hfield⟩
  | node h =>
      obtain ⟨name, condition, hcompiled⟩ := compileNodeWith_eq_ok h
      obtain ⟨field, hfield⟩ := compileOn_eq_ok hcompiled
      exact ⟨_, _, _, _, _, hfield⟩

/-- A plan is the table set up for a field, with what is selected on it filled in and with its
dependencies merged. -/
theorem Compiles.eq_prune_tableNode {after : Namespace} (hroot : Compiles env minify root after)
    {fill : Option Junction → FillRelation}
    (hfields : ∀ fragments, FieldByField env fragments fill) :
    ∃ scope field table between, TableField.IsBacked field env scope false ∧
      TableNode env fill field none (.fresh minify) (.table table) between ∧
      table.prune between = (root, after) := by
  obtain ⟨fragments, scope, name, args, selections, table, between, hnode, hpruned⟩ :=
    hroot.eq_prune_compileField
  obtain ⟨field, hfield, htable⟩ :=
    exists_tableNode_of_compileField (selectAll_fills (hfields fragments) selections) hnode
  exact ⟨scope, field, table, between, hfield, htable, hpruned⟩

theorem Compiled.exists_compiles (hroot : Compiled env minify root) :
    ∃ after, Compiles env minify root after := by
  cases hroot with
  | request h =>
      obtain ⟨after, hrun⟩ := run'_eq_ok h
      exact ⟨after, .request hrun⟩
  | node h =>
      obtain ⟨after, hrun⟩ := run'_eq_ok h
      exact ⟨after, .node hrun⟩

theorem Compiles.compiled {after : Namespace} (hroot : Compiles env minify root after) :
    Compiled env minify root := by
  cases hroot with
  | request h => exact .request (congrArg (Except.map Prod.fst) h)
  | node h => exact .node (congrArg (Except.map Prod.fst) h)

theorem Compiled.eq_prune_compileField (hroot : Compiled env minify root) :
    ∃ fragments scope name args selections table between,
      compileField env fragments scope false none none name args selections
        (selectAll env fragments selections) (.fresh minify) = .ok (.table table, between) ∧
      root = (table.prune between).1 := by
  obtain ⟨after, hcompiles⟩ := hroot.exists_compiles
  obtain ⟨fragments, scope, name, args, selections, table, between, hnode, hpruned⟩ :=
    hcompiles.eq_prune_compileField
  exact ⟨fragments, scope, name, args, selections, table, between, hnode, by rw [hpruned]⟩

theorem Compiled.eq_prune_selected (hroot : Compiled env minify root)
    {fill : Option Junction → FillRelation} (hselecting : Selecting env fill) :
    ∃ scope table between,
      SelectedNode env fill scope false none (.fresh minify) (.table table) between ∧
        root = (table.prune between).1 := by
  obtain ⟨fragments, scope, name, args, selections, table, between, hnode, hroot⟩ :=
    hroot.eq_prune_compileField
  exact ⟨scope, table, between,
    compileField_selected (selectAll_selected hselecting selections) hnode, hroot⟩

theorem Compiled.eq_prune (hroot : Compiled env minify root) {fill : FillRelation}
    (hfilling : Filling fill) :
    ∃ table between, FieldNode fill none (.fresh minify) (.table table) between ∧
      root = (table.prune between).1 := by
  obtain ⟨scope, table, between, hnode, hroot⟩ := hroot.eq_prune_selected hfilling.selecting
  exact ⟨table, between, hnode.fieldNode, hroot⟩

/-- The aliases of all tables and junctions of a plan are distinct. -/
theorem Compiled.tableAliases_nodup (hroot : Compiled env minify root) :
    (tableAliases root.subtree).Nodup := by
  obtain ⟨table, between, hnode, rfl⟩ := hroot.eq_prune keepsAliases_filling
  have hholds : between.Holds ([] ++ tableAliases table.subtree) :=
    hnode.holds (Namespace.fresh_holds minify)
  obtain ⟨hinfo, hpruned⟩ := table.prune_pruned between
  have hinfos := (Pruned.table hinfo hpruned).infos
  simp only [List.flatMap_singleton, Node.subtree] at hinfos
  have haliases : tableAliases (table.prune between).1.subtree = tableAliases table.subtree := by
    rw [tableAliases, tableAliases, ← List.flatMap_map Table.info, hinfos, List.flatMap_map]
  rw [haliases]
  exact hholds.nodup

theorem Compiled.unmarked (hroot : Compiled env true root) :
    ∀ word ∈ (Node.table root).words, Unmarked word := by
  obtain ⟨table, between, hnode, rfl⟩ := hroot.eq_prune keepsWords_filling
  obtain ⟨hbetween, hwords⟩ := hnode.words Namespace.fresh_worded (by simp)
  obtain ⟨hinfo, hpruned⟩ := table.prune_pruned between
  obtain ⟨asked, hasks, hkept⟩ := (Pruned.table hinfo hpruned).words
  obtain ⟨-, hasked⟩ := hbetween.asks hasks
  intro word hword
  simp only [List.flatMap_singleton] at hkept
  rcases hkept word hword with hold | hnew
  · exact hwords word hold
  · exact hasked word hnew

end JoinPlan.Plan
