import JoinPlan.Proofs.Plan.Sound

/-!
# Where the tables of a plan come from

Every table of a plan was set up for a field, and what is selected on it afterwards, or the
merging of dependencies, leaves what is known about the table as it was.
-/

namespace JoinPlan.Plan

/-- What is known about a table that was set up for a field, whichever rows it turned out to
have. -/
def TableInfo.IsSetUpFor (env : Environment) (field : TableField) (info : TableInfo) : Prop :=
  ∃ names table after isAbstract, newTable env field names = .ok (table, after) ∧
    info = { table.info with isAbstract }

/-- A table that was set up for a field of some scope. -/
def TableInfo.HasOrigin (env : Environment) (info : TableInfo) : Prop :=
  ∃ scope nested field, TableField.IsBacked field env scope nested ∧ info.IsSetUpFor env field

theorem TableInfo.HasOrigin.isAbstract {env : Environment} {info : TableInfo}
    (h : info.HasOrigin env) (isAbstract : Bool) : { info with isAbstract }.HasOrigin env := by
  obtain ⟨scope, nested, field, hfield, names, table, after, _, hnew, rfl⟩ := h
  exact ⟨scope, nested, field, hfield, names, table, after, isAbstract, hnew, rfl⟩

/-- A node below which every table was set up for a field. -/
def Node.HasOrigins (env : Environment) (node : Node) : Prop :=
  ∀ table ∈ node.subtree, table.info.HasOrigin env

section Origins

variable {env : Environment}

theorem Node.HasOrigins.of_leaf {node : Node} (hleaf : node.table? = none) :
    node.HasOrigins env := by
  simp [Node.HasOrigins, Node.subtree_of_leaf hleaf]

theorem Node.hasOrigins_table {table : Table Node} :
    (Node.table table).HasOrigins env ↔
      table.info.HasOrigin env ∧ ∀ child ∈ table.children, child.HasOrigins env := by
  simp only [Node.HasOrigins, Node.subtree, Table.subtree_eq, List.forall_mem_cons,
    List.forall_mem_flatMap]

theorem Node.HasOrigins.of_isFixed {node : Node} (hfixed : node.IsFixed) :
    node.HasOrigins env := by
  cases node with
  | table => exact hfixed.elim
  | column | dependencies | composite | expression | nothing => exact .of_leaf rfl

/-- Filling in children adds no table but those set up for fields. -/
def KeepsOrigins (env : Environment) : FillRelation := fun _ children _ filled =>
  (∀ node ∈ children.nodes, node.HasOrigins env) → ∀ node ∈ filled.nodes, node.HasOrigins env

theorem SelectedNode.hasOrigins {scope : Scope} {nested : Bool}
    {existing : Option (Table Node)} {names after : Namespace} {node : Node}
    (h : SelectedNode env (fun _ => KeepsOrigins env) scope nested existing names node after)
    (hexisting : ∀ table, existing = some table → (Node.table table).HasOrigins env) :
    node.HasOrigins env := by
  cases h with
  | nothing => exact .of_leaf rfl
  | leaf hfield hleaf => exact .of_leaf ((compileLeaf_leaves hleaf).1 _ List.mem_cons_self)
  | @again table children _ isAbstract hfound hfill =>
      obtain ⟨hinfo, hchildren⟩ := Node.hasOrigins_table.mp (hexisting table hfound)
      exact Node.hasOrigins_table.mpr ⟨hinfo.isAbstract isAbstract, hfill hchildren⟩
  | @new field table children between _ isAbstract hfound hfield hnew hfill =>
      have hsetup := newTable_isSetUp hfield hnew
      have hfixed : ∀ node ∈ table.shared ++ lastColumns table.info none, node.HasOrigins env :=
        fun node hnode => .of_isFixed (hsetup.nodes node hnode).1
      rw [List.forall_mem_append] at hfixed
      have hfilled := hfill (by
        rw [Children.nodes, hsetup.typed, List.flatMap_nil, List.append_nil]
        exact hfixed.1)
      refine Node.hasOrigins_table.mpr ⟨⟨scope, nested, field, hfield, names, table, between,
        isAbstract, hnew, rfl⟩, ?_⟩
      rw [Table.children, List.forall_mem_append, List.forall_mem_append]
      rw [Children.nodes, List.forall_mem_append] at hfilled
      exact ⟨⟨hfilled.1, hfixed.2⟩, hfilled.2⟩

theorem keepsOrigins_selecting (env : Environment) :
    Selecting env fun _ => KeepsOrigins env where
  refl junction names children := id
  trans hfirst hsecond := fun h => hsecond (hfirst h)
  field {scope names after children bucket name node} hnode := by
    intro hchildren other hother
    rcases mem_putField hother with rfl | hold
    · refine hnode.hasOrigins fun table htable => hchildren _ ?_
      exact bucket_subset children bucket (existingTable_mem htable)
    · exact hchildren other hold

/-- Every table of a plan was set up for a field. -/
theorem Compiled.hasOrigin {minify : Bool} {root : Table Node} (hroot : Compiled env minify root) :
    ∀ table ∈ root.subtree, table.info.HasOrigin env := by
  obtain ⟨scope, table, between, hnode, rfl⟩ :=
    hroot.eq_prune_selected (keepsOrigins_selecting env)
  have horigins := hnode.hasOrigins fun table htable => nomatch htable
  obtain ⟨hinfo, hpruned⟩ := table.prune_pruned between
  have hinfos := (Pruned.table hinfo hpruned).infos
  simp only [List.flatMap_singleton, Node.subtree] at hinfos
  intro kept hkept
  obtain ⟨found, hfound, heq⟩ := List.mem_map.mp (hinfos ▸ List.mem_map_of_mem hkept)
  exact heq ▸ horigins found hfound

end Origins

end JoinPlan.Plan
