import JoinPlan.Proofs.Plan.Compiled
import JoinPlan.Proofs.Plan.NewTables

/-!
# What every table of a plan has

The columns that a table needs are nodes that nothing replaces, so they are still there
when all selections are compiled and the dependencies are merged.  What is selected on a
table belongs to it or to its junction, and a table selected below another has a relation
to it.
-/

namespace JoinPlan.Plan

/-- A child of a table whose junction has an alias, or of one without a junction. -/
structure Node.BelongsTo (junctionOwner : Option String) (node : Node) : Prop where
  owner : ∀ owner, node.owner? = some owner → junctionOwner = some owner
  related : ∀ child, node = .table child → child.info.relation.isSome = true

/-- A table with what it needs, and children that belong to it. -/
structure Table.Sound (schema : Schema) (table : Table Node) : Prop where
  provided : Provided schema table.info table.shared
  children : ∀ node ∈ table.children, node.BelongsTo table.info.junctionOwner?

/-- A child of a table in a sound plan. -/
structure Node.SoundBelow (schema : Schema) (junctionOwner : Option String) (node : Node) :
    Prop where
  belongs : node.BelongsTo junctionOwner
  tables : ∀ table ∈ node.subtree, table.Sound schema

theorem Node.SoundBelow.of_leaf {schema : Schema} {junctionOwner : Option String} {node : Node}
    (hleaf : node.table? = none)
    (howner : ∀ owner, node.owner? = some owner → junctionOwner = some owner) :
    node.SoundBelow schema junctionOwner := by
  refine ⟨⟨howner, ?_⟩, ?_⟩
  · rintro child rfl
    cases hleaf
  · simp [subtree_of_leaf hleaf]

/-- A table is sound with all below it when its children are. -/
theorem Table.sound_subtree {schema : Schema} {table : Table Node}
    (hprovided : Provided schema table.info table.shared)
    (hchildren : ∀ node ∈ table.children, node.SoundBelow schema table.info.junctionOwner?) :
    ∀ inner ∈ table.subtree, inner.Sound schema := by
  intro inner hinner
  rw [subtree_eq, List.mem_cons] at hinner
  rcases hinner with rfl | hbelow
  · exact ⟨hprovided, fun node hnode => (hchildren node hnode).belongs⟩
  · obtain ⟨node, hnode, hmem⟩ := List.mem_flatMap.mp hbelow
    exact (hchildren node hnode).tables inner hmem

theorem Node.SoundBelow.of_children {schema : Schema} {junctionOwner : Option String}
    {table : Table Node} (hrelated : table.info.relation.isSome = true)
    (hprovided : Provided schema table.info table.shared)
    (hchildren : ∀ node ∈ table.children, node.SoundBelow schema table.info.junctionOwner?) :
    (Node.table table).SoundBelow schema junctionOwner := by
  refine ⟨⟨by simp [owner?], ?_⟩, Table.sound_subtree hprovided hchildren⟩
  rintro child ⟨⟩
  exact hrelated

theorem Node.SoundBelow.sound {schema : Schema} {junctionOwner : Option String}
    {table : Table Node} (h : (Node.table table).SoundBelow schema junctionOwner) :
    Provided schema table.info table.shared ∧
      ∀ node ∈ table.children, node.SoundBelow schema table.info.junctionOwner? := by
  have hsound := h.tables table (by rw [subtree]; exact table.mem_subtree_self)
  refine ⟨hsound.provided, fun node hnode => ⟨hsound.children node hnode, fun inner hinner => ?_⟩⟩
  refine h.tables inner ?_
  rw [subtree]
  exact Table.mem_subtree_of_mem_children hnode hinner

/-! ### Selecting -/

theorem owner_of_field? {scope : Scope} {name : String} {field : ScopedField}
    (h : scope.field? name = some field) (owner : String) (howner : field.owner = some owner) :
    scope.junction.map Junction.aliasName = some owner := by
  rw [Scope.field?, Option.map_eq_some_iff] at h
  obtain ⟨definition, -, rfl⟩ := h
  dsimp only at howner
  split at howner
  · rename_i hincluded
    rw [Option.bind_eq_some_iff] at hincluded
    obtain ⟨junction, hjunction, hincluded⟩ := hincluded
    obtain ⟨options, -, hpair⟩ := Option.map_eq_some_iff.mp hincluded
    obtain ⟨rfl, rfl⟩ := Prod.mk.inj hpair
    rw [hjunction, Option.map_some, ← howner]
  · cases howner

theorem compileLeaf_owner {scope : Scope} {bucket : Option String} {name : String}
    {args : Arguments} {field : ScopedField} {node : Node} {names after : Namespace}
    (h : compileLeaf scope bucket name args field names = .ok (node, after)) (owner : String)
    (howner : node.owner? = some owner) : field.owner = some owner := by
  cases compileLeaf_eq_ok h with
  | expression | dependencies | column => exact howner
  | nothing => cases howner

/-- Selecting on a table of a sound plan leaves the columns it needs in place, and puts
nodes below it that are sound. -/
structure KeepsSound (schema : Schema) (junction : Option Junction) (names : Namespace)
    (children : Children) (after : Namespace) (filled : Children) : Prop where
  fixed : ∀ node ∈ children.shared, node.IsFixed → node ∈ filled.shared
  sound : (∀ node ∈ children.nodes,
      node.SoundBelow schema (junction.map Junction.aliasName)) →
    ∀ node ∈ filled.nodes, node.SoundBelow schema (junction.map Junction.aliasName)

theorem Reached.isSome_relation {options : FieldOptions} {reached : Option Relation}
    {nodes : List Node} (h : Reached options reached nodes) {name parentType : String}
    (hrelated : checkRelation true options name parentType = .ok ()) : reached.isSome = true := by
  cases h with
  | root hjoin hjunction hbatch =>
      simp [checkRelation, hjoin, hjunction, hbatch] at hrelated
  | join | batch | junctionJoins | junctionBatch => rfl

/-- A table set up for a field is sound once its selections are filled in. -/
theorem IsSetUp.soundBelow {env : Environment} {field : TableField} {table : Table Node}
    (hnew : IsSetUp env field table) {children : Children} {between after : Namespace}
    (hfill : KeepsSound env.schema table.info.junction? between ⟨table.shared, table.typed⟩ after
      children) (isAbstract : Bool) :
    Provided env.schema { table.info with isAbstract }
        (children.shared ++ lastColumns table.info none) ∧
      ∀ node ∈ children.shared ++ lastColumns table.info none ++
          children.typed.flatMap Prod.snd,
        node.SoundBelow env.schema table.info.junctionOwner? := by
  have hnodes : ∀ node ∈ table.shared ++ lastColumns table.info none,
      node.SoundBelow env.schema table.info.junctionOwner? := by
    intro node hnode
    obtain ⟨hfixed, howner⟩ := hnew.nodes node hnode
    refine .of_leaf ?_ howner
    cases node with
    | table => exact hfixed.elim
    | column | dependencies | composite | expression | nothing => rfl
  rw [List.forall_mem_append] at hnodes
  have hfilled := hfill.sound (by
    rw [Children.nodes, hnew.typed, List.flatMap_nil, List.append_nil]
    exact hnodes.1)
  constructor
  · refine (hnew.provided.isAbstract isAbstract).mono fun node hnode hfixed => ?_
    rcases List.mem_append.mp hnode with hshared | hlast
    · exact List.mem_append_left _ (hfill.fixed node hshared hfixed)
    · exact List.mem_append_right _ hlast
  · intro node hnode
    rw [List.append_assoc, List.mem_append, List.mem_append] at hnode
    rcases hnode with hshared | hlast | htyped
    · exact hfilled node (List.mem_append_left _ hshared)
    · exact hnodes.2 node hlast
    · exact hfilled node (List.mem_append_right _ htyped)

theorem existingTable_mem {nodes : List Node} {name : String} {table : Table Node}
    (h : existingTable nodes name = some table) : Node.table table ∈ nodes := by
  obtain ⟨node, hnode, htable⟩ := Option.bind_eq_some_iff.mp h
  obtain ⟨index, -, hindex⟩ := Option.bind_eq_some_iff.mp hnode
  cases node with
  | table found =>
      rw [Node.table?, Option.some.injEq] at htable
      exact htable ▸ List.mem_of_getElem? hindex
  | column | dependencies | composite | expression | nothing => cases htable

theorem bucket_subset (children : Children) (bucket : Option String) :
    children.bucket bucket ⊆ children.nodes := by
  obtain ⟨others, hold, -⟩ := exists_perm_setBucket children bucket
  exact fun node hnode => hold.mem_iff.mpr (List.mem_append_right _ hnode)

theorem mem_putField {children : Children} {bucket : Option String} {name : String}
    {node other : Node} (h : other ∈ (putField children bucket name node).nodes) :
    other = node ∨ other ∈ children.nodes := by
  obtain ⟨others, replaced, hold, hnew, -⟩ := exists_perm_putField children bucket name
  rcases List.mem_append.mp ((hnew node).mem_iff.mp h) with hmem | hmem
  · exact Or.inr (hold.mem_iff.mpr (List.mem_append_left _ hmem))
  · exact Or.inl (List.mem_singleton.mp hmem)

/-- Putting a node replaces at most a table. -/
theorem mem_putNode {nodes : List Node} {name : String} (node : Node) {other : Node}
    (hother : other ∈ nodes) (hfixed : other.IsFixed) :
    other ∈ putNode nodes (nodes.findIdx? (isTableOf name)) node := by
  cases hindex : nodes.findIdx? (isTableOf name) with
  | none => exact List.mem_append_left _ hother
  | some index =>
      obtain ⟨hlt, htable, -⟩ := List.findIdx?_eq_some_iff_getElem.mp hindex
      obtain ⟨place, hplace, rfl⟩ := List.getElem_of_mem hother
      rw [putNode, List.mem_iff_getElem]
      refine ⟨place, by simpa using hplace, ?_⟩
      rw [List.getElem_set_ne]
      rintro rfl
      cases hnode : nodes[index] with
      | table => simp [hnode, Node.IsFixed] at hfixed
      | column | dependencies | composite | expression | nothing =>
          simp [isTableOf, Node.table?, hnode] at htable

theorem SelectedNode.soundBelow {env : Environment} {scope : Scope} {names after : Namespace}
    {existing : Option (Table Node)} {node : Node}
    (h : SelectedNode env (KeepsSound env.schema) scope true existing names node after)
    (hexists : ∀ table, existing = some table →
      (Node.table table).SoundBelow env.schema (scope.junction.map Junction.aliasName)) :
    node.SoundBelow env.schema (scope.junction.map Junction.aliasName) := by
  cases h with
  | nothing => exact .of_leaf rfl (by simp [Node.owner?])
  | leaf hfield hleaf =>
      refine .of_leaf ((compileLeaf_leaves hleaf).1 _ List.mem_cons_self) ?_
      intro owner howner
      exact owner_of_field? hfield owner (compileLeaf_owner hleaf owner howner)
  | @again table children _ isAbstract hexisting hfill =>
      have hbelow := hexists table hexisting
      obtain ⟨hprovided, hchildren⟩ := hbelow.sound
      exact .of_children (hbelow.belongs.related table rfl)
        ((hprovided.isAbstract isAbstract).mono hfill.fixed) (hfill.sound hchildren)
  | @new field table children between _ isAbstract hexisting hfield hnew hfill =>
      have hsetup := newTable_isSetUp hfield hnew
      obtain ⟨nodes, hreached⟩ := hsetup.reached
      obtain ⟨hprovided, hchildren⟩ := hsetup.soundBelow hfill isAbstract
      exact .of_children (hreached.isSome_relation hfield.related) hprovided hchildren

theorem keepsSound_selecting (env : Environment) : Selecting env (KeepsSound env.schema) where
  refl junction names children := ⟨fun node hnode _ => hnode, fun h => h⟩
  trans hfirst hsecond :=
    ⟨fun node hnode hfixed => hsecond.fixed node (hfirst.fixed node hnode hfixed) hfixed,
      fun h => hsecond.sound (hfirst.sound h)⟩
  field {scope names after children bucket name node} hnode := by
    constructor
    · intro other hother hfixed
      cases bucket with
      | none => exact mem_putNode node hother hfixed
      | some type => exact hother
    · intro hchildren other hother
      rcases mem_putField hother with rfl | hold
      · refine hnode.soundBelow fun table htable => hchildren _ ?_
        exact bucket_subset children bucket (existingTable_mem htable)
      · exact hchildren other hold

/-! ### Merging dependencies -/

/-- The tables that columns are needed of own some of the dependencies. -/
theorem exists_dependencies_of_mem_neededColumns {nodes : List Node}
    {needed : Option String × List String} (h : needed ∈ neededColumns nodes) :
    ∃ columns, Node.dependencies columns needed.1 ∈ nodes := by
  rw [neededColumns] at h
  have hnew : needed.1 ∉ Assoc.keys ([] : List (Option String × List String)) := by
    simp [Assoc.keys]
  suffices hreverse : ∃ columns, Node.dependencies columns needed.1 ∈ nodes.reverse by
    simpa using hreverse
  -- an owner that nothing was needed of so far is added by one of the nodes that follow
  generalize ([] : List (Option String × List String)) = sofar at h hnew
  generalize nodes.reverse = rest at h ⊢
  induction rest generalizing sofar with
  | nil => exact absurd (List.mem_map_of_mem h) hnew
  | cons node rest ih =>
      by_cases hnode : ∃ columns, node = .dependencies columns needed.1
      · obtain ⟨columns, rfl⟩ := hnode
        exact ⟨columns, List.mem_cons_self⟩
      · rw [List.foldl_cons] at h
        obtain ⟨columns, hmem⟩ : ∃ columns, .dependencies columns needed.1 ∈ rest := by
          refine ih _ ?_ h
          cases node with
          | dependencies columns owner =>
              intro hkey
              obtain ⟨entry, hentry, heq⟩ := List.mem_map.mp hkey
              rcases Assoc.mem_of_mem_put hentry with rfl | hold
              · exact hnode ⟨columns, by rw [← heq]⟩
              · exact hnew (heq ▸ List.mem_map_of_mem hold)
          | table | column | composite | expression | nothing => exact hnew
        exact ⟨columns, List.mem_cons_of_mem _ hmem⟩

theorem mem_mergedNodes {needed : List (Option String × List String)} {names : Namespace}
    {node : Node} (h : node ∈ (needed.mapM mergedNode names).1) :
    ∃ columns, ∃ each ∈ needed, node = .dependencies columns each.1 := by
  induction needed generalizing names with
  | nil => cases h
  | cons columns rest ih =>
      rw [List.mapM_cons] at h
      rcases List.mem_cons.mp h with rfl | hrest
      · exact ⟨_, columns, List.mem_cons_self, rfl⟩
      · obtain ⟨merged, each, heach, heq⟩ := ih hrest
        exact ⟨merged, each, List.mem_cons_of_mem _ heach, heq⟩

theorem soundBelow_mergedNodes {schema : Schema} {junctionOwner : Option String}
    {nodes : List Node} (h : ∀ node ∈ nodes, node.SoundBelow schema junctionOwner)
    (names : Namespace) :
    ∀ node ∈ ((neededColumns nodes).mapM mergedNode names).1,
      node.SoundBelow schema junctionOwner := by
  intro node hnode
  obtain ⟨columns, needed, hneeded, rfl⟩ := mem_mergedNodes hnode
  obtain ⟨others, hmem⟩ := exists_dependencies_of_mem_neededColumns hneeded
  exact .of_leaf rfl (h _ hmem).belongs.owner

theorem mem_pruneNodes {node : Node} (hfixed : node.IsFixed) :
    ∀ {nodes : List Node} {names : Namespace}, node ∈ nodes → node ∈ (pruneNodes nodes names).1
  | other :: rest, names, h => by
      rcases List.mem_cons.mp h with rfl | hrest
      · cases node with
        | table | dependencies => exact hfixed.elim
        | column | composite | expression | nothing =>
            rw [pruneNodes]
            · exact List.mem_cons_self
            · simp
      · cases other with
        | dependencies columns owner =>
            rw [pruneNodes]
            exact mem_pruneNodes hfixed hrest
        | table | column | composite | expression | nothing =>
            rw [pruneNodes]
            · exact List.mem_cons_of_mem _ (mem_pruneNodes hfixed hrest)
            · simp

variable {schema : Schema}

mutual

theorem Table.prune_sound : ∀ (table : Table Node) (names : Namespace),
    Provided schema table.info table.shared →
    (∀ node ∈ table.children, node.SoundBelow schema table.info.junctionOwner?) →
      Provided schema table.info (table.prune names).1.shared ∧
        ∀ node ∈ (table.prune names).1.children,
          node.SoundBelow schema table.info.junctionOwner?
  | ⟨info, shared, typed⟩, names, hprovided, hchildren => by
      rw [Table.prune]
      rw [Table.children, List.forall_mem_append] at hchildren
      obtain ⟨hshared, htyped⟩ := hchildren
      constructor
      · exact hprovided.mono fun node hnode hfixed =>
          List.mem_append_left _ (mem_pruneNodes hfixed hnode)
      · intro node hnode
        rcases List.mem_append.mp hnode with hnode | hnode
        · rcases List.mem_append.mp hnode with hkept | hmerged
          · exact pruneNodes_sound shared names hshared node hkept
          · exact soundBelow_mergedNodes hshared _ node hmerged
        · exact pruneBuckets_sound typed _ htyped node hnode

theorem Node.prune_sound : ∀ (node : Node) (names : Namespace) {junctionOwner : Option String},
    node.SoundBelow schema junctionOwner →
      (node.prune names).1.SoundBelow schema junctionOwner
  | .table table, names, junctionOwner, h => by
      obtain ⟨hprovided, hchildren⟩ := h.sound
      obtain ⟨hkept, hpruned⟩ := table.prune_sound names hprovided hchildren
      have hinfo := (table.prune_pruned names).1
      have hrelated : (table.prune names).1.info.relation.isSome = true :=
        hinfo ▸ h.belongs.related table rfl
      rw [← hinfo] at hkept hpruned
      rw [Node.prune]
      exact .of_children hrelated hkept hpruned
  | .column column, names, _, h => h
  | .dependencies columns owner, names, _, h => h
  | .composite columns fieldName aliasName owner, names, _, h => h
  | .expression sql fieldName aliasName args owner, names, _, h => h
  | .nothing, names, _, h => h

theorem pruneNodes_sound : ∀ (nodes : List Node) (names : Namespace)
    {junctionOwner : Option String}, (∀ node ∈ nodes, node.SoundBelow schema junctionOwner) →
      ∀ node ∈ (pruneNodes nodes names).1, node.SoundBelow schema junctionOwner
  | [], names, _, h => h
  | node :: rest, names, _, h => by
      rw [List.forall_mem_cons] at h
      cases node with
      | dependencies columns owner =>
          rw [pruneNodes]
          exact pruneNodes_sound rest names h.2
      | table | column | composite | expression | nothing =>
          rw [pruneNodes]
          · intro other hother
            rcases List.mem_cons.mp hother with rfl | hrest
            · exact Node.prune_sound _ names h.1
            · exact pruneNodes_sound rest _ h.2 other hrest
          · simp

theorem pruneBuckets_sound : ∀ (buckets : List (String × List Node)) (names : Namespace)
    {junctionOwner : Option String},
    (∀ node ∈ buckets.flatMap Prod.snd, node.SoundBelow schema junctionOwner) →
      ∀ node ∈ (pruneBuckets buckets names).1.flatMap Prod.snd,
        node.SoundBelow schema junctionOwner
  | [], names, _, h => h
  | bucket :: rest, names, _, h => by
      rw [List.flatMap_cons, List.forall_mem_append] at h
      rw [pruneBuckets]
      intro node hnode
      rcases List.mem_append.mp hnode with hfirst | hrest
      · exact pruneBucket_sound bucket names h.1 node hfirst
      · exact pruneBuckets_sound rest _ h.2 node hrest

theorem pruneBucket_sound : ∀ (bucket : String × List Node) (names : Namespace)
    {junctionOwner : Option String},
    (∀ node ∈ bucket.2, node.SoundBelow schema junctionOwner) →
      ∀ node ∈ (pruneBucket bucket names).1.2, node.SoundBelow schema junctionOwner
  | (type, nodes), names, _, h => by
      rw [pruneBucket]
      intro node hnode
      rcases List.mem_append.mp hnode with hkept | hmerged
      · exact pruneNodes_sound nodes names h node hkept
      · exact soundBelow_mergedNodes h _ node hmerged

end

/-- Every table of a plan is sound. -/
theorem Compiled.sound {env : Environment} {minify : Bool} {root : Table Node}
    (hroot : Compiled env minify root) : ∀ table ∈ root.subtree, table.Sound env.schema := by
  obtain ⟨scope, table, between, hnode, rfl⟩ :=
    hroot.eq_prune_selected (keepsSound_selecting env)
  cases hnode with
  | leaf hfield hleaf =>
      have hnone := (compileLeaf_leaves hleaf).1 _ List.mem_cons_self
      cases hnone
  | again isAbstract hexisting hfill => cases hexisting
  | @new field opened children after _ isAbstract hexisting hfield hnew hfill =>
      obtain ⟨hprovided, hchildren⟩ := (newTable_isSetUp hfield hnew).soundBelow hfill isAbstract
      let filled : Table Node := ⟨{ opened.info with isAbstract },
        children.shared ++ lastColumns opened.info none, children.typed⟩
      obtain ⟨hkept, hpruned⟩ := Table.prune_sound filled between hprovided hchildren
      have hinfo := (filled.prune_pruned between).1
      exact Table.sound_subtree (hinfo ▸ hkept) (hinfo ▸ hpruned)

end JoinPlan.Plan
