import JoinPlan.Proofs.Plan.Layout

/-!
# The children of a table in a plan

When dependencies are merged the other children keep their order: the opening a table was set
up with, the fields selected on it around the key of its batches, and then the columns that
fields are computed from.  Shared columns of one property are fetched under one alias.
-/

namespace JoinPlan.Plan

/-! ### Nodes with their dependencies merged -/

theorem prune_of_leaf {node : Node} (hleaf : node.table? = none) (names : Namespace) :
    node.prune names = (node, names) := by
  cases node with
  | table => cases hleaf
  | column | dependencies | composite | expression | nothing => rfl

theorem Node.dependencies?_prune (node : Node) (names : Namespace) :
    (node.prune names).1.dependencies? = node.dependencies? := by
  cases node <;> rfl

theorem Node.columnEntries_prune (node : Node) (names : Namespace) :
    (node.prune names).1.columnEntries = node.columnEntries := by
  cases node with
  | table table =>
      change (Node.table (table.prune names).1).columnEntries = (Node.table table).columnEntries
      rw [columnEntries, columnEntries, (table.prune_pruned names).1]
  | column | dependencies | composite | expression | nothing => rfl

theorem IsSelected.prune {bucket : Option String} {node : Node} (h : IsSelected bucket node)
    (names : Namespace) : IsSelected bucket (node.prune names).1 := by
  cases h with
  | nothing => exact .nothing
  | leaf hfield hleaf =>
      rw [prune_of_leaf ((compileLeaf_leaves hleaf).1 _ List.mem_cons_self)]
      exact .leaf hfield hleaf
  | table table => exact .table _

theorem pruneNodes_append (first second : List Node) (names : Namespace) :
    pruneNodes (first ++ second) names =
      ((pruneNodes first names).1 ++ (pruneNodes second (pruneNodes first names).2).1,
        (pruneNodes second (pruneNodes first names).2).2) := by
  induction first generalizing names with
  | nil => rfl
  | cons node rest ih =>
      rw [List.cons_append]
      cases hnode : node.dependencies? with
      | none => rw [pruneNodes_cons hnode, pruneNodes_cons hnode, ih, List.cons_append]
      | some entry =>
          cases node with
          | dependencies columns owner =>
              rw [pruneNodes_dependencies, pruneNodes_dependencies, ih]
          | table | column | composite | expression | nothing => cases hnode

theorem pruneNodes_of_isFixed {nodes : List Node} (h : ∀ node ∈ nodes, node.IsFixed)
    (names : Namespace) : pruneNodes nodes names = (nodes, names) := by
  induction nodes with
  | nil => rfl
  | cons node rest ih =>
      rw [List.forall_mem_cons] at h
      have hnode : node.dependencies? = none := by
        cases node with
        | dependencies => exact h.1.elim
        | table | column | composite | expression | nothing => rfl
      rw [pruneNodes_cons hnode, prune_of_leaf h.1.table?_eq, ih h.2]

theorem Node.prune_grows (node : Node) (names : Namespace) :
    names.Grows (node.prune names).2 := by
  obtain ⟨asked, hasks, -⟩ := (node.prune_pruned names).words
  exact hasks.grows

theorem pruneNodes_grows (nodes : List Node) (names : Namespace) :
    names.Grows (pruneNodes nodes names).2 := by
  obtain ⟨asked, hasks, -⟩ := (pruneNodes_pruned nodes names).words
  exact hasks.grows

/-- What is left of nodes is no dependencies, each with those below it merged. -/
theorem exists_of_mem_pruneNodes {nodes : List Node} {names : Namespace} {other : Node}
    (h : other ∈ (pruneNodes nodes names).1) :
    ∃ node ∈ nodes, node.dependencies? = none ∧
      ∃ between, names.Grows between ∧ other = (node.prune between).1 := by
  induction nodes generalizing names with
  | nil => cases h
  | cons node rest ih =>
      cases hnode : node.dependencies? with
      | none =>
          rw [pruneNodes_cons hnode] at h
          rcases List.mem_cons.mp h with rfl | hrest
          · exact ⟨node, List.mem_cons_self, hnode, names, .refl names, rfl⟩
          · obtain ⟨inner, hinner, hnone, between, hgrows, heq⟩ := ih hrest
            exact ⟨inner, List.mem_cons_of_mem _ hinner, hnone, between,
              (node.prune_grows names).trans hgrows, heq⟩
      | some entry =>
          cases node with
          | dependencies columns owner =>
              rw [pruneNodes_dependencies] at h
              obtain ⟨inner, hinner, hfound⟩ := ih h
              exact ⟨inner, List.mem_cons_of_mem _ hinner, hfound⟩
          | table | column | composite | expression | nothing => cases hnode

theorem mergedNodes_addsNamed (needed : List (Option String × List String)) (names : Namespace) :
    AddsNamed names (needed.mapM mergedNode names).1 (needed.mapM mergedNode names).2 := by
  induction needed generalizing names with
  | nil => exact .nothing names
  | cons columns rest ih =>
      rw [List.mapM_cons]
      have hasks := neededColumns_asks columns.2 names
      have hfirst : AddsNamed names [.dependencies (columns.2.mapM neededColumn names).1 columns.1]
          (columns.2.mapM neededColumn names).2 :=
        ⟨hasks.grows, by simpa [Named, Node.columnEntries] using hasks.gives⟩
      exact hfirst.append (ih _)

theorem mergeNodes_grows (nodes : List Node) (names : Namespace) :
    names.Grows (mergeNodes nodes names).2 :=
  (pruneNodes_grows nodes names).trans
    (mergedNodes_addsNamed (neededColumns nodes) (pruneNodes nodes names).2).grows

/-- A list of a table's children once its dependencies are merged. -/
theorem mergeNodes_addsNamed {nodes : List Node} {names : Namespace} (h : Named names nodes) :
    AddsNamed names (mergeNodes nodes names).1 (mergeNodes nodes names).2 := by
  have hgrows := mergeNodes_grows nodes names
  have hmerged := mergedNodes_addsNamed (neededColumns nodes) (pruneNodes nodes names).2
  refine ⟨hgrows, Named.append (fun other hother => ?_) hmerged.named⟩
  obtain ⟨node, hnode, -, between, -, rfl⟩ := exists_of_mem_pruneNodes hother
  rw [Node.columnEntries_prune]
  exact (h.grows hgrows) node hnode

/-! ### Tables of a plan -/

/-- Selected fields followed by merged dependencies. -/
def IsMerged (bucket : Option String) (selected merged : List Node) : Prop :=
  (∀ node ∈ selected, IsSelected bucket node ∧ node.dependencies? = none) ∧
    ∀ node ∈ merged, ∃ columns owner, node = .dependencies columns owner

/-- How the children of a table are arranged in a plan. -/
structure Table.Arranged (env : Environment) (table : Table Node) : Prop where
  shared : ∃ opening early late merged, OpensWith env table.info opening ∧
    table.shared = opening ++ (early ++ lastColumns table.info none ++ late) ++ merged ∧
    IsMerged none (early ++ late) merged
  named : ∃ names, Named names table.shared
  typed : ∀ bucket ∈ table.typed, ∃ selected merged, bucket.2 = selected ++ merged ∧
    IsMerged (some bucket.1) selected merged

theorem isSelected_pruneNodes {bucket : Option String} {nodes : List Node} {names : Namespace}
    (h : ∀ node ∈ nodes, IsSelected bucket node) :
    ∀ node ∈ (pruneNodes nodes names).1, IsSelected bucket node ∧ node.dependencies? = none := by
  intro other hother
  obtain ⟨node, hnode, hnone, between, -, rfl⟩ := exists_of_mem_pruneNodes hother
  exact ⟨(h node hnode).prune between, (node.dependencies?_prune between).trans hnone⟩

theorem dependencies_mergedNodes (needed : List (Option String × List String))
    (names : Namespace) :
    ∀ node ∈ (needed.mapM mergedNode names).1,
      ∃ columns owner, node = .dependencies columns owner := by
  intro node hnode
  obtain ⟨columns, each, -, heq⟩ := mem_mergedNodes hnode
  exact ⟨columns, each.1, heq⟩

theorem arranged_bucket {buckets : List (String × List Node)}
    (h : ∀ bucket ∈ buckets, ∀ node ∈ bucket.2, IsSelected (some bucket.1) node)
    (names : Namespace) :
    ∀ bucket ∈ (pruneBuckets buckets names).1, ∃ selected merged,
      bucket.2 = selected ++ merged ∧ IsMerged (some bucket.1) selected merged := by
  induction buckets generalizing names with
  | nil =>
      intro bucket hbucket
      cases hbucket
  | cons bucket rest ih =>
      obtain ⟨type, nodes⟩ := bucket
      rw [List.forall_mem_cons] at h
      rw [pruneBuckets_cons, List.forall_mem_cons]
      refine ⟨?_, ih h.2 _⟩
      rw [mergeNodes_eq]
      exact ⟨_, _, rfl, isSelected_pruneNodes h.1, dependencies_mergedNodes _ _⟩

theorem OpensWith.isFixed {env : Environment} {info : TableInfo} {opening : List Node}
    (h : OpensWith env info opening) :
    ∀ node ∈ opening ++ lastColumns info none, node.IsFixed := by
  obtain ⟨scope, nested, field, names, opened, after, hfield, hnew, hinfo, rfl⟩ := h
  rw [hinfo]
  exact fun node hnode => ((newTable_isSetUp hfield hnew).nodes node hnode).1

theorem Table.LaidOut.prune {env : Environment} {names between : Namespace} {table : Table Node}
    (h : table.LaidOut env names) (hgrows : names.Grows between) :
    (table.prune between).1.Arranged env := by
  obtain ⟨info, shared, typed⟩ := table
  obtain ⟨opening, hopens, hfilled⟩ := h.filled
  obtain ⟨early, late, hshared, hselected⟩ := hfilled.shared
  have hfixed := hopens.isFixed
  rw [List.forall_mem_append] at hselected hfixed
  have hnamed : Named between shared := hfilled.named.grows hgrows
  have hkept : (pruneNodes shared between).1 = opening ++ ((pruneNodes early between).1 ++
      lastColumns info none ++ (pruneNodes late (pruneNodes early between).2).1) := by
    have hshared : shared = opening ++ early ++ lastColumns info none ++ late := hshared
    rw [hshared]
    simp only [pruneNodes_append, pruneNodes_of_isFixed hfixed.1, pruneNodes_of_isFixed hfixed.2,
      List.append_assoc]
  change Table.Arranged env ⟨info, (mergeNodes shared between).1,
    (pruneBuckets typed (mergeNodes shared between).2).1⟩
  refine ⟨?_, ⟨_, (mergeNodes_addsNamed hnamed).named⟩, arranged_bucket hfilled.typed _⟩
  refine ⟨opening, (pruneNodes early between).1,
    (pruneNodes late (pruneNodes early between).2).1,
    ((neededColumns shared).mapM mergedNode (pruneNodes shared between).2).1, hopens,
    congrArg (· ++ _) hkept, ?_, dependencies_mergedNodes _ _⟩
  rw [List.forall_mem_append]
  exact ⟨isSelected_pruneNodes hselected.1, isSelected_pruneNodes hselected.2⟩

/-! ### All tables of a plan -/

theorem exists_of_mem_mergeNodes {nodes : List Node} {names : Namespace} {other : Node}
    (h : other ∈ (mergeNodes nodes names).1) :
    (∃ node ∈ nodes, ∃ between, names.Grows between ∧
        other = (node.prune between).1) ∨ other.table? = none := by
  rw [mergeNodes_eq, List.mem_append] at h
  rcases h with hkept | hmerged
  · obtain ⟨node, hnode, -, between, hgrows, heq⟩ := exists_of_mem_pruneNodes hkept
    exact Or.inl ⟨node, hnode, between, hgrows, heq⟩
  · obtain ⟨columns, owner, rfl⟩ := dependencies_mergedNodes _ _ other hmerged
    exact Or.inr rfl

theorem exists_of_mem_pruneBuckets {buckets : List (String × List Node)} {names : Namespace}
    {other : Node} (h : other ∈ (pruneBuckets buckets names).1.flatMap Prod.snd) :
    (∃ node ∈ buckets.flatMap Prod.snd, ∃ between, names.Grows between ∧
        other = (node.prune between).1) ∨ other.table? = none := by
  induction buckets generalizing names with
  | nil => cases h
  | cons bucket rest ih =>
      obtain ⟨type, nodes⟩ := bucket
      rw [pruneBuckets_cons, List.flatMap_cons, List.mem_append] at h
      rw [List.flatMap_cons]
      rcases h with hfirst | hrest
      · refine (exists_of_mem_mergeNodes hfirst).imp_left ?_
        rintro ⟨node, hnode, hpruned⟩
        exact ⟨node, List.mem_append_left _ hnode, hpruned⟩
      · refine (ih hrest).imp_left ?_
        rintro ⟨node, hnode, between, hgrows, heq⟩
        exact ⟨node, List.mem_append_right _ hnode, between,
          (mergeNodes_grows nodes names).trans hgrows, heq⟩

theorem exists_of_mem_children_prune {table : Table Node} {names : Namespace} {other : Node}
    (h : other ∈ (table.prune names).1.children) :
    (∃ node ∈ table.children, ∃ between, names.Grows between ∧
        other = (node.prune between).1) ∨ other.table? = none := by
  obtain ⟨info, shared, typed⟩ := table
  change other ∈ (mergeNodes shared names).1 ++
    (pruneBuckets typed (mergeNodes shared names).2).1.flatMap Prod.snd at h
  rcases List.mem_append.mp h with hshared | htyped
  · refine (exists_of_mem_mergeNodes hshared).imp_left ?_
    rintro ⟨node, hnode, hpruned⟩
    exact ⟨node, List.mem_append_left _ hnode, hpruned⟩
  · refine (exists_of_mem_pruneBuckets htyped).imp_left ?_
    rintro ⟨node, hnode, between, hgrows, heq⟩
    exact ⟨node, List.mem_append_right _ hnode, between,
      (mergeNodes_grows shared names).trans hgrows, heq⟩

/-- Every table of a tree was one before dependencies were merged. -/
theorem exists_prune_of_mem_subtree (node : Node) :
    ∀ (names : Namespace), ∀ inner ∈ (node.prune names).1.subtree,
      ∃ table ∈ node.subtree, ∃ between, names.Grows between ∧
        inner = (table.prune between).1 := by
  induction node using Node.induction with
  | leaf node hleaf =>
      intro names inner hinner
      rw [prune_of_leaf hleaf, Node.subtree_of_leaf hleaf] at hinner
      cases hinner
  | table table ih =>
      intro names inner hinner
      change inner ∈ (table.prune names).1.subtree at hinner
      rw [Table.subtree_eq, List.mem_cons] at hinner
      rcases hinner with rfl | hbelow
      · exact ⟨table, table.mem_subtree_self, names, .refl names, rfl⟩
      · obtain ⟨child, hchild, hmem⟩ := List.mem_flatMap.mp hbelow
        rcases exists_of_mem_children_prune hchild with ⟨node, hnode, between, hgrows, rfl⟩ | hleaf
        · obtain ⟨found, hfound, later, hlater, heq⟩ := ih node hnode between inner hmem
          exact ⟨found, Table.mem_subtree_of_mem_children hnode hfound, later,
            hgrows.trans hlater, heq⟩
        · rw [Node.subtree_of_leaf hleaf] at hmem
          cases hmem

/-- The children of every table of a plan are arranged. -/
theorem Compiled.arranged {env : Environment} {minify : Bool} {root : Table Node}
    (hroot : Compiled env minify root) : ∀ table ∈ root.subtree, table.Arranged env := by
  obtain ⟨last, hcompiles⟩ := hroot.exists_compiles
  obtain ⟨scope, field, table, between, hfield, hnode, hpruned⟩ :=
    hcompiles.eq_prune_tableNode (keepsLayout_fieldByField env)
  obtain rfl : (table.prune between).1 = root := by rw [hpruned]
  have hlaid : ∀ inner ∈ table.subtree, inner.LaidOut env between := by
    cases hnode with
    | again hexisting => cases hexisting
    | new _ hnew hfill => exact (laidOut_of_new hfield hnew hfill field.kind.isAbstract rfl).2.2
  intro inner hinner
  obtain ⟨found, hfound, later, hgrows, rfl⟩ :=
    exists_prune_of_mem_subtree (.table table) between inner hinner
  exact (hlaid found hfound).prune hgrows

end JoinPlan.Plan
