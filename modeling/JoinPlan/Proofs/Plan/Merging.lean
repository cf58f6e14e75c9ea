import JoinPlan.Proofs.LastValue
import JoinPlan.Proofs.Plan.Arrangement

/-!
# Merging under aliases that were issued

Dependencies are merged in the namespace that issued the aliases of their columns.  Asking for a
column again hands out nothing new, so what becomes of a tree depends on the tree alone: in every
list of children the nodes that are no dependencies keep their order, and behind them stands one
node for each table that columns are needed of, with each of these columns once.
-/

namespace JoinPlan.Plan

/-! ### The columns needed among children -/

/-- The columns a node needs for the fields computed from them: the alias of the table that has
the column, its name and its alias. -/
def Node.needs : Node → List (Option String × String × String)
  | .dependencies columns owner => columns.map fun entry => (owner, entry)
  | _ => []

theorem Node.needs_of_none {node : Node} (h : node.dependencies? = none) : node.needs = [] := by
  cases node with
  | dependencies => cases h
  | table | column | composite | expression | nothing => rfl

theorem addNames_cons (needed : List String) (first : String) (rest : List String) :
    addNames needed (first :: rest) =
      addNames (if first ∈ needed then needed else needed ++ [first]) rest := rfl

theorem mem_addNames {needed names : List String} {name : String} :
    name ∈ addNames needed names ↔ name ∈ needed ∨ name ∈ names := by
  induction names generalizing needed with
  | nil => simp [addNames]
  | cons first rest ih =>
      rw [addNames_cons, ih]
      split
      · rename_i hfirst
        rw [List.mem_cons]
        exact ⟨fun h => h.imp_right Or.inr, fun h => h.elim Or.inl fun h =>
          h.elim (fun heq => Or.inl (heq ▸ hfirst)) Or.inr⟩
      · rw [List.mem_append, List.mem_singleton, List.mem_cons, or_assoc]

theorem nodup_addNames {needed : List String} (h : needed.Nodup) (names : List String) :
    (addNames needed names).Nodup := by
  induction names generalizing needed with
  | nil => exact h
  | cons first rest ih =>
      rw [addNames_cons]
      apply ih
      split
      · exact h
      · rename_i hfirst
        rw [List.nodup_append]
        refine ⟨h, List.nodup_singleton _, ?_⟩
        rintro other hother _ hsame rfl
        exact hfirst (List.mem_singleton.mp hsame ▸ hother)

/-- Dependencies are gathered from the last one on. -/
theorem neededColumns_cons (node : Node) (rest : List Node) :
    neededColumns (node :: rest) =
      match node.dependencies? with
      | none => neededColumns rest
      | some (columns, owner) =>
          Assoc.alter owner (fun names => addNames (names.getD []) (Assoc.keys columns))
            (neededColumns rest) := by
  rw [neededColumns, neededColumns, List.foldl_reverse, List.foldl_reverse, List.foldr_cons]
  cases node <;> rfl

theorem nodup_keys_neededColumns (nodes : List Node) :
    (Assoc.keys (neededColumns nodes)).Nodup := by
  induction nodes with
  | nil => exact List.nodup_nil
  | cons node rest ih =>
      rw [neededColumns_cons]
      cases node.dependencies? with
      | none => exact ih
      | some entry => exact Assoc.nodup_keys_put _ _ ih

theorem nodup_of_mem_neededColumns (nodes : List Node) :
    ∀ needed ∈ neededColumns nodes, needed.2.Nodup := by
  induction nodes with
  | nil => nofun
  | cons node rest ih =>
      rw [neededColumns_cons]
      cases node.dependencies? with
      | none => exact ih
      | some entry =>
          intro needed hneeded
          rcases Assoc.mem_of_mem_put hneeded with rfl | hold
          · apply nodup_addNames
            cases hfound : Assoc.get? entry.2 (neededColumns rest) with
            | none => exact List.nodup_nil
            | some names => exact ih _ (Assoc.mem_of_get?_eq_some hfound)
          · exact ih needed hold

/-- A column is needed of a table exactly if some of the nodes need it. -/
theorem mem_get?_neededColumns {nodes : List Node} {owner : Option String} {name : String} :
    name ∈ (Assoc.get? owner (neededColumns nodes)).getD [] ↔
      ∃ aliasName, (owner, name, aliasName) ∈ nodes.flatMap Node.needs := by
  induction nodes with
  | nil => simp [neededColumns]
  | cons node rest ih =>
      rw [neededColumns_cons, List.flatMap_cons]
      simp only [List.mem_append, exists_or, ← ih]
      cases node with
      | dependencies columns other =>
          change name ∈ (Assoc.get? owner (Assoc.put other _ _)).getD [] ↔ _
          rw [Assoc.get?_put]
          by_cases howner : other = owner
          · subst howner
            simp [mem_addNames, Node.needs, Assoc.keys, or_comm]
          · simp [howner, Node.needs]
      | table | column | composite | expression | nothing => simp [Node.dependencies?, Node.needs]

/-- The names and emails of staff, and the tags of a junction. -/
example :
    neededColumns [.column (ownedColumn "id"),
      .dependencies [("first_name", "first_name"), ("last_name", "last_name")] none,
      .dependencies [("first_name", "first_name"), ("email", "email")] none,
      .dependencies [("tag", "tag")] (some "user_tags")] =
        [(some "user_tags", ["tag"]), (none, ["first_name", "email", "last_name"])] := by
  decide

/-! ### What merging leaves of a list -/

/-- The nodes that are no dependencies, in their order, with those below them merged. -/
def keptNodes (names : Namespace) (nodes : List Node) : List Node :=
  (nodes.filter fun node => node.dependencies?.isNone).map fun node => (node.prune names).1

/-- The node for the columns needed of a table, under the aliases they have. -/
def givenNode (names : Namespace) (needed : Option String × List String) : Node :=
  .dependencies (needed.2.map fun name => (name, (names.column name).1)) needed.1

/-- The nodes of a list with their dependencies merged in a namespace that issued the aliases. -/
def mergedIn (names : Namespace) (nodes : List Node) : List Node :=
  keptNodes names nodes ++ (neededColumns nodes).map (givenNode names)

/-- A list of children before and after merging: the nodes that are no dependencies come first, in
their order; of the dependencies behind them no two have one owner, and together they have the
columns needed before, each once. -/
structure Merged (names : Namespace) (before after : List Node) : Prop where
  split : ∃ merged, after = keptNodes names before ++ merged ∧
    ∀ node ∈ merged, ∃ columns owner, node = .dependencies columns owner
  owners : ((after.filterMap Node.dependencies?).map Prod.snd).Nodup
  needs : ∀ need, need ∈ after.flatMap Node.needs ↔ need ∈ before.flatMap Node.needs
  once : ((after.flatMap Node.needs).map fun need => (need.1, need.2.1)).Nodup

/-- Whether the columns nodes need have the aliases that a namespace issued. -/
def NeedsIssued (names : Namespace) (nodes : List Node) : Prop :=
  ∀ need ∈ nodes.flatMap Node.needs, names.Gives need.2

instance (names : Namespace) (nodes : List Node) : Decidable (NeedsIssued names nodes) :=
  inferInstanceAs (Decidable (∀ need ∈ nodes.flatMap Node.needs,
    (names.column need.2.1).2 = names ∧ (names.column need.2.1).1 = need.2.2))

theorem needsIssued_append {names : Namespace} {first second : List Node} :
    NeedsIssued names (first ++ second) ↔ NeedsIssued names first ∧ NeedsIssued names second := by
  rw [NeedsIssued, List.flatMap_append, List.forall_mem_append]
  rfl

theorem dependencies?_of_mem_keptNodes {names : Namespace} {nodes : List Node} {node : Node}
    (h : node ∈ keptNodes names nodes) : node.dependencies? = none := by
  obtain ⟨kept, hkept, rfl⟩ := List.mem_map.mp h
  rw [Node.dependencies?_prune]
  exact Option.isNone_iff_eq_none.mp (List.mem_filter.mp hkept).2

theorem needs_keptNodes (names : Namespace) (nodes : List Node) :
    (keptNodes names nodes).flatMap Node.needs = [] :=
  List.flatMap_eq_nil_iff.mpr fun _ hnode =>
    Node.needs_of_none (dependencies?_of_mem_keptNodes hnode)

theorem needs_mergedIn (names : Namespace) (nodes : List Node) :
    (mergedIn names nodes).flatMap Node.needs =
      (neededColumns nodes).flatMap fun needed =>
        needed.2.map fun name => (needed.1, name, (names.column name).1) := by
  rw [mergedIn, List.flatMap_append, needs_keptNodes, List.nil_append]
  simp [List.flatMap_map, givenNode, Node.needs, Function.comp_def]

theorem mem_needs_mergedIn {names : Namespace} {nodes : List Node}
    (hissued : NeedsIssued names nodes) (need : Option String × String × String) :
    need ∈ (mergedIn names nodes).flatMap Node.needs ↔ need ∈ nodes.flatMap Node.needs := by
  obtain ⟨owner, name, aliasName⟩ := need
  rw [needs_mergedIn]
  constructor
  · intro hneed
    obtain ⟨needed, hneeded, hneed⟩ := List.mem_flatMap.mp hneed
    obtain ⟨_, hname, heq⟩ := List.mem_map.mp hneed
    obtain ⟨rfl, rfl, rfl⟩ : needed.1 = owner ∧ _ = name ∧ _ = aliasName := by simpa using heq
    have hfound := Assoc.get?_eq_some_of_mem (nodup_keys_neededColumns nodes) hneeded
    obtain ⟨aliasName, hneed⟩ := mem_get?_neededColumns.mp (by rw [hfound]; exact hname)
    have hgives := (hissued _ hneed).2
    exact hgives ▸ hneed
  · intro hneed
    have hname := mem_get?_neededColumns.mpr ⟨aliasName, hneed⟩
    cases hfound : Assoc.get? owner (neededColumns nodes) with
    | none => simp [hfound] at hname
    | some found =>
        rw [hfound, Option.getD_some] at hname
        refine List.mem_flatMap.mpr ⟨_, Assoc.mem_of_get?_eq_some hfound, ?_⟩
        exact List.mem_map.mpr ⟨name, hname, by rw [(hissued _ hneed).2]⟩

theorem nodup_needs_mergedIn (names : Namespace) (nodes : List Node) :
    (((mergedIn names nodes).flatMap Node.needs).map fun need => (need.1, need.2.1)).Nodup := by
  rw [needs_mergedIn, List.map_flatMap, List.nodup_flatMap]
  constructor
  · intro needed hneeded
    rw [List.map_map]
    exact (nodup_of_mem_neededColumns nodes needed hneeded).map fun _ _ heq => (Prod.mk.inj heq).2
  · refine (List.pairwise_map.mp (nodup_keys_neededColumns nodes)).imp fun hne => ?_
    intro need hfirst hsecond
    simp only [List.map_map, List.mem_map, Function.comp_apply] at hfirst hsecond
    obtain ⟨_, -, rfl⟩ := hfirst
    obtain ⟨_, -, heq⟩ := hsecond
    exact hne (Prod.mk.inj heq).1.symm

theorem owners_mergedIn (names : Namespace) (nodes : List Node) :
    ((mergedIn names nodes).filterMap Node.dependencies?).map Prod.snd =
      Assoc.keys (neededColumns nodes) := by
  have hkept : (keptNodes names nodes).filterMap Node.dependencies? = [] :=
    List.filterMap_eq_nil_iff.mpr fun node hnode => dependencies?_of_mem_keptNodes hnode
  rw [mergedIn, List.filterMap_append, hkept, List.nil_append, List.filterMap_map]
  simp [givenNode, Node.dependencies?, Function.comp_def, Assoc.keys]

theorem merged_mergedIn {names : Namespace} {nodes : List Node}
    (hissued : NeedsIssued names nodes) : Merged names nodes (mergedIn names nodes) where
  split := by
    refine ⟨_, rfl, fun node hnode => ?_⟩
    obtain ⟨needed, -, rfl⟩ := List.mem_map.mp hnode
    exact ⟨_, _, rfl⟩
  owners := owners_mergedIn names nodes ▸ nodup_keys_neededColumns nodes
  needs := mem_needs_mergedIn hissued
  once := nodup_needs_mergedIn names nodes

/-! ### Merging hands out nothing -/

section Prune

variable {names : Namespace}

/-- A walk that leaves the state as it is at every item. -/
theorem mapM_of_unchanged {α β σ : Type} {action : α → StateM σ β} {f : α → β} {state : σ}
    {items : List α} (h : ∀ item ∈ items, action item state = (f item, state)) :
    items.mapM action state = (items.map f, state) := by
  induction items with
  | nil => rfl
  | cons first rest ih =>
      rw [List.forall_mem_cons] at h
      rw [List.mapM_cons]
      change ((action first state).1 :: (rest.mapM action (action first state).2).1,
        (rest.mapM action (action first state).2).2) = _
      rw [h.1, ih h.2]
      rfl

theorem mergedNode_of_knows {needed : Option String × List String}
    (h : ∀ name ∈ needed.2, names.Knows name) :
    mergedNode needed names = (givenNode names needed, names) := by
  have hcolumns : needed.2.mapM neededColumn names =
      (needed.2.map fun name => (name, (names.column name).1), names) :=
    mapM_of_unchanged fun name hname => Prod.ext rfl (h name hname)
  change (Node.dependencies (needed.2.mapM neededColumn names).1 needed.1,
    (needed.2.mapM neededColumn names).2) = _
  rw [hcolumns]
  rfl

theorem mergedNodes_of_issued {nodes : List Node} (hissued : NeedsIssued names nodes) :
    (neededColumns nodes).mapM mergedNode names =
      ((neededColumns nodes).map (givenNode names), names) := by
  refine mapM_of_unchanged fun needed hneeded => mergedNode_of_knows fun name hname => ?_
  have hfound := Assoc.get?_eq_some_of_mem (nodup_keys_neededColumns nodes) hneeded
  obtain ⟨aliasName, hneed⟩ := mem_get?_neededColumns.mp (by rw [hfound]; exact hname)
  exact (hissued _ hneed).1

theorem pruneNodes_of_unchanged {nodes : List Node}
    (h : ∀ node ∈ nodes, (node.prune names).2 = names) :
    pruneNodes nodes names = (keptNodes names nodes, names) := by
  induction nodes with
  | nil => rfl
  | cons node rest ih =>
      rw [List.forall_mem_cons] at h
      cases hnode : node.dependencies? with
      | none =>
          rw [pruneNodes_cons hnode, h.1, ih h.2]
          simp [keptNodes, hnode]
      | some entry =>
          cases node with
          | dependencies columns owner =>
              rw [pruneNodes_dependencies, ih h.2]
              rfl
          | table | column | composite | expression | nothing => cases hnode

theorem mergeNodes_of_issued {nodes : List Node} (hissued : NeedsIssued names nodes)
    (h : ∀ node ∈ nodes, (node.prune names).2 = names) :
    mergeNodes nodes names = (mergedIn names nodes, names) := by
  rw [mergeNodes_eq, pruneNodes_of_unchanged h, mergedNodes_of_issued hissued]
  rfl

theorem pruneBuckets_of_issued {buckets : List (String × List Node)}
    (hissued : NeedsIssued names (buckets.flatMap Prod.snd))
    (h : ∀ node ∈ buckets.flatMap Prod.snd, (node.prune names).2 = names) :
    pruneBuckets buckets names =
      (buckets.map fun bucket => (bucket.1, mergedIn names bucket.2), names) := by
  induction buckets with
  | nil => rfl
  | cons bucket rest ih =>
      obtain ⟨type, nodes⟩ := bucket
      rw [List.flatMap_cons, List.forall_mem_append] at h
      rw [List.flatMap_cons, needsIssued_append] at hissued
      rw [pruneBuckets_cons, mergeNodes_of_issued hissued.1 h.1, ih hissued.2 h.2]
      rfl

end Prune

/-! ### Whole trees -/

/-- Whether all columns that fields of a tree are computed from have the aliases that a namespace
issued for their names. -/
def Table.Issued (names : Namespace) (root : Table Node) : Prop :=
  ∀ table ∈ root.subtree, NeedsIssued names table.children

instance (names : Namespace) (root : Table Node) : Decidable (root.Issued names) :=
  inferInstanceAs (Decidable (∀ table ∈ root.subtree, NeedsIssued names table.children))

/-- A table with the dependencies among its children and below merged. -/
def Table.merged (names : Namespace) (table : Table Node) : Table Node where
  info := table.info
  shared := mergedIn names table.shared
  typed := table.typed.map fun bucket => (bucket.1, mergedIn names bucket.2)

section Tree

variable {names : Namespace} {root : Table Node}

theorem Table.Issued.of_mem_subtree (h : root.Issued names) {table : Table Node}
    (htable : table ∈ root.subtree) : table.Issued names :=
  fun inner hinner => h inner ((Table.subtree_sublist table htable).subset hinner)

theorem Table.Issued.of_mem_tables (h : root.Issued names) {child : Table Node}
    (hchild : child ∈ root.tables) : child.Issued names :=
  h.of_mem_subtree (Table.mem_subtree_of_mem_tables hchild child.mem_subtree_self)

theorem Table.Issued.shared {table : Table Node} (h : table.Issued names) :
    NeedsIssued names table.shared :=
  (needsIssued_append.mp (h table table.mem_subtree_self)).1

theorem Table.Issued.typed {table : Table Node} (h : table.Issued names) :
    NeedsIssued names (table.typed.flatMap Prod.snd) :=
  (needsIssued_append.mp (h table table.mem_subtree_self)).2

/-- Merging in the namespace that issued the aliases leaves it as it is. -/
theorem Table.prune_of_issued (h : root.Issued names) :
    root.prune names = (root.merged names, names) := by
  induction root using Table.induction with
  | step root ih =>
      obtain ⟨info, shared, typed⟩ := root
      have hchildren : ∀ node ∈ Table.children ⟨info, shared, typed⟩,
          (node.prune names).2 = names := by
        intro node hnode
        cases node with
        | table child =>
            have hmem := Table.mem_tables.mpr hnode
            change (child.prune names).2 = names
            rw [ih child hmem (h.of_mem_tables hmem)]
        | column | dependencies | composite | expression | nothing => rfl
      rw [Table.children, List.forall_mem_append] at hchildren
      change (Table.mk info (mergeNodes shared names).1
          (pruneBuckets typed (mergeNodes shared names).2).1,
        (pruneBuckets typed (mergeNodes shared names).2).2) = _
      rw [mergeNodes_of_issued h.shared hchildren.1,
        pruneBuckets_of_issued h.typed hchildren.2]
      rfl

theorem subtree_keptNodes (names : Namespace) (nodes : List Node) :
    (keptNodes names nodes).flatMap Node.subtree =
      nodes.flatMap fun node => (node.prune names).1.subtree := by
  rw [keptNodes, List.flatMap_map]
  induction nodes with
  | nil => rfl
  | cons node rest ih =>
      rw [List.filter_cons, List.flatMap_cons, ← ih]
      cases node with
      | dependencies columns owner => rfl
      | table | column | composite | expression | nothing => exact List.flatMap_cons

theorem subtree_mergedIn (names : Namespace) (nodes : List Node) :
    (mergedIn names nodes).flatMap Node.subtree =
      nodes.flatMap fun node => (node.prune names).1.subtree := by
  have hgiven : ((neededColumns nodes).map (givenNode names)).flatMap Node.subtree = [] := by
    simp [List.flatMap_map, givenNode, Node.subtree]
  rw [mergedIn, List.flatMap_append, hgiven, List.append_nil, subtree_keptNodes]

theorem Table.children_merged (names : Namespace) (table : Table Node) :
    (table.merged names).children.flatMap Node.subtree =
      table.children.flatMap fun node => (node.prune names).1.subtree := by
  have htyped : ((table.merged names).typed.flatMap Prod.snd).flatMap Node.subtree =
      (table.typed.flatMap Prod.snd).flatMap fun node => (node.prune names).1.subtree := by
    simp only [Table.merged, List.flatMap_map, List.flatMap_assoc, subtree_mergedIn]
  rw [children, children, List.flatMap_append, List.flatMap_append, htyped]
  exact congrArg (· ++ _) (subtree_mergedIn names table.shared)

/-- The tables of a tree keep their places, each with its own dependencies merged. -/
theorem Table.subtree_merged (h : root.Issued names) :
    (root.merged names).subtree = root.subtree.map (Table.merged names) := by
  induction root using Table.induction with
  | step root ih =>
      have hnode : ∀ node ∈ root.children,
          (node.prune names).1.subtree = node.subtree.map (Table.merged names) := by
        intro node hnode
        cases node with
        | table child =>
            have hmem := Table.mem_tables.mpr hnode
            have hissued := h.of_mem_tables hmem
            change (child.prune names).1.subtree = child.subtree.map (Table.merged names)
            rw [Table.prune_of_issued hissued, ih child hmem hissued]
        | column | dependencies | composite | expression | nothing => rfl
      rw [Table.subtree_eq, Table.subtree_eq root, Table.children_merged, List.map_cons,
        List.map_flatMap]
      exact congrArg _ (List.flatMap_congr hnode)

end Tree

/-! ### Compiled trees -/

/-- Whether the columns needed by a node and below it have the aliases that a namespace issued. -/
def Node.Issued (names : Namespace) (node : Node) : Prop :=
  (∀ need ∈ node.needs, names.Gives need.2) ∧
    ∀ table ∈ node.subtree, NeedsIssued names table.children

theorem Node.Issued.grows {names after : Namespace} {node : Node} (h : node.Issued names)
    (hgrows : names.Grows after) : node.Issued after :=
  ⟨fun need hneed => (h.1 need hneed).grows hgrows,
    fun table htable need hneed => (h.2 table htable need hneed).grows hgrows⟩

theorem Node.Issued.of_leaf {names : Namespace} {node : Node} (hleaf : node.table? = none)
    (h : ∀ need ∈ node.needs, names.Gives need.2) : node.Issued names :=
  ⟨h, by simp [Node.subtree_of_leaf hleaf]⟩

theorem Node.Issued.of_isFixed {names : Namespace} {node : Node} (h : node.IsFixed) :
    node.Issued names := by
  apply Node.Issued.of_leaf h.table?_eq
  cases node with
  | table | dependencies => exact h.elim
  | column | composite | expression | nothing => simp [Node.needs]

theorem Table.issued_iff {names : Namespace} {table : Table Node} :
    table.Issued names ↔ ∀ node ∈ table.children, node.Issued names := by
  rw [Table.Issued, Table.subtree_eq, List.forall_mem_cons, NeedsIssued]
  simp only [List.mem_flatMap, Node.Issued]
  constructor
  · rintro ⟨hown, hbelow⟩ node hnode
    exact ⟨fun need hneed => hown need ⟨node, hnode, hneed⟩,
      fun inner hinner => hbelow inner ⟨node, hnode, hinner⟩⟩
  · intro h
    exact ⟨fun need ⟨node, hnode, hneed⟩ => (h node hnode).1 need hneed,
      fun inner ⟨node, hnode, hinner⟩ => (h node hnode).2 inner hinner⟩

theorem Node.issued_table {names : Namespace} {table : Table Node} :
    (Node.table table).Issued names ↔ table.Issued names :=
  ⟨fun h => h.2, fun h => ⟨by simp [Node.needs], h⟩⟩

/-- Selecting on a table hands out more aliases, and the columns needed have theirs. -/
structure KeepsIssued (names : Namespace) (children : Children) (after : Namespace)
    (filled : Children) : Prop where
  grows : names.Grows after
  issued : (∀ node ∈ children.nodes, node.Issued names) → ∀ node ∈ filled.nodes, node.Issued after

theorem compileLeaf_issued {scope : Scope} {bucket : Option String} {name : String}
    {args : Arguments} {field : ScopedField} {names after : Namespace} {node : Node}
    (h : compileLeaf scope bucket name args field names = .ok (node, after)) :
    node.Issued after := by
  refine .of_leaf ((compileLeaf_leaves h).1 _ List.mem_cons_self) ?_
  cases compileLeaf_eq_ok h with
  | expression | column | nothing => simp [Node.needs]
  | dependencies hasks =>
      intro need hneed
      obtain ⟨entry, hentry, rfl⟩ := List.mem_map.mp hneed
      exact hasks.gives entry (Assoc.mem_of_mem_distinct hentry)

section Selected

variable {env : Environment} {scope : Scope} {nested : Bool} {existing : Option (Table Node)}
  {names after : Namespace} {node : Node}

/-- A new table needs no columns for computed fields but those that are selected on it. -/
theorem KeepsIssued.of_new {field : TableField} (hfield : field.IsBacked env scope nested)
    {table : Table Node} {between : Namespace}
    (hnew : newTable env field names = .ok (table, between)) {children : Children}
    (hfill : KeepsIssued between ⟨table.shared, table.typed⟩ after children) (isAbstract : Bool) :
    names.Grows after ∧
      Table.Issued after ⟨{ table.info with isAbstract },
        children.shared ++ lastColumns table.info none, children.typed⟩ := by
  have hsetup := newTable_isSetUp hfield hnew
  have hfixed : ∀ node ∈ table.shared ++ lastColumns table.info none, node.Issued after :=
    fun node hnode => .of_isFixed (hsetup.nodes node hnode).1
  have hfilled := hfill.issued fun node hnode => by
    rw [Children.nodes, hsetup.typed, List.flatMap_nil, List.append_nil] at hnode
    exact .of_isFixed (hsetup.nodes node (List.mem_append_left _ hnode)).1
  refine ⟨(newTable_addsNamed hnew).grows.trans hfill.grows, Table.issued_iff.mpr ?_⟩
  intro node hnode
  rw [Table.children, List.append_assoc, List.mem_append, List.mem_append] at hnode
  rcases hnode with hshared | hlast | htyped
  · exact hfilled node (List.mem_append_left _ hshared)
  · exact hfixed node (List.mem_append_right _ hlast)
  · exact hfilled node (List.mem_append_right _ htyped)

theorem SelectedNode.grows
    (h : SelectedNode env (fun _ => KeepsIssued) scope nested existing names node after) :
    names.Grows after := by
  cases h with
  | nothing => exact .refl names
  | leaf hfield hleaf => exact compileLeaf_grows hleaf
  | again isAbstract hfound hfill => exact hfill.grows
  | new isAbstract hnone hfield hnew hfill =>
      exact (KeepsIssued.of_new hfield hnew hfill isAbstract).1

theorem SelectedNode.issued
    (h : SelectedNode env (fun _ => KeepsIssued) scope nested existing names node after)
    (hexisting : ∀ table, existing = some table → table.Issued names) : node.Issued after := by
  cases h with
  | nothing => exact .of_isFixed trivial
  | leaf hfield hleaf => exact compileLeaf_issued hleaf
  | @again table children _ isAbstract hfound hfill =>
      have hold := Table.issued_iff.mp (hexisting table hfound)
      exact Node.issued_table.mpr (Table.issued_iff.mpr (hfill.issued hold))
  | new isAbstract hnone hfield hnew hfill =>
      exact Node.issued_table.mpr (KeepsIssued.of_new hfield hnew hfill isAbstract).2

end Selected

theorem keepsIssued_selecting (env : Environment) : Selecting env fun _ => KeepsIssued where
  refl junction names children := ⟨.refl names, id⟩
  trans hfirst hsecond :=
    ⟨hfirst.grows.trans hsecond.grows, fun h => hsecond.issued (hfirst.issued h)⟩
  field {scope names after children bucket name node} hnode := by
    refine ⟨hnode.grows, fun hchildren other hother => ?_⟩
    rcases mem_putField hother with rfl | hold
    · refine hnode.issued fun table hexisting => Node.issued_table.mp (hchildren _ ?_)
      exact bucket_subset children bucket (existingTable_mem hexisting)
    · exact (hchildren other hold).grows hnode.grows

/-- A plan is a tree whose dependencies carry aliases that one namespace issued, merged in that
namespace. -/
theorem Compiled.eq_prune_issued {env : Environment} {minify : Bool} {root : Table Node}
    (hroot : Compiled env minify root) :
    ∃ (table : Table Node) (names : Namespace), table.Issued names ∧ names.minify = minify ∧
      root = (table.prune names).1 := by
  obtain ⟨scope, table, between, hnode, rfl⟩ :=
    hroot.eq_prune_selected (keepsIssued_selecting env)
  have hissued := hnode.issued fun found hfound => by cases hfound
  exact ⟨table, between, Node.issued_table.mp hissued, hnode.grows.minify, rfl⟩

end JoinPlan.Plan
