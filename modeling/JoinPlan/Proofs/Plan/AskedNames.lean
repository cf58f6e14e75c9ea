import JoinPlan.Proofs.Plan.Merging

/-!
# The names that columns are asked for by

Every column that a plan fetches has the alias that the namespace of its request gave to one name:
a key, a dependency and a column of a table's own are asked for by their names, the column or the
expression of a field by the field's name, followed by the type it is selected for.  A field put
among the children of a table brings columns that were asked for on the way, and merging
dependencies asks for columns again that have their aliases.
-/

namespace JoinPlan.Plan

/-- The names that the columns a child fetches were asked for by, with the aliases given. -/
def Node.asked (bucket : Option String) : Node → List (String × String)
  | .column node => [(leafName bucket node.fieldName, node.aliasName)]
  | .expression _ fieldName aliasName _ _ => [(leafName bucket fieldName, aliasName)]
  | node => node.columnEntries

theorem Node.asked_none (node : Node) : node.asked none = node.columnEntries := by
  cases node <;> rfl

/-- All children, each with the concrete type it is selected for. -/
def Children.tagged (children : Children) : List (Option String × Node) :=
  children.shared.map (Prod.mk none) ++
    children.typed.flatMap fun bucket => bucket.2.map (Prod.mk (some bucket.1))

def Table.tagged (table : Table Node) : List (Option String × Node) :=
  Children.tagged ⟨table.shared, table.typed⟩

section Tagged

variable {children : Children} {node : Node}

theorem Children.mem_tagged_none : (none, node) ∈ children.tagged ↔ node ∈ children.shared := by
  simp [tagged]

theorem Children.mem_tagged_some {type : String} :
    (some type, node) ∈ children.tagged ↔
      ∃ nodes, (type, nodes) ∈ children.typed ∧ node ∈ nodes := by
  simp [tagged]

theorem Children.mem_tagged_of_mem_bucket {bucket : Option String}
    (h : node ∈ children.bucket bucket) : (bucket, node) ∈ children.tagged := by
  cases bucket with
  | none => exact mem_tagged_none.mpr h
  | some type => exact mem_tagged_some.mpr (exists_typed_of_mem_bucket h)

theorem Table.mem_children_iff {table : Table Node} :
    node ∈ table.children ↔ ∃ bucket, (bucket, node) ∈ table.tagged := by
  constructor
  · intro h
    rcases List.mem_append.mp h with hshared | htyped
    · exact ⟨none, Children.mem_tagged_none.mpr hshared⟩
    · obtain ⟨bucket, hbucket, hnode⟩ := List.mem_flatMap.mp htyped
      exact ⟨some bucket.1, Children.mem_tagged_some.mpr ⟨bucket.2, hbucket, hnode⟩⟩
  · rintro ⟨bucket, h⟩
    cases bucket with
    | none => exact List.mem_append_left _ (Children.mem_tagged_none.mp h)
    | some type =>
        obtain ⟨nodes, hbucket, hnode⟩ := Children.mem_tagged_some.mp h
        exact List.mem_append_right _ (List.mem_flatMap.mpr ⟨_, hbucket, hnode⟩)

/-- Putting the node of a field adds a child of its bucket, or puts it in the place of one. -/
theorem mem_tagged_putField {bucket : Option String} {name : String}
    {child : Option String × Node} (h : child ∈ (putField children bucket name node).tagged) :
    child = (bucket, node) ∨ child ∈ children.tagged := by
  obtain ⟨tag, other⟩ := child
  rw [putField_eq] at h
  cases bucket with
  | none =>
      cases tag with
      | none =>
          rcases mem_putIn (Children.mem_tagged_none.mp h) with rfl | hold
          · exact Or.inl rfl
          · exact Or.inr (Children.mem_tagged_none.mpr hold)
      | some type =>
          obtain ⟨nodes, hnodes, hother⟩ := Children.mem_tagged_some.mp h
          exact Or.inr (Children.mem_tagged_some.mpr ⟨nodes, hnodes, hother⟩)
  | some type =>
      cases tag with
      | none =>
          have hshared := Children.mem_tagged_none.mp h
          exact Or.inr (Children.mem_tagged_none.mpr hshared)
      | some tag =>
          obtain ⟨nodes, hnodes, hother⟩ := Children.mem_tagged_some.mp h
          rcases Assoc.mem_of_mem_put hnodes with heq | hold
          · obtain ⟨rfl, rfl⟩ := Prod.mk.inj heq
            rcases mem_putIn hother with rfl | hthere
            · exact Or.inl rfl
            · exact Or.inr (Children.mem_tagged_of_mem_bucket hthere)
          · exact Or.inr (Children.mem_tagged_some.mpr ⟨nodes, hold, hother⟩)

end Tagged

/-! ### Aliases that were given -/

/-- Whether the columns that a table's children fetch have the aliases their names were given. -/
def Table.Asked (names : Namespace) (table : Table Node) : Prop :=
  ∀ child ∈ table.tagged, ∀ entry ∈ child.2.asked child.1, names.Gives entry

/-- A child whose columns, and those of the tables in it, have the aliases their names were
given. -/
structure Node.AskedBelow (names : Namespace) (bucket : Option String) (node : Node) : Prop where
  own : ∀ entry ∈ node.asked bucket, names.Gives entry
  below : ∀ table ∈ node.subtree, table.Asked names

section Grows

variable {names after : Namespace}

theorem Node.AskedBelow.grows {bucket : Option String} {node : Node}
    (h : node.AskedBelow names bucket) (hgrows : names.Grows after) :
    node.AskedBelow after bucket where
  own entry hentry := (h.own entry hentry).grows hgrows
  below table htable child hchild entry hentry :=
    (h.below table htable child hchild entry hentry).grows hgrows

theorem Node.AskedBelow.of_leaf {bucket : Option String} {node : Node} (hleaf : node.table? = none)
    (h : ∀ entry ∈ node.asked bucket, names.Gives entry) : node.AskedBelow names bucket :=
  ⟨h, by simp [Node.subtree_of_leaf hleaf]⟩

/-- All tables from one on are asked for exactly if its children are. -/
theorem Table.asked_subtree_iff {table : Table Node} :
    (∀ inner ∈ table.subtree, inner.Asked names) ↔
      ∀ child ∈ table.tagged, child.2.AskedBelow names child.1 := by
  constructor
  · intro h child hchild
    refine ⟨h table table.mem_subtree_self child hchild, fun inner hinner => h inner ?_⟩
    exact mem_subtree_of_mem_children (mem_children_iff.mpr ⟨child.1, hchild⟩) hinner
  · intro h inner hinner
    rw [subtree_eq, List.mem_cons] at hinner
    rcases hinner with rfl | hbelow
    · exact fun child hchild => (h child hchild).own
    · obtain ⟨node, hnode, hmem⟩ := List.mem_flatMap.mp hbelow
      obtain ⟨bucket, hchild⟩ := mem_children_iff.mp hnode
      exact (h _ hchild).below inner hmem

end Grows

/-- Selecting on a table hands out more aliases, and the columns of its children have theirs. -/
structure KeepsAsked (names : Namespace) (children : Children) (after : Namespace)
    (filled : Children) : Prop where
  grows : names.Grows after
  asked : (∀ child ∈ children.tagged, child.2.AskedBelow names child.1) →
    ∀ child ∈ filled.tagged, child.2.AskedBelow after child.1

section Field

variable {env : Environment} {scope : Scope} {nested : Bool} {names after : Namespace}

theorem compileLeaf_asked {bucket : Option String} {name : String} {args : Arguments}
    {field : ScopedField} {node : Node}
    (h : compileLeaf scope bucket name args field names = .ok (node, after)) :
    node.AskedBelow after bucket := by
  refine .of_leaf ((compileLeaf_leaves h).1 _ List.mem_cons_self) ?_
  cases compileLeaf_eq_ok h with
  | expression | column => simpa [Node.asked] using names.gives_column _
  | dependencies hasks =>
      exact fun entry hentry => hasks.gives entry (Assoc.mem_of_mem_distinct hentry)
  | nothing => simp [Node.asked, Node.columnEntries]

theorem askedBelow_of_named {nodes : List Node} (hleaves : ∀ node ∈ nodes, node.table? = none)
    (h : Named names nodes) : ∀ node ∈ nodes, node.AskedBelow names none := by
  intro node hnode
  refine .of_leaf (hleaves node hnode) ?_
  rw [Node.asked_none]
  exact h node hnode

/-- A new table with its selections filled in. -/
theorem askedBelow_of_new {field : TableField} (hfield : field.IsBacked env scope nested)
    {table : Table Node} {between : Namespace}
    (hnew : newTable env field names = .ok (table, between)) {children : Children}
    (hfill : KeepsAsked between ⟨table.shared, table.typed⟩ after children) (isAbstract : Bool)
    (bucket : Option String) :
    names.Grows after ∧
      (Node.table ⟨{ table.info with isAbstract }, children.shared ++ lastColumns table.info none,
        children.typed⟩).AskedBelow after bucket := by
  have hsetup := newTable_isSetUp hfield hnew
  obtain ⟨hgrows, hnamed⟩ := newTable_addsNamed hnew
  have hleaves := hsetup.leaves
  rw [List.forall_mem_append] at hleaves
  rw [Named, List.forall_mem_append] at hnamed
  have hkeys : Named after table.info.keyColumns := Named.grows hnamed.2 hfill.grows
  have hopened : ∀ child ∈ Children.tagged ⟨table.shared, table.typed⟩,
      child.2.AskedBelow between child.1 := by
    rintro ⟨tag, node⟩ hchild
    cases tag with
    | none => exact askedBelow_of_named hleaves.1 hnamed.1 node (Children.mem_tagged_none.mp hchild)
    | some type =>
        rw [hsetup.typed] at hchild
        obtain ⟨nodes, hnodes, -⟩ := Children.mem_tagged_some.mp hchild
        cases hnodes
  have hfilled := hfill.asked hopened
  refine ⟨hgrows.trans hfill.grows, ?_, Table.asked_subtree_iff.mpr ?_⟩
  · have hown : Named after [.table ⟨{ table.info with isAbstract },
        children.shared ++ lastColumns table.info none, children.typed⟩] := named_table hkeys
    exact hown _ (List.mem_singleton_self _)
  · rintro ⟨tag, node⟩ hchild
    cases tag with
    | none =>
        rcases List.mem_append.mp (Children.mem_tagged_none.mp hchild) with hshared | hlast
        · exact hfilled (none, node) (Children.mem_tagged_none.mpr hshared)
        · exact askedBelow_of_named hleaves.2 (named_lastColumns hkeys) node hlast
    | some type =>
        obtain ⟨nodes, hnodes, hnode⟩ := Children.mem_tagged_some.mp hchild
        exact hfilled (some type, node) (Children.mem_tagged_some.mpr ⟨nodes, hnodes, hnode⟩)

/-- A table that is there with more selections filled in. -/
theorem askedBelow_of_again {table : Table Node} {bucket : Option String}
    (h : (Node.table table).AskedBelow names bucket) {children : Children}
    (hfill : KeepsAsked names ⟨table.shared, table.typed⟩ after children) (isAbstract : Bool) :
    (Node.table ⟨{ table.info with isAbstract }, children.shared, children.typed⟩).AskedBelow
      after bucket := by
  constructor
  · exact fun entry hentry => (h.own entry hentry).grows hfill.grows
  · exact Table.asked_subtree_iff.mpr (hfill.asked (Table.asked_subtree_iff.mp h.below))

theorem keepsAsked_putField {children : Children} {bucket : Option String} {name : String}
    {node : Node} (hgrows : names.Grows after)
    (hnode : (∀ child ∈ children.tagged, child.2.AskedBelow names child.1) →
      node.AskedBelow after bucket) :
    KeepsAsked names children after (putField children bucket name node) := by
  refine ⟨hgrows, fun hchildren child hchild => ?_⟩
  rcases mem_tagged_putField hchild with rfl | hold
  · exact hnode hchildren
  · exact (hchildren child hold).grows hgrows

theorem compileTable_keepsAsked {field : TableField} {type : TypeDefinition}
    {action : Scope → Children → Compile Children} {children : Children} {bucket : Option String}
    {name : String} {node : Node} (hfield : field.IsBacked env scope true)
    (haction : ∀ scope, Fills KeepsAsked (action scope))
    (h : compileTable env field type (existingTable (children.bucket bucket) name) action names =
      .ok (node, after)) :
    KeepsAsked names children after (putField children bucket name node) := by
  have hnode : TableNode env (fun _ => KeepsAsked) field
      (existingTable (children.bucket bucket) name) names node after :=
    compileTable_eq_ok haction h
  cases hnode with
  | new hexisting hnew hfill =>
      obtain ⟨hgrows, hasked⟩ := askedBelow_of_new hfield hnew hfill field.kind.isAbstract bucket
      exact keepsAsked_putField hgrows fun _ => hasked
  | again hexisting hfill =>
      have hmem := Children.mem_tagged_of_mem_bucket (existingTable_mem hexisting)
      exact keepsAsked_putField hfill.grows fun hchildren =>
        askedBelow_of_again (hchildren _ hmem) hfill field.kind.isAbstract

end Field

theorem keepsAsked_fieldByField (env : Environment) (fragments : Fragments) :
    FieldByField env fragments fun _ => KeepsAsked where
  refl junction names children := ⟨.refl names, id⟩
  trans hfirst hsecond :=
    ⟨hfirst.grows.trans hsecond.grows, fun h => hsecond.asked (hfirst.asked h)⟩
  field haction hnode := by
    rcases compileField_eq_ok hnode with ⟨rfl, rfl⟩ | ⟨field, hfield, hleaf⟩ |
      ⟨field, type, place, -, hfield, htable⟩
    · exact keepsAsked_putField (.refl _) fun _ =>
        .of_leaf rfl (by simp [Node.asked, Node.columnEntries])
    · exact keepsAsked_putField (compileLeaf_grows hleaf) fun _ => compileLeaf_asked hleaf
    · exact compileTable_keepsAsked hfield (haction place) htable

/-! ### Merged dependencies -/

section Merge

variable {names : Namespace}

theorem Node.needs_asked {node : Node} {bucket : Option String}
    {need : Option String × String × String} (h : need ∈ node.needs) :
    need.2 ∈ node.asked bucket := by
  cases node with
  | dependencies columns owner =>
      obtain ⟨entry, hentry, rfl⟩ := List.mem_map.mp h
      exact hentry
  | table | column | composite | expression | nothing => cases h

theorem Table.issued_of_asked {table : Table Node}
    (h : ∀ inner ∈ table.subtree, inner.Asked names) : table.Issued names := by
  intro inner hinner need hneed
  obtain ⟨node, hnode, hmem⟩ := List.mem_flatMap.mp hneed
  obtain ⟨bucket, hchild⟩ := Table.mem_children_iff.mp hnode
  exact h inner hinner _ hchild _ (Node.needs_asked hmem)

theorem Node.asked_prune (bucket : Option String) (node : Node) (names : Namespace) :
    (node.prune names).1.asked bucket = node.asked bucket := by
  cases node with
  | table table => exact (Node.table table).columnEntries_prune names
  | column | dependencies | composite | expression | nothing => rfl

theorem gives_mergedIn {nodes : List Node} {bucket : Option String}
    (h : ∀ node ∈ nodes, ∀ entry ∈ node.asked bucket, names.Gives entry) :
    ∀ node ∈ mergedIn names nodes, ∀ entry ∈ node.asked bucket, names.Gives entry := by
  have hissued : NeedsIssued names nodes := by
    intro need hneed
    obtain ⟨node, hnode, hmem⟩ := List.mem_flatMap.mp hneed
    exact h node hnode _ (Node.needs_asked hmem)
  intro node hnode entry hentry
  rcases List.mem_append.mp hnode with hkept | hgiven
  · obtain ⟨old, hold, rfl⟩ := List.mem_map.mp hkept
    rw [Node.asked_prune] at hentry
    exact h old (List.mem_of_mem_filter hold) entry hentry
  · obtain ⟨needed, hneeded, rfl⟩ := List.mem_map.mp hgiven
    obtain ⟨name, hname, rfl⟩ := List.mem_map.mp hentry
    have hfound := Assoc.get?_eq_some_of_mem (nodup_keys_neededColumns nodes) hneeded
    obtain ⟨aliasName, hneed⟩ := mem_get?_neededColumns.mp (by rw [hfound]; exact hname)
    exact ⟨(hissued _ hneed).1, rfl⟩

theorem Table.Asked.merged {table : Table Node} (h : table.Asked names) :
    (table.merged names).Asked names := by
  rintro ⟨tag, node⟩ hchild
  cases tag with
  | none =>
      refine gives_mergedIn (fun old hold => ?_) node (Children.mem_tagged_none.mp hchild)
      exact h (none, old) (Children.mem_tagged_none.mpr hold)
  | some type =>
      obtain ⟨nodes, hnodes, hnode⟩ := Children.mem_tagged_some.mp hchild
      obtain ⟨bucket, hbucket, heq⟩ := List.mem_map.mp hnodes
      obtain ⟨rfl, rfl⟩ := Prod.mk.inj heq
      refine gives_mergedIn (fun old hold => ?_) node hnode
      exact h (some bucket.1, old) (Children.mem_tagged_some.mpr ⟨bucket.2, hbucket, hold⟩)

end Merge

/-- Every column that a plan fetches has the alias its name was given by the namespace that
compiling leaves. -/
theorem Compiles.asked {env : Environment} {minify : Bool} {root : Table Node} {names : Namespace}
    (hroot : Compiles env minify root names) :
    (Namespace.fresh minify).Grows names ∧ ∀ table ∈ root.subtree, table.Asked names := by
  obtain ⟨scope, field, table, between, hfield, hnode, hpruned⟩ :=
    hroot.eq_prune_tableNode (keepsAsked_fieldByField env)
  have hasked : (Namespace.fresh minify).Grows between ∧
      (Node.table table).AskedBelow between none := by
    cases hnode with
    | again hexisting => cases hexisting
    | new _ hnew hfill => exact askedBelow_of_new hfield hnew hfill field.kind.isAbstract none
  -- columns that merging asks for have their aliases, so the namespace stays as it is
  have hissued := Table.issued_of_asked hasked.2.below
  rw [Table.prune_of_issued hissued] at hpruned
  obtain ⟨rfl, rfl⟩ := Prod.mk.inj hpruned
  refine ⟨hasked.1, fun inner hinner => ?_⟩
  rw [Table.subtree_merged hissued] at hinner
  obtain ⟨found, hfound, rfl⟩ := List.mem_map.mp hinner
  exact (hasked.2.below found hfound).merged

theorem Compiles.minify_eq {env : Environment} {minify : Bool} {root : Table Node}
    {names : Namespace} (hroot : Compiles env minify root names) : names.minify = minify :=
  hroot.asked.1.minify

theorem Compiles.tidy {env : Environment} {minify : Bool} {root : Table Node}
    {names : Namespace} (hroot : Compiles env minify root names) : names.Tidy :=
  hroot.asked.1.tidy (Namespace.fresh_tidy minify)

end JoinPlan.Plan
