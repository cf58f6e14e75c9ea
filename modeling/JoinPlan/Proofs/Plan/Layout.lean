import JoinPlan.Proofs.Plan.KeyPlaces
import JoinPlan.Proofs.Plan.NamedColumns
import JoinPlan.Proofs.Plan.Sound

/-!
# The order of a table's children

A table is set up with columns of its own, its opening.  The fields selected on it come after
these; the key of its batches stands after what was selected first, and the merged dependencies
stand last.  Selecting a field again changes the node that is there, or adds one at the end, so
the opening and the key of a batch keep their places.
-/

namespace JoinPlan.Plan

/-- What a field selected on a table is compiled to, for a concrete type or for all. -/
inductive IsSelected (bucket : Option String) : Node → Prop
  | nothing : IsSelected bucket .nothing
  | leaf {scope : Scope} {name : String} {args : Arguments} {field : ScopedField} {node : Node}
      {names after : Namespace} (hfield : scope.field? name = some field)
      (hleaf : compileLeaf scope bucket name args field names = .ok (node, after)) :
      IsSelected bucket node
  | table (table : Table Node) : IsSelected bucket (.table table)

/-- What a table is set up with for a field it is backed by. -/
def OpensWith (env : Environment) (info : TableInfo) (opening : List Node) : Prop :=
  ∃ scope nested field names opened after, TableField.IsBacked field env scope nested ∧
    newTable env field names = .ok (opened, after) ∧
    info = { opened.info with isAbstract := info.isAbstract } ∧ opening = opened.shared

/-- Children with an opening and a last column, and selected fields around the latter. -/
structure LaidOutChildren (names : Namespace) (opening last : List Node) (children : Children) :
    Prop where
  shared : ∃ early late, children.shared = opening ++ early ++ last ++ late ∧
    ∀ node ∈ early ++ late, IsSelected none node
  named : Named names children.shared
  typed : ∀ bucket ∈ children.typed, ∀ node ∈ bucket.2, IsSelected (some bucket.1) node

/-- A table of a plan before its dependencies are merged. -/
structure Table.LaidOut (env : Environment) (names : Namespace) (table : Table Node) : Prop where
  filled : ∃ opening, OpensWith env table.info opening ∧
    LaidOutChildren names opening (lastColumns table.info none) ⟨table.shared, table.typed⟩

def LaidOutBelow (env : Environment) (names : Namespace) (nodes : List Node) : Prop :=
  ∀ node ∈ nodes, ∀ inner ∈ node.subtree, inner.LaidOut env names

section Grows

variable {env : Environment} {names after : Namespace}

theorem LaidOutChildren.grows {opening last : List Node} {children : Children}
    (h : LaidOutChildren names opening last children) (hgrows : names.Grows after) :
    LaidOutChildren after opening last children :=
  ⟨h.shared, h.named.grows hgrows, h.typed⟩

theorem Table.LaidOut.grows {table : Table Node} (h : table.LaidOut env names)
    (hgrows : names.Grows after) : table.LaidOut env after := by
  obtain ⟨opening, hopening, hfilled⟩ := h.filled
  exact ⟨opening, hopening, hfilled.grows hgrows⟩

theorem LaidOutBelow.grows {nodes : List Node} (h : LaidOutBelow env names nodes)
    (hgrows : names.Grows after) : LaidOutBelow env after nodes :=
  fun node hnode inner hinner => (h node hnode inner hinner).grows hgrows

theorem laidOutBelow_of_leaf {node : Node} (hleaf : node.table? = none) :
    ∀ inner ∈ node.subtree, inner.LaidOut env names := by
  simp [Node.subtree_of_leaf hleaf]

theorem Table.laidOut_subtree {table : Table Node} (h : table.LaidOut env names)
    (hbelow : LaidOutBelow env names table.children) :
    ∀ inner ∈ table.subtree, inner.LaidOut env names := by
  intro inner hinner
  rw [subtree_eq, List.mem_cons] at hinner
  rcases hinner with rfl | hinner
  · exact h
  · obtain ⟨node, hnode, hmem⟩ := List.mem_flatMap.mp hinner
    exact hbelow node hnode inner hmem

end Grows

/-! ### Putting the node of a field -/

section PutIn

variable {name : String} {node other : Node}

theorem mem_putIn {nodes : List Node} (h : other ∈ putIn name node nodes) :
    other = node ∨ other ∈ nodes := by
  induction nodes with
  | nil => exact Or.inl (List.mem_singleton.mp h)
  | cons first rest ih =>
      rw [putIn_cons] at h
      split at h
      · exact (List.mem_cons.mp h).imp_right (List.mem_cons_of_mem _)
      · rcases List.mem_cons.mp h with rfl | hrest
        · exact Or.inr List.mem_cons_self
        · exact (ih hrest).imp_right (List.mem_cons_of_mem _)

/-- Columns before other nodes keep their places. -/
theorem putIn_append_of_leaves {before : List Node} (hleaves : ∀ node ∈ before, node.table? = none)
    (nodes : List Node) : putIn name node (before ++ nodes) = before ++ putIn name node nodes := by
  induction before with
  | nil => rfl
  | cons first rest ih =>
      rw [List.forall_mem_cons] at hleaves
      have hfirst : isTableOf name first = false := by simp [isTableOf, hleaves.1]
      rw [List.cons_append, putIn_cons, hfirst, ih hleaves.2]
      rfl

/-- A node put among two lists of nodes is put among one of them. -/
theorem putIn_append_cases (first second : List Node) :
    (∃ changed, putIn name node (first ++ second) = changed ++ second ∧
      ∀ other ∈ changed, other = node ∨ other ∈ first) ∨
    putIn name node (first ++ second) = first ++ putIn name node second := by
  induction first with
  | nil => exact Or.inr rfl
  | cons head rest ih =>
      rw [List.cons_append, putIn_cons]
      split
      · refine Or.inl ⟨node :: rest, rfl, ?_⟩
        simp +contextual
      · rcases ih with ⟨changed, heq, hmem⟩ | heq
        · refine Or.inl ⟨head :: changed, by rw [heq, List.cons_append], ?_⟩
          rw [List.forall_mem_cons]
          exact ⟨Or.inr List.mem_cons_self,
            fun other hother => (hmem other hother).imp_right (List.mem_cons_of_mem _)⟩
        · exact Or.inr (by rw [heq, List.cons_append])

end PutIn

theorem exists_typed_of_mem_bucket {children : Children} {type : String} {node : Node}
    (h : node ∈ children.bucket (some type)) :
    ∃ nodes, (type, nodes) ∈ children.typed ∧ node ∈ nodes := by
  rw [Children.bucket] at h
  cases hnodes : Assoc.get? type children.typed with
  | none => simp [hnodes] at h
  | some nodes =>
      rw [hnodes] at h
      exact ⟨nodes, Assoc.mem_of_get?_eq_some hnodes, h⟩

section Put

variable {names : Namespace} {opening last : List Node} {children : Children}

/-- The children stay laid out when the node of a field is put among them. -/
theorem LaidOutChildren.putField (h : LaidOutChildren names opening last children)
    (hleaves : ∀ node ∈ opening ++ last, node.table? = none) {bucket : Option String}
    {node : Node} (hnode : IsSelected bucket node)
    (hnamed : bucket = none → Named names [node]) (name : String) :
    LaidOutChildren names opening last (putField children bucket name node) := by
  rw [List.forall_mem_append] at hleaves
  rw [putField_eq]
  cases bucket with
  | some type =>
      refine ⟨h.shared, h.named, fun bucket hbucket other hother => ?_⟩
      rcases Assoc.mem_of_mem_put hbucket with rfl | hold
      · rcases mem_putIn hother with rfl | hother
        · exact hnode
        · obtain ⟨nodes, hnodes, hmem⟩ := exists_typed_of_mem_bucket hother
          exact h.typed _ hnodes other hmem
      · exact h.typed bucket hold other hother
  | none =>
      obtain ⟨early, late, hshared, hselected⟩ := h.shared
      refine ⟨?_, fun other hother => ?_, h.typed⟩
      · have hput : ∀ nodes : List Node, (∀ other ∈ nodes, IsSelected none other) →
            ∀ other ∈ putIn name node nodes, IsSelected none other := by
          intro nodes hnodes other hother
          rcases mem_putIn hother with rfl | hold
          · exact hnode
          · exact hnodes other hold
        rw [List.forall_mem_append] at hselected
        change ∃ early late, putIn name node children.shared = _ ∧ _
        rw [hshared, List.append_assoc, List.append_assoc, putIn_append_of_leaves hleaves.1]
        rcases putIn_append_cases early (last ++ late) with ⟨changed, heq, hmem⟩ | heq
        · refine ⟨changed, late, by rw [heq]; simp, ?_⟩
          rw [List.forall_mem_append]
          refine ⟨fun other hother => ?_, hselected.2⟩
          rcases hmem other hother with rfl | hold
          · exact hnode
          · exact hselected.1 other hold
        · refine ⟨early, putIn name node late, ?_, ?_⟩
          · rw [heq, putIn_append_of_leaves hleaves.2]
            simp
          · rw [List.forall_mem_append]
            exact ⟨hselected.1, hput late hselected.2⟩
      · rcases mem_putIn hother with rfl | hold
        · exact hnamed rfl other (List.mem_singleton_self _)
        · exact h.named other hold

end Put

/-! ### Compiling a field -/

theorem Node.IsFixed.table?_eq {node : Node} (h : node.IsFixed) : node.table? = none := by
  cases node with
  | table => exact h.elim
  | column | dependencies | composite | expression | nothing => rfl

theorem compileLeaf_addsNamed {scope : Scope} {name : String} {args : Arguments}
    {field : ScopedField} {names after : Namespace} {node : Node}
    (h : compileLeaf scope none name args field names = .ok (node, after)) :
    AddsNamed names [node] after := by
  cases compileLeaf_eq_ok h with
  | expression | column => exact .column names rfl
  | dependencies hasks =>
      refine ⟨hasks.grows, fun node hnode entry hentry => hasks.gives entry ?_⟩
      rw [List.mem_singleton.mp hnode, Node.columnEntries] at hentry
      exact Assoc.mem_of_mem_distinct hentry
  | nothing => exact ⟨.refl _, by simp [Named, Node.columnEntries]⟩

theorem compileLeaf_grows {scope : Scope} {bucket : Option String} {name : String}
    {args : Arguments} {field : ScopedField} {names after : Namespace} {node : Node}
    (h : compileLeaf scope bucket name args field names = .ok (node, after)) :
    names.Grows after := by
  obtain ⟨-, asked, hasks, -⟩ := compileLeaf_leaves h
  exact hasks.grows

/-- Selecting on a table hands out more aliases, and keeps its children laid out. -/
structure KeepsLayout (env : Environment) (names : Namespace) (children : Children)
    (after : Namespace) (filled : Children) : Prop where
  grows : names.Grows after
  filled {opening last : List Node} (hleaves : ∀ node ∈ opening ++ last, node.table? = none)
    (h : LaidOutChildren names opening last children)
    (hbelow : LaidOutBelow env names children.nodes) :
    LaidOutChildren after opening last filled ∧ LaidOutBelow env after filled.nodes

section Table

variable {env : Environment} {scope : Scope} {nested : Bool} {field : TableField}
  {names after : Namespace}

theorem IsSetUp.leaves {table : Table Node} (h : IsSetUp env field table) :
    ∀ node ∈ table.shared ++ lastColumns table.info none, node.table? = none :=
  fun node hnode => (h.nodes node hnode).1.table?_eq

theorem named_lastColumns {info : TableInfo} (h : Named names info.keyColumns) :
    Named names (lastColumns info none) := by
  intro node hnode
  apply h
  cases hkeys : info.batchKeys? with
  | none => simp [lastColumns, hkeys] at hnode
  | some keys =>
      simp only [lastColumns, hkeys, List.mem_singleton] at hnode
      simp [TableInfo.keyColumns, hkeys, hnode]

theorem named_table {table : Table Node} (h : Named names table.info.keyColumns) :
    Named names [.table table] := by
  intro node hnode entry hentry
  rw [List.mem_singleton.mp hnode, Node.columnEntries] at hentry
  cases hkeys : table.info.batchKeys? with
  | none => simp [hkeys] at hentry
  | some keys =>
      rw [hkeys] at hentry
      apply h (.column keys.2)
      · simp [TableInfo.keyColumns, hkeys]
      · exact hentry

/-- A new table with its selections filled in. -/
theorem laidOut_of_new (hfield : field.IsBacked env scope nested) {table : Table Node}
    {between : Namespace} (hnew : newTable env field names = .ok (table, between))
    {children : Children}
    (hfill : KeepsLayout env between ⟨table.shared, table.typed⟩ after children)
    (isAbstract : Bool) {filled : Table Node}
    (hfilled : filled = ⟨{ table.info with isAbstract },
      children.shared ++ lastColumns table.info none, children.typed⟩) :
    names.Grows after ∧ Named after [.table filled] ∧
      ∀ inner ∈ filled.subtree, inner.LaidOut env after := by
  have hsetup := newTable_isSetUp hfield hnew
  obtain ⟨hgrows, hnamed⟩ := newTable_addsNamed hnew
  have hleaves := hsetup.leaves
  rw [List.forall_mem_append] at hleaves
  rw [Named, List.forall_mem_append] at hnamed
  have hkeys : Named after table.info.keyColumns := Named.grows hnamed.2 hfill.grows
  have hempty : LaidOutChildren between table.shared [] ⟨table.shared, table.typed⟩ :=
    ⟨⟨[], [], by simp, by simp⟩, hnamed.1, by simp [hsetup.typed]⟩
  have hnothing : LaidOutBelow env between (Children.nodes ⟨table.shared, table.typed⟩) := by
    intro node hnode
    apply laidOutBelow_of_leaf
    rw [Children.nodes, hsetup.typed, List.flatMap_nil, List.append_nil] at hnode
    exact hleaves.1 node hnode
  obtain ⟨hchildren, hbelow⟩ := hfill.filled (by simpa using hleaves.1) hempty hnothing
  refine ⟨hgrows.trans hfill.grows, hfilled ▸ named_table hkeys, ?_⟩
  apply Table.laidOut_subtree
  · refine ⟨table.shared, ⟨scope, nested, field, names, table, between, hfield, hnew, ?_, rfl⟩, ?_⟩
    · rw [hfilled]
    · obtain ⟨early, late, hshared, hselected⟩ := hchildren.shared
      rw [hfilled]
      refine ⟨⟨early ++ late, [], ?_, ?_⟩, ?_, hchildren.typed⟩
      · change children.shared ++ lastColumns table.info none = _
        rw [hshared]
        simp only [List.append_nil, List.append_assoc]
        rfl
      · simpa using hselected
      · exact hchildren.named.append (named_lastColumns hkeys)
  · intro node hnode
    rw [hfilled, Table.children, List.append_assoc, List.mem_append, List.mem_append] at hnode
    rcases hnode with hshared | hlast | htyped
    · exact hbelow node (List.mem_append_left _ hshared)
    · exact laidOutBelow_of_leaf (hleaves.2 node hlast)
    · exact hbelow node (List.mem_append_right _ htyped)

/-- A table that is there with more selections filled in. -/
theorem laidOut_of_again {table : Table Node}
    (hlaid : ∀ inner ∈ table.subtree, inner.LaidOut env names) {children : Children}
    (hfill : KeepsLayout env names ⟨table.shared, table.typed⟩ after children)
    (isAbstract : Bool) {filled : Table Node}
    (hfilled : filled = ⟨{ table.info with isAbstract }, children.shared, children.typed⟩) :
    ∀ inner ∈ filled.subtree, inner.LaidOut env after := by
  obtain ⟨opening, hopens, hchildren⟩ := (hlaid table table.mem_subtree_self).filled
  obtain ⟨scope, nested, field, start, opened, between, hfield, hnew, hinfo, rfl⟩ := hopens
  have hleaves : ∀ node ∈ opened.shared ++ lastColumns table.info none, node.table? = none := by
    rw [hinfo]
    exact (newTable_isSetUp hfield hnew).leaves
  have hlow : LaidOutBelow env names (Children.nodes ⟨table.shared, table.typed⟩) :=
    fun node hnode inner hinner => hlaid inner (Table.mem_subtree_of_mem_children hnode hinner)
  obtain ⟨hkept, hbelow⟩ := hfill.filled hleaves hchildren hlow
  apply Table.laidOut_subtree
  · refine ⟨opened.shared, ⟨scope, nested, field, start, opened, between, hfield, hnew, ?_, rfl⟩,
      ?_⟩
    · rw [hfilled, hinfo]
    · rw [hfilled]
      exact hkept
  · rw [hfilled]
    exact hbelow

end Table

/-- The node of a field put among the children keeps them laid out, if it is laid out itself. -/
theorem keepsLayout_putField {env : Environment} {names after : Namespace} {children : Children}
    {bucket : Option String} {name : String} {node : Node} (hgrows : names.Grows after)
    (hselected : IsSelected bucket node)
    (hnode : ∀ opening last, LaidOutChildren names opening last children →
      LaidOutBelow env names children.nodes →
        (bucket = none → Named after [node]) ∧ ∀ inner ∈ node.subtree, inner.LaidOut env after) :
    KeepsLayout env names children after (putField children bucket name node) := by
  refine ⟨hgrows, fun {opening last} hleaves h hbelow => ?_⟩
  obtain ⟨hnamed, hlaid⟩ := hnode opening last h hbelow
  refine ⟨(h.grows hgrows).putField hleaves hselected hnamed name, fun other hother => ?_⟩
  rcases mem_putField hother with rfl | hold
  · exact hlaid
  · exact hbelow.grows hgrows other hold

theorem compileTable_keepsLayout {env : Environment} {scope : Scope} {field : TableField}
    {type : TypeDefinition} {action : Scope → Children → Compile Children} {names after : Namespace}
    {children : Children} {bucket : Option String} {name : String} {node : Node}
    (hfield : field.IsBacked env scope true)
    (haction : ∀ scope, Fills (KeepsLayout env) (action scope))
    (h : compileTable env field type (existingTable (children.bucket bucket) name) action names =
      .ok (node, after)) :
    KeepsLayout env names children after (putField children bucket name node) := by
  have hnode : TableNode env (fun _ => KeepsLayout env) field
      (existingTable (children.bucket bucket) name) names node after :=
    compileTable_eq_ok haction h
  cases hnode with
  | new hexisting hnew hfill =>
      obtain ⟨hgrows, hnamed, hlaid⟩ := laidOut_of_new hfield hnew hfill field.kind.isAbstract rfl
      exact keepsLayout_putField hgrows (.table _) fun _ _ _ _ => ⟨fun _ => hnamed, hlaid⟩
  | again hexisting hfill =>
      have hmem := existingTable_mem hexisting
      refine keepsLayout_putField hfill.grows (.table _) fun opening last hold hbelow => ⟨?_, ?_⟩
      · rintro rfl
        intro node hnode entry hentry
        obtain rfl := List.mem_singleton.mp hnode
        exact (hold.named _ hmem entry hentry).grows hfill.grows
      · have hlow := hbelow _ (bucket_subset children bucket hmem)
        exact laidOut_of_again hlow hfill field.kind.isAbstract rfl

theorem keepsLayout_fieldByField (env : Environment) (fragments : Fragments) :
    FieldByField env fragments fun _ => KeepsLayout env where
  refl junction names children := ⟨.refl names, fun _ h hbelow => ⟨h, hbelow⟩⟩
  trans hfirst hsecond := by
    refine ⟨hfirst.grows.trans hsecond.grows, fun hleaves h hbelow => ?_⟩
    obtain ⟨hinner, hinnerBelow⟩ := hfirst.filled hleaves h hbelow
    exact hsecond.filled hleaves hinner hinnerBelow
  field haction hnode := by
    rcases compileField_eq_ok hnode with ⟨rfl, rfl⟩ | ⟨field, hfield, hleaf⟩ |
      ⟨field, type, place, -, hfield, htable⟩
    · refine keepsLayout_putField (.refl _) .nothing fun _ _ _ _ => ⟨fun _ => ?_, ?_⟩
      · simp [Named, Node.columnEntries]
      · simp [Node.subtree]
    · refine keepsLayout_putField (compileLeaf_grows hleaf) (.leaf hfield hleaf)
        fun _ _ _ _ => ⟨?_, laidOutBelow_of_leaf ?_⟩
      · rintro rfl
        exact (compileLeaf_addsNamed hleaf).named
      · exact (compileLeaf_leaves hleaf).1 _ List.mem_cons_self
    · exact compileTable_keepsLayout hfield (haction place) htable

end JoinPlan.Plan
