import JoinPlan.Proofs.Plan.SelectList
import JoinPlan.Proofs.Shape

/-!
# A shape names the columns of its statement

The shape of a table and the statement that fetches it walk the same tree, each in
an order of its own.  Every column the shape names is an output alias of the
statement, and every output alias is named by the shape, unless a property of one
child takes the place of another's.
-/

namespace JoinPlan

namespace Plan

open Sql

theorem nodesProperties_eq_flatMap (path : List String) (type : Option String)
    (nodes : List Node) :
    nodesProperties path type nodes = nodes.flatMap (Node.properties path type) := by
  induction nodes with
  | nil => rfl
  | cons node rest ih => rw [nodesProperties, ih, List.flatMap_cons]

theorem bucketsProperties_eq_flatMap (path : List String) (buckets : List (String × List Node)) :
    bucketsProperties path buckets =
      buckets.flatMap fun bucket => bucket.2.flatMap (Node.properties path (some bucket.1)) := by
  induction buckets with
  | nil => rfl
  | cons bucket rest ih =>
      rw [bucketsProperties, ih, List.flatMap_cons, bucketProperties, nodesProperties_eq_flatMap]

namespace Table

/-- The properties the children of a table insert, one after the other. -/
def insertedProperties (path : List String) (table : Table Node) : List (String × Property) :=
  nodesProperties path none table.shared ++ bucketsProperties path table.typed

theorem properties_eq_distinct (path : List String) (table : Table Node) :
    table.properties path = Assoc.distinct (table.insertedProperties path) := by
  cases table
  rfl

theorem exists_child_of_mem_inserted {path : List String} {table : Table Node}
    {entry : String × Property} (h : entry ∈ table.insertedProperties path) :
    ∃ child ∈ table.children, ∃ type, entry ∈ child.properties path type := by
  rw [insertedProperties, nodesProperties_eq_flatMap, bucketsProperties_eq_flatMap,
    List.mem_append, List.mem_flatMap, List.mem_flatMap] at h
  rcases h with ⟨child, hchild, hentry⟩ | ⟨bucket, hbucket, hentry⟩
  · exact ⟨child, List.mem_append_left _ hchild, none, hentry⟩
  · obtain ⟨child, hchild, hentry⟩ := List.mem_flatMap.mp hentry
    exact ⟨child, List.mem_append_right _ (List.mem_flatMap.mpr ⟨bucket, hbucket, hchild⟩),
      some bucket.1, hentry⟩

theorem exists_type_of_mem_children (path : List String) {table : Table Node} {child : Node}
    (h : child ∈ table.children) :
    ∃ type, ∀ entry ∈ child.properties path type, entry ∈ table.insertedProperties path := by
  simp only [insertedProperties, nodesProperties_eq_flatMap, bucketsProperties_eq_flatMap]
  rcases List.mem_append.mp h with hshared | htyped
  · exact ⟨none, fun entry hentry =>
      List.mem_append_left _ (List.mem_flatMap.mpr ⟨child, hshared, hentry⟩)⟩
  · obtain ⟨bucket, hbucket, hchild⟩ := List.mem_flatMap.mp htyped
    exact ⟨some bucket.1, fun entry hentry =>
      List.mem_append_right _ (List.mem_flatMap.mpr
        ⟨bucket, hbucket, List.mem_flatMap.mpr ⟨child, hchild, hentry⟩⟩)⟩

end Table

/-- The names of properties do not depend on where their table stands. -/
theorem Node.keys_properties (path other : List String) (type : Option String) (node : Node) :
    Assoc.keys (node.properties path type) = Assoc.keys (node.properties other type) := by
  cases node with
  | table child =>
      rw [properties, properties]
      cases child.info.batchKeys? <;> rfl
  | dependencies columns owner => simp [properties, Assoc.keys]
  | column | composite | expression | nothing => rfl

theorem Table.keys_insertedProperties (path other : List String) (table : Table Node) :
    Assoc.keys (table.insertedProperties path) = Assoc.keys (table.insertedProperties other) := by
  have hnodes : ∀ (type : Option String) (nodes : List Node),
      (nodes.flatMap (Node.properties path type)).map Prod.fst =
        (nodes.flatMap (Node.properties other type)).map Prod.fst := by
    intro type nodes
    simp only [List.map_flatMap]
    exact List.flatMap_congr fun node _ => node.keys_properties path other type
  simp only [insertedProperties, nodesProperties_eq_flatMap, bucketsProperties_eq_flatMap,
    Assoc.keys, List.map_append, List.map_flatMap, hnodes _]

/-- The names under which the children of a table insert properties, each as often
as it is inserted. -/
def Table.propertyNames (table : Table Node) : List String :=
  Assoc.keys (table.insertedProperties [])

/-- In no table of a statement do two children insert a property of one name. -/
def Table.Unclashing (root : Table Node) : Prop :=
  ∀ placed ∈ root.joined [], placed.table.propertyNames.Nodup

/-! ### From the shape to the select list -/

theorem Table.exists_hasItems (ctx : StatementContext) {path : List String} {table : Table Node}
    {aliasName : String}
    (hchildren : ∀ child ∈ table.children, ∀ type,
      aliasName ∈ propertiesAliases (child.properties path type) →
        ∃ expression, child.HasItems ctx table.info.aliasName path (aliasName, expression))
    (h : aliasName ∈ propertiesAliases (table.properties path)) :
    ∃ expression, ∃ child ∈ table.children,
      child.HasItems ctx table.info.aliasName path (aliasName, expression) := by
  obtain ⟨entry, hentry, halias⟩ := mem_propertiesAliases.mp h
  rw [properties_eq_distinct] at hentry
  obtain ⟨child, hchild, type, hmem⟩ :=
    exists_child_of_mem_inserted (Assoc.mem_of_mem_distinct hentry)
  obtain ⟨expression, hitem⟩ :=
    hchildren child hchild type (mem_propertiesAliases.mpr ⟨entry, hmem, halias⟩)
  exact ⟨expression, child, hchild, hitem⟩

theorem Node.exists_hasItems (ctx : StatementContext) (node : Node) :
    ∀ {parent : String} {path : List String} {type : Option String} {aliasName : String},
      aliasName ∈ propertiesAliases (node.properties path type) →
        ∃ expression, node.HasItems ctx parent path (aliasName, expression) := by
  induction node using Node.induction with
  | table table ih =>
      intro parent path type aliasName h
      cases hkeys : table.info.batchKeys? with
      | some keys =>
          simp only [properties, hkeys, propertiesAliases, entryAliases, Property.aliases,
            List.append_nil, List.mem_singleton] at h
          exact ⟨.column parent keys.2.name, Or.inl (by simp [fetched, hkeys, placeColumn, h])⟩
      | none =>
          simp only [properties, hkeys, propertiesAliases, entryAliases, Property.aliases,
            List.append_nil] at h
          obtain ⟨expression, hitem⟩ :=
            Table.exists_hasItems ctx (fun child hchild type => ih child hchild) h
          refine ⟨expression, Or.inr ?_⟩
          rw [joined_of_not_batched hkeys]
          exact Table.exists_placed_iff.mpr hitem
  | leaf node hleaf =>
      intro parent path type aliasName h
      cases node with
      | table child => simp [table?] at hleaf
      | column | composite | expression =>
          simp only [properties, propertiesAliases, entryAliases, Property.aliases,
            List.append_nil, List.mem_singleton] at h
          exact ⟨_, Or.inl (List.mem_map.mpr
            ⟨_, List.mem_singleton.mpr rfl, Prod.ext h.symm rfl⟩)⟩
      | dependencies columns owner =>
          obtain ⟨entry, hentry, halias⟩ := mem_propertiesAliases.mp h
          obtain ⟨column, hcolumn, rfl⟩ := List.mem_map.mp hentry
          simp only [Property.aliases, List.mem_singleton] at halias
          refine ⟨.column (owner.getD parent) column.1, Or.inl ?_⟩
          simp only [fetched, List.map_map]
          exact List.mem_map.mpr ⟨column, hcolumn, by simp [placeColumn, halias]⟩
      | nothing => simp [properties, propertiesAliases] at h

/-! ### From the select list to the shape -/

theorem Table.mem_properties_aliases {path : List String} {table : Table Node}
    {aliasName : String} (hnames : table.propertyNames.Nodup) {child : Node}
    (hchild : child ∈ table.children)
    (h : ∀ type, aliasName ∈ propertiesAliases (child.properties path type)) :
    aliasName ∈ propertiesAliases (table.properties path) := by
  obtain ⟨type, hinserted⟩ := exists_type_of_mem_children path hchild
  obtain ⟨entry, hentry, halias⟩ := mem_propertiesAliases.mp (h type)
  have hdistinct : (Assoc.keys (table.insertedProperties path)).Nodup := by
    rw [keys_insertedProperties path []]
    exact hnames
  rw [properties_eq_distinct, Assoc.distinct_of_nodup hdistinct]
  exact mem_propertiesAliases.mpr ⟨entry, hinserted entry hentry, halias⟩

theorem Node.mem_aliases_of_hasItems {ctx : StatementContext} (node : Node) :
    ∀ {parent : String} {path : List String} {item : String × Expression},
      (∀ placed ∈ node.joined path, placed.table.propertyNames.Nodup) →
        node.HasItems ctx parent path item →
          ∀ type, item.1 ∈ propertiesAliases (node.properties path type) := by
  induction node using Node.induction with
  | table table ih =>
      intro parent path item hnames h type
      cases hkeys : table.info.batchKeys? with
      | some keys =>
          simp only [HasItems, fetched, hkeys, joined_of_batchKeys hkeys, List.map_cons,
            List.map_nil, List.mem_singleton, List.not_mem_nil, false_and, exists_false,
            or_false] at h
          simp [h, placeColumn, properties, hkeys, propertiesAliases, entryAliases,
            Property.aliases]
      | none =>
          simp only [HasItems, fetched, hkeys, joined_of_not_batched hkeys, List.map_nil,
            List.not_mem_nil, false_or] at h
          rw [joined_of_not_batched hkeys] at hnames
          simp only [properties, hkeys, propertiesAliases, entryAliases, Property.aliases,
            List.append_nil]
          obtain ⟨child, hchild, hitem⟩ := Table.exists_placed_iff.mp h
          rw [Table.joined_eq, List.forall_mem_cons] at hnames
          have hbelow : ∀ placed ∈ child.joined (path ++ [table.info.aliasName]),
              placed.table.propertyNames.Nodup := fun placed hplaced =>
            hnames.2 placed (List.mem_flatMap.mpr
              ⟨child, Table.mem_statementChildren.mpr hchild, hplaced⟩)
          exact Table.mem_properties_aliases hnames.1 hchild (ih child hchild hbelow hitem)
  | leaf node hleaf =>
      intro parent path item hnames h type
      cases node with
      | table child => simp [table?] at hleaf
      | column | composite | expression =>
          simp only [HasItems, joined, List.not_mem_nil, false_and, exists_false, or_false,
            fetched, List.map_cons, List.map_nil, List.mem_singleton] at h
          simp [h, placeColumn, properties, propertiesAliases, entryAliases, Property.aliases]
      | dependencies columns owner =>
          simp only [HasItems, joined, List.not_mem_nil, false_and, exists_false, or_false,
            fetched, List.map_map] at h
          obtain ⟨column, hcolumn, rfl⟩ := List.mem_map.mp h
          refine mem_propertiesAliases.mpr ⟨_, List.mem_map.mpr ⟨column, hcolumn, rfl⟩, ?_⟩
          simp [Property.aliases, placeColumn]
      | nothing => simp [HasItems, joined, fetched] at h

/-! ### Shape and statement -/

/-- Every column the shape of a table names is an output alias of the statement that
fetches the table; conversely every output alias is named, unless two children of
one table insert a property of one name.  A table there is nothing to select for has
a shape without columns. -/
theorem Table.shape_aliases_statement (root : Table Node) (ctx : StatementContext) :
    (∀ select, root.statement ctx = .ok (some select) →
      (∀ aliasName ∈ root.shape.aliases, aliasName ∈ select.list.columns.map Prod.fst) ∧
        (root.Unclashing →
          ∀ aliasName ∈ select.list.columns.map Prod.fst, aliasName ∈ root.shape.aliases)) ∧
      (root.statement ctx = .ok none → root.shape.aliases = []) := by
  have hfound : ∀ aliasName ∈ root.shape.aliases, ∃ expression, ∃ placed ∈ root.joined [],
      (aliasName, expression) ∈ placed.items ctx := by
    intro aliasName h
    obtain ⟨expression, hitem⟩ :=
      exists_hasItems ctx (fun child _ type => child.exists_hasItems ctx) h
    exact ⟨expression, exists_placed_iff.mpr hitem⟩
  refine ⟨fun select hselect => ⟨?_, ?_⟩, ?_⟩
  · intro aliasName h
    obtain ⟨expression, placed, hplaced, hitem⟩ := hfound aliasName h
    obtain ⟨kept, hkept, halias, -⟩ := exists_mem_statement_columns hselect hplaced hitem
    exact List.mem_map.mpr ⟨kept, hkept, halias⟩
  · intro hnames aliasName h
    obtain ⟨item, hitem, rfl⟩ := List.mem_map.mp h
    obtain ⟨child, hchild, hhas⟩ :=
      exists_placed_iff.mp (mem_statement_columns hselect hitem)
    rw [Unclashing, joined_eq, List.forall_mem_cons] at hnames
    have hbelow : ∀ placed ∈ child.joined [root.info.aliasName],
        placed.table.propertyNames.Nodup := fun placed hplaced =>
      hnames.2 placed (List.mem_flatMap.mpr
        ⟨child, mem_statementChildren.mpr hchild, hplaced⟩)
    exact mem_properties_aliases hnames.1 hchild
      (child.mem_aliases_of_hasItems hbelow hhas)
  · intro hnone
    rw [List.eq_nil_iff_forall_not_mem]
    intro aliasName h
    obtain ⟨expression, placed, hplaced, hitem⟩ := hfound aliasName h
    rw [items_eq_nil_of_statement_eq_none hnone hplaced] at hitem
    simp at hitem

/-- Animals with their owner joined, their visits fetched later, and a column for
dogs alone. -/
def animals : Table Node where
  info := plainInfo "animals" "animals" true none
  shared :=
    [.column (ownedColumn "id"),
     .table ⟨plainInfo "owner" "owner" false
        (some (.join (.template "\x7bparent\x7d.owner = \x7bchild\x7d.id"))),
      [.column (ownedColumn "id"), .column (ownedColumn "name")], []⟩,
     .table ⟨plainInfo "visits" "visits" true
        (some (.batch (ownedColumn "animal") (ownedColumn "tag"))),
      [.column (ownedColumn "id")], []⟩]
  typed := [("Dog", [.column (ownedColumn "breed"), .dependencies [("weight", "weight")] none])]

theorem Table.unclashing_animals : animals.Unclashing := by
  unfold Unclashing
  decide

theorem Table.shape_aliases_statement_animals :
    ∃ select, animals.statement ⟨.null, .postgres, []⟩ = .ok (some select) ∧
      animals.Unclashing ∧
      (∀ aliasName, aliasName ∈ animals.shape.aliases ↔
        aliasName ∈ select.list.columns.map Prod.fst) := by
  have hstatement := Table.shape_aliases_statement animals ⟨.null, .postgres, []⟩
  refine ⟨_, rfl, unclashing_animals, fun aliasName => ⟨?_, ?_⟩⟩
  · exact (hstatement.1 _ rfl).1 aliasName
  · exact (hstatement.1 _ rfl).2 unclashing_animals aliasName

end Plan

end JoinPlan
