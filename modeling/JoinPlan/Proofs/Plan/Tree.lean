import JoinPlan.Plan.Node
import Mathlib.Data.List.Basic

/-!
# Trees of tables

A node is a table with children or a leaf, whatever lists its children are kept
in.  Everything below is proved by induction over nodes in that view.
-/

namespace JoinPlan.Plan

namespace Table

/-- All children in the order of a statement: those of the concrete types first. -/
def statementChildren (table : Table Node) : List Node :=
  table.typed.flatMap Prod.snd ++ table.shared

theorem mem_statementChildren {table : Table Node} {node : Node} :
    node ∈ table.statementChildren ↔ node ∈ table.children := by
  simp [statementChildren, children, or_comm]

theorem mem_tables {table child : Table Node} :
    child ∈ table.tables ↔ Node.table child ∈ table.children := by
  constructor
  · intro h
    obtain ⟨node, hnode, htable⟩ := List.mem_filterMap.mp h
    cases node with
    | table other =>
        simp only [Node.table?, Option.some.injEq] at htable
        exact htable ▸ hnode
    | column | dependencies | composite | expression | nothing => simp [Node.table?] at htable
  · intro h
    exact List.mem_filterMap.mpr ⟨.table child, h, rfl⟩

end Table

@[elab_as_elim]
theorem Node.induction {motive : Node → Prop}
    (table : ∀ table : Table Node, (∀ child ∈ table.children, motive child) →
      motive (.table table))
    (leaf : ∀ node : Node, node.table? = none → motive node) (node : Node) : motive node := by
  refine Node.rec (motive_1 := motive)
    (motive_2 := fun table => ∀ child ∈ table.children, motive child)
    (motive_3 := fun nodes => ∀ child ∈ nodes, motive child)
    (motive_4 := fun buckets => ∀ bucket ∈ buckets, ∀ child ∈ bucket.2, motive child)
    (motive_5 := fun bucket => ∀ child ∈ bucket.2, motive child)
    ?_ ?_ ?_ ?_ ?_ ?_ ?_ ?_ ?_ ?_ ?_ ?_ node
  · exact fun inner hinner => table inner hinner
  · exact fun column => leaf _ rfl
  · exact fun columns owner => leaf _ rfl
  · exact fun names fieldName aliasName owner => leaf _ rfl
  · exact fun sql fieldName aliasName args owner => leaf _ rfl
  · exact leaf _ rfl
  · intro info shared typed hshared htyped child hchild
    rcases List.mem_append.mp hchild with h | h
    · exact hshared child h
    · obtain ⟨bucket, hbucket, h⟩ := List.mem_flatMap.mp h
      exact htyped bucket hbucket child h
  · simp
  · intro head tail hhead htail child hchild
    rcases List.mem_cons.mp hchild with rfl | h
    · exact hhead
    · exact htail child h
  · simp
  · intro head tail hhead htail bucket hbucket
    rcases List.mem_cons.mp hbucket with rfl | h
    · exact hhead
    · exact htail bucket h
  · exact fun type nodes hnodes => hnodes

@[elab_as_elim]
theorem Table.induction {motive : Table Node → Prop}
    (step : ∀ table : Table Node, (∀ child ∈ table.tables, motive child) → motive table)
    (table : Table Node) : motive table := by
  have hnode : ∀ node : Node, ∀ inner, node = .table inner → motive inner := by
    intro node
    induction node using Node.induction with
    | table outer ih =>
        rintro inner ⟨⟩
        exact step outer fun child hchild => ih _ (Table.mem_tables.mp hchild) child rfl
    | leaf node hleaf =>
        rintro inner rfl
        simp [Node.table?] at hleaf
  exact hnode (.table table) table rfl

/-! ### All tables of a tree -/

mutual

/-- A table and all tables below it, those fetched later included. -/
def Table.subtree : Table Node → List (Table Node)
  | ⟨info, shared, typed⟩ =>
      ⟨info, shared, typed⟩ :: (nodesSubtree shared ++ bucketsSubtree typed)

def Node.subtree : Node → List (Table Node)
  | .table table => table.subtree
  | _ => []

def nodesSubtree : List Node → List (Table Node)
  | [] => []
  | node :: rest => node.subtree ++ nodesSubtree rest

def bucketsSubtree : List (String × List Node) → List (Table Node)
  | [] => []
  | bucket :: rest => bucketSubtree bucket ++ bucketsSubtree rest

def bucketSubtree : String × List Node → List (Table Node)
  | (_, nodes) => nodesSubtree nodes

end

theorem nodesSubtree_eq_flatMap (nodes : List Node) :
    nodesSubtree nodes = nodes.flatMap Node.subtree := by
  induction nodes with
  | nil => rfl
  | cons node rest ih => rw [nodesSubtree, ih, List.flatMap_cons]

theorem bucketsSubtree_eq_flatMap (buckets : List (String × List Node)) :
    bucketsSubtree buckets = (buckets.flatMap Prod.snd).flatMap Node.subtree := by
  induction buckets with
  | nil => rfl
  | cons bucket rest ih =>
      rw [bucketsSubtree, bucketSubtree, nodesSubtree_eq_flatMap, ih, List.flatMap_cons,
        List.flatMap_append]

/-- What comes of nodes comes of the tables among them if leaves add nothing. -/
theorem flatMap_eq_tables {α : Type} {f : Node → List α}
    (hleaf : ∀ node, node.table? = none → f node = []) (nodes : List Node) :
    nodes.flatMap f = (nodes.filterMap Node.table?).flatMap fun child => f (.table child) := by
  induction nodes with
  | nil => rfl
  | cons node rest ih =>
      rw [List.flatMap_cons, ih]
      cases node with
      | table child => rfl
      | column | dependencies | composite | expression | nothing => rw [hleaf _ rfl]; rfl

theorem Node.subtree_of_leaf {node : Node} (hleaf : node.table? = none) : node.subtree = [] := by
  cases node with
  | table child => simp [table?] at hleaf
  | column | dependencies | composite | expression | nothing => rfl

namespace Table

theorem subtree_eq (table : Table Node) :
    table.subtree = table :: table.children.flatMap Node.subtree := by
  obtain ⟨info, shared, typed⟩ := table
  rw [subtree, nodesSubtree_eq_flatMap, bucketsSubtree_eq_flatMap, children, List.flatMap_append]

theorem mem_subtree_self (table : Table Node) : table ∈ table.subtree := by
  rw [subtree_eq]
  exact List.mem_cons_self

theorem subtree_sublist_of_mem_tables {table child : Table Node} (h : child ∈ table.tables) :
    child.subtree.Sublist (table.children.flatMap Node.subtree) := by
  obtain ⟨before, after, hchildren⟩ := List.append_of_mem (mem_tables.mp h)
  rw [hchildren, List.flatMap_append, List.flatMap_cons]
  exact (List.sublist_append_left _ _).trans (List.sublist_append_right _ _)

theorem mem_subtree_of_mem_tables {table child inner : Table Node} (h : child ∈ table.tables)
    (hinner : inner ∈ child.subtree) : inner ∈ table.subtree := by
  rw [subtree_eq]
  exact List.mem_cons_of_mem _ ((subtree_sublist_of_mem_tables h).subset hinner)

theorem mem_subtree_of_mem_children {table inner : Table Node} {child : Node}
    (h : child ∈ table.children) (hinner : inner ∈ child.subtree) : inner ∈ table.subtree := by
  rw [subtree_eq]
  exact List.mem_cons_of_mem _ (List.mem_flatMap.mpr ⟨child, h, hinner⟩)

theorem exists_tables_of_mem_children {table inner : Table Node}
    (h : inner ∈ table.children.flatMap Node.subtree) :
    ∃ child ∈ table.tables, inner ∈ child.subtree := by
  obtain ⟨node, hnode, hinner⟩ := List.mem_flatMap.mp h
  cases node with
  | table child => exact ⟨child, mem_tables.mpr hnode, hinner⟩
  | column | dependencies | composite | expression | nothing => simp [Node.subtree] at hinner

/-- Below a table of a tree there are only tables of the tree. -/
theorem subtree_sublist {root : Table Node} :
    ∀ table ∈ root.subtree, table.subtree.Sublist root.subtree := by
  induction root using Table.induction with
  | step root ih =>
      intro table htable
      rw [subtree_eq, List.mem_cons] at htable
      rcases htable with rfl | hbelow
      · exact List.Sublist.refl _
      · obtain ⟨child, hchild, hinner⟩ := exists_tables_of_mem_children hbelow
        have hsub := (ih child hchild table hinner).trans (subtree_sublist_of_mem_tables hchild)
        rw [subtree_eq root]
        exact hsub.trans (List.sublist_cons_self _ _)

end Table

/-! ### Small plans -/

/-- A table without conditions, orderings and arguments. -/
def plainInfo (fieldName aliasName : String) (many : Bool) (relation : Option Relation) :
    TableInfo where
  fieldName := fieldName
  typeName := fieldName
  isAbstract := false
  reference := fieldName
  aliasName := aliasName
  args := []
  many := many
  paginate := false
  orderBy := none
  sortKey := none
  limit := none
  condition := none
  relation := relation

def ownedColumn (name : String) : Column := ⟨name, name, name, none⟩

end JoinPlan.Plan
