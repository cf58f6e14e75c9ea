import JoinPlan.Proofs.Grouping
import JoinPlan.Proofs.Plan.Contributions
import JoinPlan.Proofs.Sql.Quoting

/-!
# The select list of a statement

A statement joins some of the tables of a plan; each stands below a path of
aliases and fetches columns for its children.  The select list holds these columns
under their output aliases and nothing else, up to items with the same text.
-/

namespace JoinPlan

open Sql

namespace Plan

/-- The columns a child fetches from its table in a statement, by their aliases on
the table. -/
def Node.fetched (ctx : StatementContext) (parent : String) : Node → List (String × Expression)
  | .table child =>
      match child.info.batchKeys? with
      | some (_, parentKey) => [(parentKey.aliasName, .column parent parentKey.name)]
      | none => []
  | .column node => [(node.aliasName, .column (node.owner.getD parent) node.name)]
  | .dependencies columns owner =>
      columns.map fun entry => (entry.2, .column (owner.getD parent) entry.1)
  | .composite names _ aliasName owner => [(aliasName, .compositeKey (owner.getD parent) names)]
  | .expression sql _ aliasName args owner =>
      [(aliasName, .raw (sql.fragment (ctx.dialect.quote (owner.getD parent)) args ctx.context))]
  | .nothing => []

/-- The columns a table fetches for its children. -/
def Table.fetched (ctx : StatementContext) (table : Table Node) : List (String × Expression) :=
  table.statementChildren.flatMap (Node.fetched ctx table.info.aliasName)

/-- A table of a statement with the aliases on the way to it, its own the last. -/
structure Placed where
  path : List String
  table : Table Node

mutual

/-- A table and the tables joined below it, given the path to its parent. -/
def Table.joined (path : List String) : Table Node → List Placed
  | ⟨info, shared, typed⟩ =>
      ⟨path ++ [info.aliasName], ⟨info, shared, typed⟩⟩ ::
        (bucketsJoined (path ++ [info.aliasName]) typed ++
          nodesJoined (path ++ [info.aliasName]) shared)

def Node.joined (path : List String) : Node → List Placed
  | .table child => if child.info.isBoundary then [] else child.joined path
  | _ => []

def nodesJoined (path : List String) : List Node → List Placed
  | [] => []
  | node :: rest => node.joined path ++ nodesJoined path rest

def bucketsJoined (path : List String) : List (String × List Node) → List Placed
  | [] => []
  | bucket :: rest => bucketJoined path bucket ++ bucketsJoined path rest

def bucketJoined (path : List String) : String × List Node → List Placed
  | (_, nodes) => nodesJoined path nodes

end

/-- A column of a table under its output alias. -/
def placeColumn {α : Type} (path : List String) (column : String × α) : String × α :=
  (outputAlias path column.1, column.2)

/-- The items of a select list that fetch a table's columns. -/
def Placed.items (ctx : StatementContext) (placed : Placed) : List (String × Expression) :=
  (placed.table.fetched ctx).map (placeColumn placed.path)

theorem nodesJoined_eq_flatMap (path : List String) (nodes : List Node) :
    nodesJoined path nodes = nodes.flatMap (Node.joined path) := by
  induction nodes with
  | nil => rfl
  | cons node rest ih => rw [nodesJoined, ih, List.flatMap_cons]

theorem bucketsJoined_eq_flatMap (path : List String) (buckets : List (String × List Node)) :
    bucketsJoined path buckets = (buckets.flatMap Prod.snd).flatMap (Node.joined path) := by
  induction buckets with
  | nil => rfl
  | cons bucket rest ih =>
      rw [bucketsJoined, bucketJoined, nodesJoined_eq_flatMap, ih, List.flatMap_cons,
        List.flatMap_append]

theorem Table.joined_eq (path : List String) (table : Table Node) :
    table.joined path =
      ⟨path ++ [table.info.aliasName], table⟩ ::
        table.statementChildren.flatMap (Node.joined (path ++ [table.info.aliasName])) := by
  obtain ⟨info, shared, typed⟩ := table
  rw [joined, nodesJoined_eq_flatMap, bucketsJoined_eq_flatMap, statementChildren,
    List.flatMap_append]

theorem Node.joined_of_leaf {node : Node} (hleaf : node.table? = none) (path : List String) :
    node.joined path = [] := by
  cases node with
  | table child => simp [table?] at hleaf
  | column | dependencies | composite | expression | nothing => rfl

theorem Node.joined_of_batchKeys {table : Table Node} {keys : Column × Column}
    (hkeys : table.info.batchKeys? = some keys) (path : List String) :
    (Node.table table).joined path = [] := by
  rw [joined, if_pos (by simp [TableInfo.isBoundary, hkeys])]

theorem Node.joined_of_not_batched {table : Table Node} (hkeys : table.info.batchKeys? = none)
    (path : List String) : (Node.table table).joined path = table.joined path := by
  rw [joined, if_neg (by simp [TableInfo.isBoundary, hkeys])]

/-- What a table contributes to the statement of a table above it: it is fetched later, and
leaves the key of its parent's rows, or it is fetched with its parent. -/
inductive FetchedBelow (ctx : StatementContext) (parent : String) (path : List String)
    (table : Table Node) : Contribution → Prop
  | later {thisKey parentKey : Column}
      (hkeys : table.info.batchKeys? = some (thisKey, parentKey)) :
      FetchedBelow ctx parent path table (keyContribution parent path parentKey)
  | here {parts : Contribution} (hkeys : table.info.batchKeys? = none)
      (h : table.contribution ctx (some parent) path = .ok parts) :
      FetchedBelow ctx parent path table parts

theorem Node.fetchedBelow {ctx : StatementContext} {parent : String} {path : List String}
    {table : Table Node} {parts : Contribution}
    (h : (Node.table table).contribution ctx parent path = .ok parts) :
    FetchedBelow ctx parent path table parts := by
  rw [contribution] at h
  cases hkeys : table.info.batchKeys? with
  | some keys =>
      rw [Table.contribution_of_boundary hkeys] at h
      exact Except.ok.inj h ▸ .later hkeys
  | none => exact .here hkeys h

theorem Node.contribution_of_leaf {ctx : StatementContext} {parent : String} {path : List String}
    {node : Node} {parts : Contribution} (hleaf : node.table? = none)
    (h : node.contribution ctx parent path = .ok parts) :
    parts.items = (node.fetched ctx parent).map (placeColumn path) := by
  cases node with
  | table child => simp [table?] at hleaf
  | column | dependencies | composite | expression | nothing =>
      rw [contribution] at h
      rw [← Except.ok.inj h]
      simp [fetched, placeColumn, columnItem, Contribution.ofItems, Contribution.empty]

/-- What a child contributes to the select list: the columns it fetches from its
table, and those of the tables joined below. -/
def Node.HasItems (ctx : StatementContext) (parent : String) (path : List String) (node : Node)
    (item : String × Expression) : Prop :=
  item ∈ (node.fetched ctx parent).map (placeColumn path) ∨
    ∃ placed ∈ node.joined path, item ∈ placed.items ctx

theorem Contributes.mem_items {ctx : StatementContext} {parent : String} {path : List String}
    {nodes : List Node} {each : List Contribution} (heach : Contributes ctx parent path nodes each)
    (hnodes : ∀ child ∈ nodes, ∀ part, child.contribution ctx parent path = .ok part →
      ∀ item, item ∈ part.items ↔ child.HasItems ctx parent path item)
    (item : String × Expression) :
    item ∈ (Contribution.concat each).items ↔
      ∃ child ∈ nodes, child.HasItems ctx parent path item := by
  induction heach with
  | nil => simp [Contribution.empty]
  | cons hpart hrest ih =>
      rw [List.forall_mem_cons] at hnodes
      rw [Contribution.concat_cons, Contribution.items_append, List.mem_append,
        hnodes.1 _ hpart item, ih hnodes.2]
      simp

theorem Placed.mem_items {ctx : StatementContext} {placed : Placed} {item : String × Expression} :
    item ∈ placed.items ctx ↔ ∃ child ∈ placed.table.statementChildren,
      item ∈ (child.fetched ctx placed.table.info.aliasName).map (placeColumn placed.path) := by
  rw [items, Table.fetched, List.map_flatMap, List.mem_flatMap]

/-- The items of a table and of those joined below it are those of its children. -/
theorem Table.exists_placed_iff {ctx : StatementContext} {path : List String}
    {table : Table Node} {item : String × Expression} :
    (∃ placed ∈ table.joined path, item ∈ placed.items ctx) ↔
      ∃ child ∈ table.children,
        child.HasItems ctx table.info.aliasName (path ++ [table.info.aliasName]) item := by
  simp only [joined_eq, List.mem_cons, exists_eq_or_imp, List.mem_flatMap, Placed.mem_items,
    mem_statementChildren]
  constructor
  · rintro (⟨child, hchild, hitem⟩ | ⟨placed, ⟨child, hchild, hplaced⟩, hitem⟩)
    · exact ⟨child, hchild, Or.inl hitem⟩
    · refine ⟨child, hchild, Or.inr ⟨placed, hplaced, Placed.mem_items.mpr ?_⟩⟩
      simpa only [mem_statementChildren] using hitem
  · rintro ⟨child, hchild, hfetched | ⟨placed, hplaced, hitem⟩⟩
    · exact Or.inl ⟨child, hchild, hfetched⟩
    · refine Or.inr ⟨placed, ⟨child, hchild, hplaced⟩, ?_⟩
      simpa only [mem_statementChildren] using Placed.mem_items.mp hitem

theorem Table.mem_contribution_items {ctx : StatementContext} {parent : Option String}
    {path : List String} {table : Table Node} {parts : Contribution}
    (hhere : (table.info.isBoundary && parent.isSome) = false)
    (hchildren : ∀ child ∈ table.children, ∀ part,
      child.contribution ctx table.info.aliasName (path ++ [table.info.aliasName]) = .ok part →
        ∀ item, item ∈ part.items ↔
          child.HasItems ctx table.info.aliasName (path ++ [table.info.aliasName]) item)
    (h : table.contribution ctx parent path = .ok parts) (item : String × Expression) :
    item ∈ parts.items ↔ ∃ placed ∈ table.joined path, item ∈ placed.items ctx := by
  obtain ⟨own, each, hown, heach, rfl⟩ := contribution_eq_ok hhere h
  rw [Contribution.items_append, ownContribution_items hhere hown, List.nil_append,
    heach.mem_items (fun child hchild => hchildren child (mem_statementChildren.mp hchild)),
    exists_placed_iff]
  simp only [mem_statementChildren]

theorem Node.mem_contribution_items {ctx : StatementContext} (node : Node) :
    ∀ {parent : String} {path : List String} {parts : Contribution},
      node.contribution ctx parent path = .ok parts →
        ∀ item, item ∈ parts.items ↔ node.HasItems ctx parent path item := by
  induction node using Node.induction with
  | table table ih =>
      intro parent path parts h item
      cases fetchedBelow h with
      | later hkeys =>
          simp [HasItems, fetched, joined_of_batchKeys hkeys, hkeys, keyContribution,
            Contribution.ofItems, placeColumn]
      | here hkeys h =>
          have hhere : (table.info.isBoundary && (some parent).isSome) = false := by
            simp [TableInfo.isBoundary, hkeys]
          rw [Table.mem_contribution_items hhere
            (fun child hchild part hpart => ih child hchild hpart) h item]
          simp [HasItems, fetched, joined_of_not_batched hkeys, hkeys]
  | leaf node hleaf =>
      intro parent path parts h item
      rw [contribution_of_leaf hleaf h]
      simp [HasItems, joined_of_leaf hleaf]

/-- The items of the statement that starts at a table, before those with the same
text are dropped. -/
theorem Table.mem_rootContribution_items {ctx : StatementContext} {root : Table Node}
    {parts : Contribution} (h : root.contribution ctx none [] = .ok parts)
    (item : String × Expression) :
    item ∈ parts.items ↔ ∃ placed ∈ root.joined [], item ∈ placed.items ctx :=
  mem_contribution_items (by simp)
    (fun child _ part hpart => child.mem_contribution_items hpart) h item

/-! ### Statements -/

end Plan

namespace Sql

/-- The items of a select list with their output aliases. -/
def SelectList.columns : SelectList → List (String × Expression)
  | .items list => list
  | .star _ => []
  | .both first second => first.columns ++ second.columns

@[simp]
theorem Select.place_list (clauses : List TableClause) (select : Select) :
    (select.place clauses).2.list = select.list := by
  induction clauses generalizing select with
  | nil => rfl
  | cons clause rest ih =>
      cases clause with
      | join join => rw [place, ih]
      | source source =>
          rw [place]
          split
          · rfl
          · rw [ih]

end Sql

namespace Plan

theorem distinctItems_eq_nil {dialect : Dialect} {items : List (String × Expression)}
    (h : distinctItems dialect items = []) : items = [] := by
  rw [List.eq_nil_iff_forall_not_mem]
  intro item hitem
  obtain ⟨kept, hkept, -⟩ := Assoc.exists_mem_distinctBy (renderItem dialect) hitem
  rw [distinctItems] at h
  simp [h] at hkept

theorem assemble_eq_none {dialect : Dialect} {fieldName : String} {parts : Contribution}
    (h : assemble dialect fieldName parts = .ok none) : parts.items = [] := by
  unfold assemble at h
  simp only [List.isEmpty_iff] at h
  split at h
  · rename_i hempty
    exact distinctItems_eq_nil hempty
  · split at h <;> simp at h

theorem assemble_eq_some {dialect : Dialect} {fieldName : String} {parts : Contribution}
    {select : Select} (h : assemble dialect fieldName parts = .ok (some select)) :
    select.list = .items (distinctItems dialect parts.items) := by
  unfold assemble at h
  simp only [List.isEmpty_iff] at h
  split at h
  · simp at h
  · split at h
    · simp at h
    · rename_i placed hplace
      have hlist := Select.place_list parts.clauses
        (Select.ofList (.items (distinctItems dialect parts.items)))
      rw [hplace] at hlist
      simp only [Except.ok.injEq, Option.some.injEq] at h
      rw [← h]
      exact hlist

theorem Table.statement_eq_ok {root : Table Node} {ctx : StatementContext}
    {result : Option Select} (h : root.statement ctx = .ok result) :
    ∃ parts, root.contribution ctx none [] = .ok parts ∧
      assemble ctx.dialect root.info.fieldName parts = .ok result := by
  rw [statement] at h
  obtain ⟨parts, hparts, h⟩ := bind_eq_ok.mp h
  refine ⟨parts, hparts, ?_⟩
  cases hassemble : assemble ctx.dialect root.info.fieldName parts with
  | error error => simp [hassemble] at h
  | ok found =>
      rw [hassemble] at h
      exact congrArg Except.ok (Except.ok.inj h)

section Statement

variable {root : Table Node} {ctx : StatementContext}

theorem Table.mem_statement_columns {select : Select}
    (h : root.statement ctx = .ok (some select)) {item : String × Expression}
    (hitem : item ∈ select.list.columns) : ∃ placed ∈ root.joined [], item ∈ placed.items ctx := by
  obtain ⟨parts, hparts, hassemble⟩ := statement_eq_ok h
  rw [assemble_eq_some hassemble] at hitem
  exact (mem_rootContribution_items hparts item).mp (Assoc.mem_of_mem_distinctBy hitem)

/-- Dropping items with the same text loses no output alias and no text. -/
theorem Table.exists_mem_statement_columns {select : Select}
    (h : root.statement ctx = .ok (some select)) {placed : Placed}
    (hplaced : placed ∈ root.joined []) {item : String × Expression}
    (hitem : item ∈ placed.items ctx) :
    ∃ kept ∈ select.list.columns, kept.1 = item.1 ∧
      renderItem ctx.dialect kept = renderItem ctx.dialect item := by
  obtain ⟨parts, hparts, hassemble⟩ := statement_eq_ok h
  have hmem := (mem_rootContribution_items hparts item).mpr ⟨placed, hplaced, hitem⟩
  obtain ⟨kept, hkept, htext⟩ :=
    Assoc.exists_mem_distinctBy (renderItem ctx.dialect) hmem
  rw [assemble_eq_some hassemble]
  exact ⟨kept, hkept, alias_eq_of_renderItem_eq htext, htext⟩

theorem Table.columns_injOn_text {select : Select} (h : root.statement ctx = .ok (some select))
    {first second : String × Expression} (hfirst : first ∈ select.list.columns)
    (hsecond : second ∈ select.list.columns)
    (htext : renderItem ctx.dialect first = renderItem ctx.dialect second) : first = second := by
  obtain ⟨parts, hparts, hassemble⟩ := statement_eq_ok h
  rw [assemble_eq_some hassemble] at hfirst hsecond
  exact Assoc.eq_of_mem_distinctBy hfirst hsecond htext

theorem Table.items_eq_nil_of_statement_eq_none (h : root.statement ctx = .ok none)
    {placed : Placed} (hplaced : placed ∈ root.joined []) : placed.items ctx = [] := by
  obtain ⟨parts, hparts, hassemble⟩ := statement_eq_ok h
  rw [List.eq_nil_iff_forall_not_mem]
  intro item hitem
  have hmem := (mem_rootContribution_items hparts item).mpr ⟨placed, hplaced, hitem⟩
  rw [assemble_eq_none hassemble] at hmem
  simp at hmem

end Statement

end Plan

end JoinPlan
