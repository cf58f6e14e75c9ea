import JoinPlan.Proofs.Plan.TableSteps

/-!
# What compiling does

Inversion of the functions that make a plan: which aliases they ask for, and which
nodes come of it.  What selecting does to the children of a table is stated once,
as a rule for any relation that the compiling of one field preserves.
-/

namespace JoinPlan

/-- Aliases of columns, asked for by name one after the other. -/
inductive Namespace.Asks : Namespace → List (String × String) → Namespace → Prop
  | nothing (names : Namespace) : Asks names [] names
  | column {names after : Namespace} {asked : List (String × String)} (name : String)
      (hrest : Asks (names.column name).2 asked after) :
      Asks names ((name, (names.column name).1) :: asked) after

theorem Namespace.Asks.append {names between after : Namespace}
    {first second : List (String × String)} (hfirst : names.Asks first between)
    (hsecond : between.Asks second after) : names.Asks (first ++ second) after := by
  induction hfirst with
  | nothing names => exact hsecond
  | column name hrest ih => exact .column name (ih hsecond)

theorem Namespace.Asks.one (names : Namespace) (name : String) :
    names.Asks [(name, (names.column name).1)] (names.column name).2 :=
  .column name (.nothing _)

namespace Plan

/-! ### Nodes that are columns -/

/-- The aliases of the columns a node stands for by itself. -/
def Node.leafAliases : Node → List String
  | .column node => [node.aliasName]
  | .dependencies columns _ => columns.map Prod.snd
  | .composite _ _ aliasName _ => [aliasName]
  | .expression _ _ aliasName _ _ => [aliasName]
  | .table _ => []
  | .nothing => []

/-- Nodes without tables, under aliases asked for on the way. -/
def Leaves (names : Namespace) (nodes : List Node) (after : Namespace) : Prop :=
  (∀ node ∈ nodes, node.table? = none) ∧
    ∃ asked, names.Asks asked after ∧ nodes.flatMap Node.leafAliases ⊆ asked.map Prod.snd

theorem Leaves.none (names : Namespace) : Leaves names [] names :=
  ⟨by simp, [], .nothing names, by simp⟩

theorem Leaves.append {names between after : Namespace} {first second : List Node}
    (hfirst : Leaves names first between) (hsecond : Leaves between second after) :
    Leaves names (first ++ second) after := by
  obtain ⟨hleaf, asked, hasks, hsub⟩ := hfirst
  obtain ⟨hother, others, hmore, hsubset⟩ := hsecond
  refine ⟨?_, asked ++ others, hasks.append hmore, ?_⟩
  · intro node hnode
    rcases List.mem_append.mp hnode with h | h
    · exact hleaf node h
    · exact hother node h
  · rw [List.flatMap_append, List.map_append]
    exact List.append_subset.mpr
      ⟨List.Subset.trans hsub (List.subset_append_left _ _),
        List.Subset.trans hsubset (List.subset_append_right _ _)⟩

theorem ownColumns_leaves {names after : Namespace} {columns : List String}
    {owner : Option String} {nodes : List Node}
    (h : ownColumns columns owner names = .ok (nodes, after)) : Leaves names nodes after := by
  replace h := ownColumns_eq_ok h
  induction h with
  | nil names => exact .none names
  | @cons names _ name _ _ _ ih =>
      have hfirst : Leaves names [.column ⟨name, name, (names.column name).1, owner⟩]
          (names.column name).2 :=
        ⟨by simp [Node.table?], _, .one names name, by simp [Node.leafAliases]⟩
      exact hfirst.append ih

theorem keyNode_leaves {names after : Namespace} {key : UniqueKey} {owner : Option String}
    {node : Node} (h : keyNode key owner names = .ok (node, after)) :
    Leaves names [node] after := by
  cases keyNode_eq_ok h with
  | one | many => exact ⟨by simp [Node.table?], _, .one names _, by simp [Node.leafAliases]⟩

theorem alwaysFetched_leaves {env : Environment} {field : TableField} {aliasName : String}
    {names after : Namespace} {nodes : List Node}
    (h : alwaysFetched env field aliasName names = .ok (nodes, after)) :
    Leaves names nodes after := by
  obtain ⟨columns, hcolumns⟩ := exists_alwaysFetched_eq env field aliasName
  rw [hcolumns] at h
  exact ownColumns_leaves h

theorem pagingColumns_leaves {paginate : Bool} {sortKey : Option (List SortTerm)}
    {junction : Option Junction} {names after : Namespace} {nodes : List Node}
    (h : pagingColumns paginate sortKey junction names = .ok (nodes, after)) :
    Leaves names nodes after := by
  obtain ⟨columns, owner, hcolumns⟩ := exists_pagingColumns_eq paginate sortKey junction
  rw [hcolumns] at h
  exact ownColumns_leaves h

/-! ### New tables -/

/-- How a new table is reached, the nodes that needs, and the aliases asked for. -/
inductive Reaches (names : Namespace) : Option Relation → List Node → Namespace → Prop
  | root : Reaches names none [] names
  | join (condition : JoinCondition) : Reaches names (some (.join condition)) [] names
  | batch {thisKey parentKey : Column} {after : Namespace}
      (hasks : names.Asks
        [(thisKey.name, thisKey.aliasName), (parentKey.name, parentKey.aliasName)] after) :
      Reaches names (some (.batch thisKey parentKey)) [] after
  | junctionJoins {junction : Junction} {toJunction toTarget : JoinCondition}
      (halias : junction.aliasName = (names.table junction.reference).1)
      (hfetch : junction.fetch = .joins toJunction toTarget) :
      Reaches names (some (.junction junction)) [] (names.table junction.reference).2
  | junctionBatch {junction : Junction} {toTarget : JoinCondition} {thisKey parentKey : Column}
      {identity : Node} {between after : Namespace}
      (halias : junction.aliasName = (names.table junction.reference).1)
      (hfetch : junction.fetch = .batch toTarget thisKey parentKey)
      (hidentity : Leaves (names.table junction.reference).2 [identity] between)
      (hasks : between.Asks
        [(thisKey.name, thisKey.aliasName), (parentKey.name, parentKey.aliasName)] after) :
      Reaches names (some (.junction junction)) [identity] after

theorem JunctionSteps.reaches {env : Environment} {field : TableField}
    {declared : JunctionOptions} {junction : Junction} {nodes : List Node}
    {names after : Namespace}
    (h : JunctionSteps env field declared names junction nodes after) :
    Reaches names (some (.junction junction)) nodes after := by
  have hsteps := h.fetch
  generalize hfetch : junction.fetch = fetch at hsteps
  cases hsteps with
  | joins hjoins => exact .junctionJoins h.aliasName hfetch
  | batch hjoins hbatch hkey hidentity hthis hparent =>
      obtain ⟨rfl, rfl⟩ := ownColumn_eq_ok hthis
      obtain ⟨rfl, rfl⟩ := ownColumn_eq_ok hparent
      exact .junctionBatch h.aliasName hfetch (keyNode_leaves hidentity)
        (.column _ (.column _ (.nothing _)))

theorem RelationSteps.reaches {env : Environment} {field : TableField}
    {reached : Option Relation} {nodes : List Node} {names after : Namespace}
    (h : RelationSteps env field names reached nodes after) :
    Reaches names reached nodes after := by
  cases h with
  | root => exact .root
  | join => exact .join _
  | junction hjoin hdeclared hsteps => exact hsteps.reaches
  | batch hjoin hjunction hbatch hthis hparent =>
      obtain ⟨rfl, rfl⟩ := ownColumn_eq_ok hthis
      obtain ⟨rfl, rfl⟩ := ownColumn_eq_ok hparent
      exact .batch (.column _ (.column _ (.nothing _)))

/-- A table with an alias of its own, the nodes its relation needs, and other
columns. -/
structure IsNew (names : Namespace) (table : Table Node) (after : Namespace) : Prop where
  opened : ∃ name, table.info.aliasName = (names.table name).1 ∧
    ∃ nodes own between, Reaches (names.table name).2 table.info.relation nodes between ∧
      Leaves between own after ∧ table.shared = nodes ++ own
  typed : table.typed = []

theorem newTable_isNew {env : Environment} {field : TableField} {table : Table Node}
    {names after : Namespace} (h : newTable env field names = .ok (table, after)) :
    IsNew names table after := by
  obtain ⟨-, hreached, -, -, -, hkey, halways, hpaging⟩ := newTable_eq_ok h
  have hown := ((keyNode_leaves hkey).append (alwaysFetched_leaves halways)).append
    (pagingColumns_leaves hpaging)
  exact ⟨⟨field.name, rfl, _, _, _, hreached.reaches, hown, by simp⟩, rfl⟩

end Plan

end JoinPlan
