import JoinPlan.Proofs.Plan.SelectList
import JoinPlan.Proofs.Sql.Evaluation

/-!
# Tables of columns

Tables without pages, orderings and conditions, whose children are columns and at most one
other table.  Their statements are written out: which columns they fetch, from which
tables, and what the other table adds when it is joined and when it is fetched later.
-/

namespace JoinPlan.Plan

open Sql

structure TableInfo.IsPlain (info : TableInfo) : Prop where
  paginate : info.paginate = false
  limit : info.limit = none
  condition : info.condition = none
  orderBy : info.orderBy = none
  sortKey : info.sortKey = none

/-- Every property is one column. -/
def Agreeing (columns : List Column) : Prop :=
  ∀ first ∈ columns, ∀ second ∈ columns,
    first.fieldName = second.fieldName → first.name = second.name

/-- Columns of one table, with an alias for each property.  They come in two layers, and the
second may give a property another column than the first. -/
structure Layered (columns : List Column) : Prop where
  owner : ∀ column ∈ columns, column.owner = none
  aliases : ∀ first ∈ columns, ∀ second ∈ columns,
    first.aliasName = second.aliasName ↔ first.fieldName = second.fieldName
  layers : ∃ own chosen, columns = own ++ chosen ∧ Agreeing own ∧ Agreeing chosen

/-- A column whose property no other column takes. -/
structure Stands (columns : List Column) (column : Column) : Prop where
  mem : column ∈ columns
  alone : ∀ other ∈ columns, other.fieldName = column.fieldName → other.name = column.name

/-- Columns with one that tells the rows of their table from each other. -/
structure Identified (key : Column) (columns : List Column) : Prop extends Layered columns where
  key : Stands columns key

def columnNodes (columns : List Column) : List Node := columns.map .column

/-- The items that fetch columns of a table. -/
def columnItems (parent : String) (path : List String) (columns : List Column) :
    List (String × Expression) :=
  columns.map fun column => columnItem parent path none column.name column.aliasName

/-- A table whose children are columns, with another table among them. -/
def parentTable (info : TableInfo) (before after : List Column) (child : Table Node) :
    Table Node :=
  ⟨info, columnNodes before ++ .table child :: columnNodes after, []⟩

def columnTable (info : TableInfo) (columns : List Column) : Table Node :=
  ⟨info, columnNodes columns, []⟩

section Contribution

variable {ctx : StatementContext} {parent : String} {path : List String}

theorem nodesContribution_append {first second : List Node} {parts others : Contribution}
    (hfirst : nodesContribution ctx parent path first = .ok parts)
    (hsecond : nodesContribution ctx parent path second = .ok others) :
    nodesContribution ctx parent path (first ++ second) = .ok (parts.append others) := by
  induction first generalizing parts with
  | nil =>
      obtain rfl := Except.ok.inj hfirst
      exact hsecond
  | cons node rest ih =>
      rw [nodesContribution] at hfirst
      obtain ⟨own, hown, hfirst⟩ := bind_eq_ok.mp hfirst
      obtain ⟨more, hmore, hfirst⟩ := bind_eq_ok.mp hfirst
      obtain rfl := Except.ok.inj hfirst
      rw [List.cons_append, nodesContribution, hown, ih hmore, Contribution.append_assoc]
      rfl

theorem nodesContribution_singleton {node : Node} {parts : Contribution}
    (h : node.contribution ctx parent path = .ok parts) :
    nodesContribution ctx parent path [node] = .ok parts := by
  have hempty : parts.append .empty = parts := by
    simp [Contribution.append, Contribution.empty]
  rw [nodesContribution, h, nodesContribution]
  exact congrArg Except.ok hempty

theorem nodesContribution_columns {columns : List Column}
    (howner : ∀ column ∈ columns, column.owner = none) :
    nodesContribution ctx parent path (columnNodes columns) =
      .ok (.ofItems (columnItems parent path columns)) := by
  induction columns with
  | nil => rfl
  | cons column rest ih =>
      rw [List.forall_mem_cons] at howner
      have hcolumn : (Node.column column).contribution ctx parent path =
          .ok (.ofItems [columnItem parent path none column.name column.aliasName]) := by
        rw [Node.contribution, howner.1]
      rw [columnNodes, List.map_cons, nodesContribution, hcolumn]
      change Except.bind _ _ = _
      rw [show nodesContribution ctx parent path (rest.map .column) = _ from ih howner.2]
      rfl

/-- A plain table adds nothing of its own to the clauses that introduce it. -/
theorem ownContribution_eq {info : TableInfo} (hplain : info.IsPlain)
    (hjunction : info.junction? = none) {parent : Option String} {parts : Contribution}
    (hclauses : relationClauses ctx info parent path = .ok parts) :
    ownContribution ctx info parent path = .ok parts := by
  have hconditions : ownConditions ctx info = [] := by
    simp [ownConditions, hjunction, hplain.condition, builtCondition]
  have horder : ownOrder info = [] := by
    simp [ownOrder, hjunction, hplain.orderBy, hplain.sortKey, orderTermsOf]
  rw [ownContribution, hconditions, horder, hclauses, ite_self, ite_self]
  rfl

theorem TableInfo.IsPlain.not_paged {info : TableInfo} (hplain : info.IsPlain) :
    isPaged info = false := by
  simp [isPaged, hplain.paginate, hplain.limit]

theorem ownContribution_root {info : TableInfo} (hplain : info.IsPlain)
    (hrelation : info.relation = none) :
    ownContribution ctx info none path =
      .ok (.ofClauses [.source (.table info.reference info.aliasName)]) := by
  apply ownContribution_eq hplain (by simp [TableInfo.junction?, hrelation])
  simp [relationClauses, hrelation, rootClauses, hplain.not_paged, bind, Except.bind, pure,
    Except.pure]

theorem ownContribution_join {info : TableInfo} (hplain : info.IsPlain)
    {condition : JoinCondition} (hrelation : info.relation = some (.join condition)) :
    ownContribution ctx info (some parent) path =
      .ok (.ofClauses [.join (.left info.reference info.aliasName (.raw (condition.join
        (ctx.dialect.quote parent) (ctx.dialect.quote info.aliasName) info.args
          ctx.context)))]) := by
  apply ownContribution_eq hplain (by simp [TableInfo.junction?, hrelation])
  simp [relationClauses, hrelation, joinClauses, hplain.not_paged, bind, Except.bind, pure,
    Except.pure]

theorem ownContribution_batch {info : TableInfo} (hplain : info.IsPlain)
    {thisKey parentKey : Column} (hrelation : info.relation = some (.batch thisKey parentKey)) :
    ownContribution ctx info none path =
      .ok { Contribution.empty with
        clauses := [.source (.table info.reference info.aliasName)]
        conditions := [inScope ctx info.aliasName thisKey.name] } := by
  apply ownContribution_eq hplain (by simp [TableInfo.junction?, hrelation])
  simp [relationClauses, hrelation, batchClauses, hplain.not_paged]

theorem Table.contribution_eq {info : TableInfo} {shared : List Node} {parent : Option String}
    {own parts : Contribution} (hhere : (info.isBoundary && parent.isSome) = false)
    (hown : ownContribution ctx info parent path = .ok own)
    (hshared : nodesContribution ctx info.aliasName (path ++ [info.aliasName]) shared =
      .ok parts) :
    Table.contribution ctx parent path ⟨info, shared, []⟩ = .ok (own.append parts) := by
  rw [Table.contribution, hown]
  change (if _ then _ else _) = _
  rw [hhere, if_neg Bool.false_ne_true, hshared, bucketsContribution]
  change Except.ok _ = _
  simp [Contribution.append, Contribution.empty]

end Contribution

/-! ### Statements -/

section Statement

variable {ctx : StatementContext} {info child : TableInfo} {before after columns : List Column}
  {thisKey parentKey : Column}

theorem distinctItems_ne_nil {dialect : Dialect} {items : List (String × Expression)}
    (h : items ≠ []) : distinctItems dialect items ≠ [] := by
  intro hnil
  exact h (distinctItems_eq_nil hnil)

theorem Table.statement_eq {shared : List Node} {own parts : Contribution} {select : Select}
    (hown : ownContribution ctx info none [] = .ok own)
    (hshared : nodesContribution ctx info.aliasName [info.aliasName] shared = .ok parts)
    (hitems : (own.append parts).items ≠ [])
    (hplace : (Select.ofList (.items (distinctItems ctx.dialect (own.append parts).items))).place
      (own.append parts).clauses = (true, select)) :
    Table.statement ⟨info, shared, []⟩ ctx = .ok (some
      { select with
        condition := .conjunction (own.append parts).conditions
        order := (own.append parts).order }) := by
  have hnonempty : (distinctItems ctx.dialect (own.append parts).items).isEmpty = false :=
    List.isEmpty_eq_false_iff.mpr (distinctItems_ne_nil hitems)
  have hassemble : assemble ctx.dialect info.fieldName (own.append parts) = .ok (some
      { select with
        condition := .conjunction (own.append parts).conditions
        order := (own.append parts).order }) := by
    simp only [assemble, hnonempty, Bool.false_eq_true, if_false, hplace]
  rw [Table.statement, Table.contribution_eq (by simp) hown hshared]
  change (liftM (assemble _ _ _) : Except PlanError _) = _
  rw [hassemble]
  rfl

theorem columnItems_ne_nil {parent : String} {path : List String} (hne : columns ≠ []) :
    columnItems parent path columns ≠ [] := by
  simpa [columnItems] using hne

/-- The statement of a table that is fetched in batches. -/
theorem statement_batch (hplain : info.IsPlain)
    (hrelation : info.relation = some (.batch thisKey parentKey))
    (howner : ∀ column ∈ columns, column.owner = none) (hne : columns ≠ []) :
    (columnTable info columns).statement ctx = .ok (some
      ⟨.items (distinctItems ctx.dialect (columnItems info.aliasName [info.aliasName] columns)),
        some (.table info.reference info.aliasName), [],
        inScope ctx info.aliasName thisKey.name, [], none, none⟩) :=
  Table.statement_eq (ownContribution_batch hplain hrelation)
    (nodesContribution_columns howner) (columnItems_ne_nil hne) rfl

theorem columnItems_append (parent : String) (path : List String) (first second : List Column) :
    columnItems parent path (first ++ second) =
      columnItems parent path first ++ columnItems parent path second :=
  List.map_append

/-- The statement of a table whose child is fetched later: the child leaves the key that its
rows will be matched with. -/
theorem statement_parent_of_batch {table : Table Node} (hplain : info.IsPlain)
    (hrelation : info.relation = none)
    (hkeys : table.info.batchKeys? = some (thisKey, parentKey))
    (howner : ∀ column ∈ before ++ parentKey :: after, column.owner = none) :
    (parentTable info before after table).statement ctx = .ok (some
      ⟨.items (distinctItems ctx.dialect
          (columnItems info.aliasName [info.aliasName] (before ++ parentKey :: after))),
        some (.table info.reference info.aliasName), [], .always, [], none, none⟩) := by
  rw [List.forall_mem_append, List.forall_mem_cons] at howner
  have hkey : nodesContribution ctx info.aliasName [info.aliasName] [.table table] =
      .ok (keyContribution info.aliasName [info.aliasName] parentKey) := by
    apply nodesContribution_singleton
    exact Table.contribution_of_boundary hkeys
  have hnodes := nodesContribution_append (nodesContribution_columns howner.1)
    (nodesContribution_append hkey (nodesContribution_columns howner.2.2))
  have hitems : columnItems info.aliasName [info.aliasName] (before ++ parentKey :: after) =
      columnItems info.aliasName [info.aliasName] before ++
        ([(outputAlias [info.aliasName] parentKey.aliasName,
            .column info.aliasName parentKey.name)] ++
          columnItems info.aliasName [info.aliasName] after) :=
    columnItems_append _ _ _ _
  rw [hitems]
  exact Table.statement_eq (ownContribution_root hplain hrelation) hnodes (by
    simp [Contribution.append, Contribution.ofItems, keyContribution]) rfl

/-- The statement of a table with its child joined. -/
theorem statement_parent_of_join {condition : JoinCondition} (hplain : info.IsPlain)
    (hrelation : info.relation = none) (hchild : child.IsPlain)
    (hjoin : child.relation = some (.join condition))
    (howner : ∀ column ∈ before ++ after, column.owner = none)
    (hothers : ∀ column ∈ columns, column.owner = none) (hne : columns ≠ []) :
    (parentTable info before after (columnTable child columns)).statement ctx = .ok (some
      ⟨.items (distinctItems ctx.dialect
          (columnItems info.aliasName [info.aliasName] before ++
            (columnItems child.aliasName [info.aliasName, child.aliasName] columns ++
              columnItems info.aliasName [info.aliasName] after))),
        some (.table info.reference info.aliasName),
        [.left child.reference child.aliasName (.raw (condition.join
          (ctx.dialect.quote info.aliasName) (ctx.dialect.quote child.aliasName) child.args
            ctx.context))], .always, [], none, none⟩) := by
  rw [List.forall_mem_append] at howner
  have hhere : (child.isBoundary && (some info.aliasName).isSome) = false := by
    simp [TableInfo.isBoundary, TableInfo.batchKeys?, hjoin]
  have hnode : nodesContribution ctx info.aliasName [info.aliasName]
      [.table (columnTable child columns)] =
      .ok ((Contribution.ofClauses [.join (.left child.reference child.aliasName
        (.raw (condition.join (ctx.dialect.quote info.aliasName)
          (ctx.dialect.quote child.aliasName) child.args ctx.context)))]).append
            (.ofItems (columnItems child.aliasName [info.aliasName, child.aliasName]
              columns))) := by
    apply nodesContribution_singleton
    exact Table.contribution_eq hhere (ownContribution_join hchild hjoin)
      (nodesContribution_columns hothers)
  have hnodes := nodesContribution_append (nodesContribution_columns howner.1)
    (nodesContribution_append hnode (nodesContribution_columns howner.2))
  exact Table.statement_eq (ownContribution_root hplain hrelation) hnodes (by
    simp [Contribution.append, Contribution.ofItems, Contribution.ofClauses,
      columnItems_ne_nil hne]) rfl

end Statement

end JoinPlan.Plan
