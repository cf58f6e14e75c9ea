import JoinPlan.Plan.Compile
import JoinPlan.Proofs.Plan.Contributions

/-!
# The steps of setting up a table

A table is set up in a fixed order: it gets an alias, it is reached from its parent, what
orders its rows is checked, and the columns it needs are asked for.  What a run that succeeds
has done is said once for each of these functions, with the guards it has passed.  All that is
known about a new table follows from its steps.
-/

namespace JoinPlan.Plan

namespace Compile

variable {α β : Type} {names after : Namespace}

theorem bind_eq_ok {action : Compile α} {next : α → Compile β} {result : β × Namespace} :
    (action >>= next) names = .ok result ↔
      ∃ value between, action names = .ok (value, between) ∧ next value between = .ok result := by
  change (action names >>= fun found => next found.1 found.2) = .ok result ↔ _
  rw [JoinPlan.bind_eq_ok]
  simp [Prod.exists]

theorem pure_eq_ok {value result : α} :
    (pure value : Compile α) names = .ok (result, after) ↔ result = value ∧ after = names := by
  change Except.ok (value, names) = .ok (result, after) ↔ _
  rw [Except.ok.injEq, Prod.mk.injEq, eq_comm, @eq_comm _ names]

theorem map_eq_ok {action : Compile α} {f : α → β} {result : β} :
    (f <$> action) names = .ok (result, after) ↔
      ∃ value, action names = .ok (value, after) ∧ f value = result := by
  rw [map_eq_pure_bind, bind_eq_ok]
  constructor
  · rintro ⟨value, between, haction, hpure⟩
    obtain ⟨rfl, rfl⟩ := pure_eq_ok.mp hpure
    exact ⟨value, haction, rfl⟩
  · rintro ⟨value, haction, rfl⟩
    exact ⟨value, after, haction, pure_eq_ok.mpr ⟨rfl, rfl⟩⟩

theorem lift_eq_ok {action : Except ConfigurationError α} {result : α} :
    (liftM action : Compile α) names = .ok (result, after) ↔
      action = .ok result ∧ after = names := by
  cases action with
  | error error =>
      constructor
      · intro h
        cases h
      · rintro ⟨h, -⟩
        cases h
  | ok value =>
      change Except.ok (value, names) = .ok (result, after) ↔ _
      rw [Except.ok.injEq, Prod.mk.injEq, Except.ok.injEq, @eq_comm _ names]

theorem not_fail_eq_ok {error : ConfigurationError} {result : α × Namespace} :
    ¬ (fail error : Compile α) names = .ok result := by
  intro h
  cases h

theorem refuse_eq_ok {refused : Bool} {error : ConfigurationError} {result : Unit} :
    refuse refused error names = .ok (result, after) ↔ refused = false ∧ after = names := by
  cases refused with
  | true =>
      constructor
      · intro h
        exact absurd h not_fail_eq_ok
      · rintro ⟨h, -⟩
        cases h
  | false =>
      change (pure () : Compile Unit) names = .ok (result, after) ↔ _
      simp [pure_eq_ok]

theorem column_eq_ok {name aliasName : String} :
    column name names = .ok (aliasName, after) ↔
      aliasName = (names.column name).1 ∧ after = (names.column name).2 := by
  change Except.ok (names.column name) = .ok (aliasName, after) ↔ _
  rw [Except.ok.injEq, Prod.ext_iff, eq_comm, @eq_comm _ _ after]

theorem table_eq_ok {name aliasName : String} :
    table name names = .ok (aliasName, after) ↔
      aliasName = (names.table name).1 ∧ after = (names.table name).2 := by
  change Except.ok (names.table name) = .ok (aliasName, after) ↔ _
  rw [Except.ok.injEq, Prod.ext_iff, eq_comm, @eq_comm _ _ after]

end Compile

/-! ### Columns -/

theorem ownColumn_eq_ok {names after : Namespace} {name : String} {owner : Option String}
    {column : Column} (h : ownColumn name owner names = .ok (column, after)) :
    column = ⟨name, name, (names.column name).1, owner⟩ ∧ after = (names.column name).2 := by
  rw [ownColumn] at h
  obtain ⟨aliasName, between, hcolumn, h⟩ := Compile.bind_eq_ok.mp h
  obtain ⟨rfl, rfl⟩ := Compile.column_eq_ok.mp hcolumn
  exact Compile.pure_eq_ok.mp h

/-- The steps in which a unique key is fetched: by its column, or by a name made of those of its
columns. -/
inductive KeySteps (owner : Option String) (names : Namespace) :
    UniqueKey → Node → Namespace → Prop
  | one (name : String) :
      KeySteps owner names (.one name) (.column ⟨name, name, (names.column name).1, owner⟩)
        (names.column name).2
  | many (columns : List String) :
      KeySteps owner names (.many columns)
        (.composite columns (compositeName columns) (names.column (compositeName columns)).1 owner)
        (names.column (compositeName columns)).2

theorem keyNode_eq_ok {names after : Namespace} {key : UniqueKey} {owner : Option String}
    {node : Node} (h : keyNode key owner names = .ok (node, after)) :
    KeySteps owner names key node after := by
  cases key with
  | one name =>
      obtain ⟨column, hcolumn, rfl⟩ := Compile.map_eq_ok.mp h
      obtain ⟨rfl, rfl⟩ := ownColumn_eq_ok hcolumn
      exact .one name
  | many columns =>
      obtain ⟨aliasName, between, hcolumn, h⟩ := Compile.bind_eq_ok.mp h
      obtain ⟨rfl, rfl⟩ := Compile.column_eq_ok.mp hcolumn
      obtain ⟨rfl, rfl⟩ := Compile.pure_eq_ok.mp h
      exact .many columns

/-- The steps in which columns of one owner are fetched, one after the other. -/
inductive ColumnSteps (owner : Option String) :
    Namespace → List String → List Node → Namespace → Prop
  | nil (names : Namespace) : ColumnSteps owner names [] [] names
  | cons {names after : Namespace} (name : String) {rest : List String} {nodes : List Node}
      (hrest : ColumnSteps owner (names.column name).2 rest nodes after) :
      ColumnSteps owner names (name :: rest)
        (.column ⟨name, name, (names.column name).1, owner⟩ :: nodes) after

theorem ownColumns_eq_ok {names after : Namespace} {columns : List String}
    {owner : Option String} {nodes : List Node}
    (h : ownColumns columns owner names = .ok (nodes, after)) :
    ColumnSteps owner names columns nodes after := by
  unfold ownColumns at h
  induction columns generalizing names nodes with
  | nil =>
      obtain ⟨rfl, rfl⟩ := Compile.pure_eq_ok.mp h
      exact .nil after
  | cons name rest ih =>
      rw [List.mapM_cons] at h
      obtain ⟨node, between, hnode, hrest⟩ := Compile.bind_eq_ok.mp h
      obtain ⟨others, last, hothers, hpure⟩ := Compile.bind_eq_ok.mp hrest
      obtain ⟨column, hcolumn, rfl⟩ := Compile.map_eq_ok.mp hnode
      obtain ⟨rfl, rfl⟩ := ownColumn_eq_ok hcolumn
      obtain ⟨rfl, rfl⟩ := Compile.pure_eq_ok.mp hpure
      exact .cons name (ih hothers)

/-- The columns that are always fetched are asked for as columns of the table. -/
theorem exists_alwaysFetched_eq (env : Environment) (field : TableField) (aliasName : String) :
    ∃ columns, alwaysFetched env field aliasName = ownColumns columns none := by
  unfold alwaysFetched
  split
  · exact ⟨[], rfl⟩
  · exact ⟨_, rfl⟩

/-- The columns a table is paged by are asked for as columns of the table or of its junction. -/
theorem exists_pagingColumns_eq (paginate : Bool) (sortKey : Option (List SortTerm))
    (junction : Option Junction) :
    ∃ columns owner, pagingColumns paginate sortKey junction = ownColumns columns owner := by
  unfold pagingColumns
  dsimp only
  split
  · exact ⟨[], none, rfl⟩
  all_goals exact ⟨_, _, rfl⟩

/-! ### Relations -/

section Relation

variable {env : Environment} {field : TableField} {declared : JunctionOptions}
  {nodes : List Node} {names after : Namespace}

/-- The steps in which the rows of a junction are fetched. -/
inductive FetchSteps (declared : JunctionOptions) (aliasName : String) (names : Namespace) :
    JunctionFetch → List Node → Namespace → Prop
  | joins {toJunction toTarget : JoinCondition}
      (hjoins : declared.sqlJoins = some (toJunction, toTarget)) :
      FetchSteps declared aliasName names (.joins toJunction toTarget) [] names
  | batch {batch : JunctionBatchOption} {key : UniqueKey} {identity : Node}
      {thisKey parentKey : Column} {keyed this after : Namespace}
      (hjoins : declared.sqlJoins = none) (hbatch : declared.sqlBatch = some batch)
      (hkey : declared.uniqueKey = some key)
      (hidentity : keyNode key (some aliasName) names = .ok (identity, keyed))
      (hthis : ownColumn batch.thisKey (some aliasName) keyed = .ok (thisKey, this))
      (hparent : ownColumn batch.parentKey none this = .ok (parentKey, after)) :
      FetchSteps declared aliasName names (.batch batch.sqlJoin thisKey parentKey) [identity] after

theorem junctionFetch_eq_ok {fieldName aliasName : String} {fetch : JunctionFetch}
    (h : junctionFetch fieldName aliasName declared names = .ok ((fetch, nodes), after)) :
    FetchSteps declared aliasName names fetch nodes after := by
  unfold junctionFetch at h
  cases hjoins : declared.sqlJoins with
  | some joins =>
      rw [hjoins] at h
      obtain ⟨hfetched, rfl⟩ := Compile.pure_eq_ok.mp h
      obtain ⟨rfl, rfl⟩ := Prod.mk.inj hfetched
      exact .joins hjoins
  | none =>
      cases hbatch : declared.sqlBatch with
      | none =>
          rw [hjoins, hbatch] at h
          exact absurd h Compile.not_fail_eq_ok
      | some batch =>
          cases hkey : declared.uniqueKey with
          | none =>
              rw [hjoins, hbatch, hkey] at h
              exact absurd h Compile.not_fail_eq_ok
          | some key =>
              rw [hjoins, hbatch, hkey] at h
              obtain ⟨identity, keyed, hidentity, h⟩ := Compile.bind_eq_ok.mp h
              obtain ⟨thisKey, this, hthis, h⟩ := Compile.bind_eq_ok.mp h
              obtain ⟨parentKey, parent, hparent, h⟩ := Compile.bind_eq_ok.mp h
              obtain ⟨hfetched, rfl⟩ := Compile.pure_eq_ok.mp h
              obtain ⟨rfl, rfl⟩ := Prod.mk.inj hfetched
              exact .batch hjoins hbatch hkey hidentity hthis hparent

/-- The steps in which a junction is opened. -/
structure JunctionSteps (env : Environment) (field : TableField) (declared : JunctionOptions)
    (names : Namespace) (junction : Junction) (nodes : List Node) (after : Namespace) : Prop where
  aliasName : junction.aliasName = (names.table junction.reference).1
  orderBy : resolveTerms OrderByOption.terms field.args env.context declared.orderBy =
    .ok junction.orderBy
  sortKey : resolveTerms SortKeyOption.terms field.args env.context
    (if field.paginate then declared.sortKey else none) = .ok junction.sortKey
  condition : junction.condition = declared.condition
  fetch : FetchSteps declared junction.aliasName (names.table junction.reference).2 junction.fetch
    nodes after

theorem junctionNode_eq_ok {junction : Junction}
    (h : junctionNode env field declared names = .ok ((junction, nodes), after)) :
    JunctionSteps env field declared names junction nodes after := by
  obtain ⟨aliasName, opened, halias, h⟩ := Compile.bind_eq_ok.mp h
  obtain ⟨orderBy, ordered, horder, h⟩ := Compile.bind_eq_ok.mp h
  obtain ⟨sortKey, sorted, hsort, h⟩ := Compile.bind_eq_ok.mp h
  obtain ⟨fetched, done, hfetched, h⟩ := Compile.bind_eq_ok.mp h
  obtain ⟨hjunction, rfl⟩ := Compile.pure_eq_ok.mp h
  obtain ⟨rfl, rfl⟩ := Prod.mk.inj hjunction
  obtain ⟨rfl, rfl⟩ := Compile.table_eq_ok.mp halias
  obtain ⟨hterms, rfl⟩ := Compile.lift_eq_ok.mp horder
  obtain ⟨hkeyTerms, rfl⟩ := Compile.lift_eq_ok.mp hsort
  exact ⟨rfl, hterms, hkeyTerms, rfl, junctionFetch_eq_ok hfetched⟩

/-- The steps in which a table is reached from its parent. -/
inductive RelationSteps (env : Environment) (field : TableField) (names : Namespace) :
    Option Relation → List Node → Namespace → Prop
  | root (hjoin : field.options.sqlJoin = none) (hjunction : field.options.junction = none)
      (hbatch : field.options.sqlBatch = none) : RelationSteps env field names none [] names
  | join {condition : JoinCondition} (hjoin : field.options.sqlJoin = some condition) :
      RelationSteps env field names (some (.join condition)) [] names
  | junction {declared : JunctionOptions} {junction : Junction} {nodes : List Node}
      {after : Namespace} (hjoin : field.options.sqlJoin = none)
      (hdeclared : field.options.junction = some declared)
      (hsteps : JunctionSteps env field declared names junction nodes after) :
      RelationSteps env field names (some (.junction junction)) nodes after
  | batch {batch : BatchOption} {thisKey parentKey : Column} {this after : Namespace}
      (hjoin : field.options.sqlJoin = none) (hjunction : field.options.junction = none)
      (hbatch : field.options.sqlBatch = some batch)
      (hthis : ownColumn batch.thisKey none names = .ok (thisKey, this))
      (hparent : ownColumn batch.parentKey none this = .ok (parentKey, after)) :
      RelationSteps env field names (some (.batch thisKey parentKey)) [] after

theorem relation_eq_ok {reached : Option Relation}
    (h : relation env field names = .ok ((reached, nodes), after)) :
    RelationSteps env field names reached nodes after := by
  unfold relation at h
  cases hjoin : field.options.sqlJoin with
  | some condition =>
      rw [hjoin] at h
      obtain ⟨hreached, rfl⟩ := Compile.pure_eq_ok.mp h
      obtain ⟨rfl, rfl⟩ := Prod.mk.inj hreached
      exact .join hjoin
  | none =>
      cases hjunction : field.options.junction with
      | some declared =>
          rw [hjoin, hjunction] at h
          obtain ⟨found, between, hfound, h⟩ := Compile.bind_eq_ok.mp h
          obtain ⟨hreached, rfl⟩ := Compile.pure_eq_ok.mp h
          obtain ⟨rfl, rfl⟩ := Prod.mk.inj hreached
          exact .junction hjoin hjunction (junctionNode_eq_ok hfound)
      | none =>
          cases hbatch : field.options.sqlBatch with
          | some batch =>
              rw [hjoin, hjunction, hbatch] at h
              obtain ⟨thisKey, this, hthis, h⟩ := Compile.bind_eq_ok.mp h
              obtain ⟨parentKey, parent, hparent, h⟩ := Compile.bind_eq_ok.mp h
              obtain ⟨hreached, rfl⟩ := Compile.pure_eq_ok.mp h
              obtain ⟨rfl, rfl⟩ := Prod.mk.inj hreached
              exact .batch hjoin hjunction hbatch hthis hparent
          | none =>
              rw [hjoin, hjunction, hbatch] at h
              obtain ⟨hreached, rfl⟩ := Compile.pure_eq_ok.mp h
              obtain ⟨rfl, rfl⟩ := Prod.mk.inj hreached
              exact .root hjoin hjunction hbatch

end Relation

/-! ### Tables -/

/-- What is noted of a table that is set up for a field, under an alias and with an ordering,
a sort key and a relation. -/
def TableField.noted (env : Environment) (field : TableField) (aliasName : String)
    (orderBy sortKey : Option (List SortTerm)) (reached : Option Relation) : TableInfo where
  fieldName := field.name
  typeName := field.typeName
  isAbstract := field.kind.isAbstract
  reference := field.table.sqlTable.resolve field.args env.context
  aliasName
  args := field.args
  many := field.many
  paginate := field.paginate
  orderBy
  sortKey
  limit := field.options.limit.map (Computed.resolve field.args env.context)
  condition := field.options.condition
  relation := reached

/-- The steps in which a table is set up for a field. -/
inductive TableSteps (env : Environment) (field : TableField) (names : Namespace) :
    Table Node → Namespace → Prop
  | intro {orderBy sortKey : Option (List SortTerm)} {reached : Option Relation} {key : Node}
      {nodes always paging : List Node} {between keyed fetched after : Namespace}
      (horder : resolveTerms OrderByOption.terms field.args env.context field.options.orderBy =
        .ok orderBy)
      (hreached : RelationSteps env field (names.table field.name).2 reached nodes between)
      (honce : (orderBy.isSome &&
        ((relationJunction? reached).bind Junction.orderBy).isSome) = false)
      (hlimited : ((field.options.limit.map (Computed.resolve field.args env.context)).isSome &&
        !(orderBy.isSome || ((relationJunction? reached).bind Junction.orderBy).isSome)) = false)
      (hsort : fieldSortKey env field
        (orderBy.isSome || ((relationJunction? reached).bind Junction.orderBy).isSome)
        (relationJunction? reached) = .ok sortKey)
      (hkey : keyNode field.table.uniqueKey none between = .ok (key, keyed))
      (halways : alwaysFetched env field (names.table field.name).1 keyed = .ok (always, fetched))
      (hpaging : pagingColumns field.paginate sortKey (relationJunction? reached) fetched =
        .ok (paging, after)) :
      TableSteps env field names
        ⟨field.noted env (names.table field.name).1 orderBy sortKey reached,
          nodes ++ [key] ++ always ++ paging, []⟩ after

theorem newTable_eq_ok {env : Environment} {field : TableField} {table : Table Node}
    {names after : Namespace} (h : newTable env field names = .ok (table, after)) :
    TableSteps env field names table after := by
  obtain ⟨aliasName, opened, halias, h⟩ := Compile.bind_eq_ok.mp h
  obtain ⟨orderBy, ordered, horder, h⟩ := Compile.bind_eq_ok.mp h
  obtain ⟨⟨reached, nodes⟩, between, hreached, h⟩ := Compile.bind_eq_ok.mp h
  obtain ⟨_, once, honce, h⟩ := Compile.bind_eq_ok.mp h
  obtain ⟨_, limited, hlimited, h⟩ := Compile.bind_eq_ok.mp h
  obtain ⟨sortKey, sorted, hsort, h⟩ := Compile.bind_eq_ok.mp h
  obtain ⟨key, keyed, hkey, h⟩ := Compile.bind_eq_ok.mp h
  obtain ⟨always, fetched, halways, h⟩ := Compile.bind_eq_ok.mp h
  obtain ⟨paging, paged, hpaging, h⟩ := Compile.bind_eq_ok.mp h
  obtain ⟨rfl, rfl⟩ := Compile.pure_eq_ok.mp h
  obtain ⟨rfl, rfl⟩ := Compile.table_eq_ok.mp halias
  obtain ⟨hterms, rfl⟩ := Compile.lift_eq_ok.mp horder
  obtain ⟨horderedOnce, rfl⟩ := Compile.refuse_eq_ok.mp honce
  obtain ⟨hlimitOrdered, rfl⟩ := Compile.refuse_eq_ok.mp hlimited
  obtain ⟨hkeyTerms, rfl⟩ := Compile.lift_eq_ok.mp hsort
  exact .intro hterms (relation_eq_ok hreached) horderedOnce hlimitOrdered hkeyTerms hkey halways
    hpaging

end JoinPlan.Plan
