import JoinPlan.Proofs.Plan.Filling

/-!
# Setting up a table

A table is set up with the columns that it needs whatever is selected on it: its unique
key, the key its batches are grouped by, and the columns it is paged by.  What orders its
rows is said once, by the table or by its junction, and is there when it is needed.
-/

namespace JoinPlan.Plan

/-! ### Nodes that stay -/

/-- The alias of the other table that a node's columns are read from. -/
def Node.owner? : Node → Option String
  | .column node => node.owner
  | .dependencies _ owner => owner
  | .composite _ _ _ owner => owner
  | .expression _ _ _ _ owner => owner
  | .table _ | .nothing => none

/-- A node that neither selecting nor merging changes: no table, and no dependencies. -/
def Node.IsFixed : Node → Prop
  | .table _ | .dependencies _ _ => False
  | .column _ | .composite _ _ _ _ | .expression _ _ _ _ _ | .nothing => True

/-- The nodes that fetch a unique key. -/
inductive FetchesKey (owner : Option String) : UniqueKey → Node → Prop
  | one (name aliasName : String) :
      FetchesKey owner (.one name) (.column ⟨name, name, aliasName, owner⟩)
  | many (names : List String) (aliasName : String) :
      FetchesKey owner (.many names) (.composite names (compositeName names) aliasName owner)

/-- Whether a column is fetched under its own name. -/
def FetchesColumn (nodes : List Node) (name : String) (owner : Option String) : Prop :=
  ∃ aliasName, Node.column ⟨name, name, aliasName, owner⟩ ∈ nodes

theorem FetchesKey.isFixed {owner : Option String} {key : UniqueKey} {node : Node}
    (h : FetchesKey owner key node) : node.IsFixed := by
  cases h <;> trivial

theorem FetchesKey.owner?_eq {owner : Option String} {key : UniqueKey} {node : Node}
    (h : FetchesKey owner key node) : node.owner? = owner := by
  cases h <;> rfl

/-! ### Tables -/

/-- The alias of the junction a table is reached through. -/
def TableInfo.junctionOwner? (info : TableInfo) : Option String :=
  info.junction?.map Junction.aliasName

/-- The columns a table needs are among its shared children, and what orders its rows is
said once. -/
structure Provided (schema : Schema) (info : TableInfo) (shared : List Node) : Prop where
  key : ∃ type options, schema.type? info.typeName = some type ∧ type.table = some options ∧
    ∃ node ∈ shared, FetchesKey none options.uniqueKey node
  batchKey : ∀ thisKey parentKey, info.batchKeys? = some (thisKey, parentKey) →
    .column thisKey ∈ shared
  sortKey : info.paginate = true → ∀ terms, info.effectiveSortKey? = some terms →
    ∀ term ∈ terms, FetchesColumn shared term.column
      (if info.sortKey.isSome then none else info.junctionOwner?)
  total : info.paginate = true → info.effectiveSortKey? = none →
    info.effectiveOrderBy?.isSome = true ∧
      FetchesColumn shared Sql.totalColumn info.junctionOwner?
  limit : info.limit.isSome = true → info.effectiveOrderBy?.isSome = true
  orderOnce : info.orderBy.isSome = true → ∀ junction, info.junction? = some junction →
    junction.orderBy = none
  keyOnce : info.sortKey.isSome = true → ∀ junction, info.junction? = some junction →
    junction.sortKey = none

theorem Provided.mono {schema : Schema} {info : TableInfo} {shared others : List Node}
    (h : Provided schema info shared)
    (hkept : ∀ node ∈ shared, node.IsFixed → node ∈ others) : Provided schema info others where
  key := by
    obtain ⟨type, options, htype, htable, node, hnode, hkey⟩ := h.key
    exact ⟨type, options, htype, htable, node, hkept node hnode hkey.isFixed, hkey⟩
  batchKey thisKey parentKey hkeys := hkept _ (h.batchKey thisKey parentKey hkeys) trivial
  sortKey hpaginate terms hterms term hterm := by
    obtain ⟨aliasName, hcolumn⟩ := h.sortKey hpaginate terms hterms term hterm
    exact ⟨aliasName, hkept _ hcolumn trivial⟩
  total hpaginate hterms := by
    obtain ⟨horder, aliasName, hcolumn⟩ := h.total hpaginate hterms
    exact ⟨horder, aliasName, hkept _ hcolumn trivial⟩
  limit := h.limit
  orderOnce := h.orderOnce
  keyOnce := h.keyOnce

theorem Provided.isAbstract {schema : Schema} {info : TableInfo} {shared : List Node}
    (h : Provided schema info shared) (isAbstract : Bool) :
    Provided schema { info with isAbstract } shared :=
  ⟨h.key, h.batchKey, h.sortKey, h.total, h.limit, h.orderOnce, h.keyOnce⟩

/-! ### Setting up a table -/

theorem keyNode_fetchesKey {names after : Namespace} {key : UniqueKey} {owner : Option String}
    {node : Node} (h : keyNode key owner names = .ok (node, after)) :
    FetchesKey owner key node := by
  cases keyNode_eq_ok h with
  | one name => exact .one name _
  | many columns => exact .many columns _

theorem ownColumns_fetchesColumns {names after : Namespace} {columns : List String}
    {owner : Option String} {nodes : List Node}
    (h : ownColumns columns owner names = .ok (nodes, after)) :
    (∀ name ∈ columns, FetchesColumn nodes name owner) ∧
      ∀ node ∈ nodes, node.IsFixed ∧ node.owner? = owner := by
  replace h := ownColumns_eq_ok h
  induction h with
  | nil => simp
  | cons name _ ih =>
      obtain ⟨hfetched, howned⟩ := ih
      rw [List.forall_mem_cons, List.forall_mem_cons]
      refine ⟨⟨⟨_, List.mem_cons_self⟩, ?_⟩, ⟨trivial, rfl⟩, howned⟩
      intro other hother
      obtain ⟨aliasName, hmem⟩ := hfetched other hother
      exact ⟨aliasName, List.mem_cons_of_mem _ hmem⟩

/-- How a field's options have its table reached, with the nodes that needs. -/
inductive Reached (options : FieldOptions) : Option Relation → List Node → Prop
  | root (hjoin : options.sqlJoin = none) (hjunction : options.junction = none)
      (hbatch : options.sqlBatch = none) : Reached options none []
  | join {condition : JoinCondition} (hjoin : options.sqlJoin = some condition) :
      Reached options (some (.join condition)) []
  | batch {thisKey parentKey : Column} (howner : thisKey.owner = none) :
      Reached options (some (.batch thisKey parentKey)) []
  | junctionJoins {junction : Junction} {toJunction toTarget : JoinCondition}
      {declared : JunctionOptions} (hdeclared : options.junction = some declared)
      (hjoins : declared.sqlJoins = some (toJunction, toTarget))
      (hfetch : junction.fetch = .joins toJunction toTarget) :
      Reached options (some (.junction junction)) []
  | junctionBatch {junction : Junction} {toTarget : JoinCondition} {thisKey parentKey : Column}
      {key : UniqueKey} {identity : Node}
      (hfetch : junction.fetch = .batch toTarget thisKey parentKey)
      (howner : thisKey.owner = some junction.aliasName)
      (hidentity : FetchesKey (some junction.aliasName) key identity) :
      Reached options (some (.junction junction)) [identity]

theorem JunctionSteps.reached {env : Environment} {field : TableField}
    {declared : JunctionOptions} (hdeclared : field.options.junction = some declared)
    {junction : Junction} {nodes : List Node} {names after : Namespace}
    (h : JunctionSteps env field declared names junction nodes after) :
    Reached field.options (some (.junction junction)) nodes := by
  have hsteps := h.fetch
  generalize hfetch : junction.fetch = fetch at hsteps
  cases hsteps with
  | joins hjoins => exact .junctionJoins hdeclared hjoins hfetch
  | batch hjoins hbatch hkey hidentity hthis hparent =>
      obtain ⟨rfl, -⟩ := ownColumn_eq_ok hthis
      exact .junctionBatch hfetch rfl (keyNode_fetchesKey hidentity)

theorem RelationSteps.reached {env : Environment} {field : TableField}
    {reached : Option Relation} {nodes : List Node} {names after : Namespace}
    (h : RelationSteps env field names reached nodes after) :
    Reached field.options reached nodes := by
  cases h with
  | root hjoin hjunction hbatch => exact .root hjoin hjunction hbatch
  | join hjoin => exact .join hjoin
  | junction hjoin hdeclared hsteps => exact hsteps.reached hdeclared
  | batch hjoin hjunction hbatch hthis hparent =>
      obtain ⟨rfl, -⟩ := ownColumn_eq_ok hthis
      exact .batch rfl

theorem pagingColumns_provide (info : TableInfo) {names after : Namespace} {nodes : List Node}
    (h : pagingColumns info.paginate info.sortKey info.junction? names = .ok (nodes, after)) :
    (∀ node ∈ nodes, node.IsFixed ∧
      ∀ owner, node.owner? = some owner → info.junctionOwner? = some owner) ∧
    (info.paginate = true → ∀ terms, info.effectiveSortKey? = some terms →
      ∀ term ∈ terms, FetchesColumn nodes term.column
        (if info.sortKey.isSome then none else info.junctionOwner?)) ∧
    (info.paginate = true → info.effectiveSortKey? = none →
      FetchesColumn nodes Sql.totalColumn info.junctionOwner?) := by
  unfold pagingColumns at h
  cases hpaginate : info.paginate with
  | false =>
      rw [hpaginate] at h
      obtain ⟨rfl, -⟩ := Compile.pure_eq_ok.mp h
      simp
  | true =>
      cases hsort : info.sortKey with
      | some terms =>
          rw [hpaginate, hsort] at h
          obtain ⟨hfetched, hfixed⟩ := ownColumns_fetchesColumns h
          refine ⟨fun node hnode => ⟨(hfixed node hnode).1, by simp [(hfixed node hnode).2]⟩, ?_,
            by simp [TableInfo.effectiveSortKey?, hsort]⟩
          simpa [TableInfo.effectiveSortKey?, hsort] using hfetched
      | none =>
          cases hjunction : info.junction?.bind Junction.sortKey with
          | some terms =>
              rw [hpaginate, hsort, hjunction] at h
              obtain ⟨hfetched, hfixed⟩ := ownColumns_fetchesColumns h
              refine ⟨fun node hnode => ⟨(hfixed node hnode).1, by simp [(hfixed node hnode).2,
                TableInfo.junctionOwner?]⟩, ?_,
                by simp [TableInfo.effectiveSortKey?, hsort, hjunction]⟩
              simpa [TableInfo.effectiveSortKey?, hsort, hjunction, TableInfo.junctionOwner?]
                using hfetched
          | none =>
              rw [hpaginate, hsort, hjunction] at h
              obtain ⟨hfetched, hfixed⟩ := ownColumns_fetchesColumns h
              refine ⟨fun node hnode => ⟨(hfixed node hnode).1, by simp [(hfixed node hnode).2,
                TableInfo.junctionOwner?]⟩,
                by simp [TableInfo.effectiveSortKey?, hsort, hjunction], fun _ _ => ?_⟩
              exact hfetched _ List.mem_cons_self

/-- A table set up for a field: what it needs is there, up to the key of its batches. -/
structure IsSetUp (env : Environment) (field : TableField) (table : Table Node) : Prop where
  fieldName : table.info.fieldName = field.name
  reached : ∃ nodes, Reached field.options table.info.relation nodes
  provided : Provided env.schema table.info (table.shared ++ lastColumns table.info none)
  nodes : ∀ node ∈ table.shared ++ lastColumns table.info none, node.IsFixed ∧
    ∀ owner, node.owner? = some owner → table.info.junctionOwner? = some owner
  typed : table.typed = []

theorem Reached.owner {options : FieldOptions} {info : TableInfo} {nodes : List Node}
    (h : Reached options info.relation nodes) :
    ∀ node ∈ nodes, node.IsFixed ∧
      ∀ owner, node.owner? = some owner → info.junctionOwner? = some owner := by
  generalize hrelation : info.relation = relation at h
  cases h with
  | root | join | batch | junctionJoins => simp
  | junctionBatch hfetch howner hidentity =>
      intro node hnode
      obtain rfl := List.mem_singleton.mp hnode
      refine ⟨hidentity.isFixed, ?_⟩
      simp [hidentity.owner?_eq, TableInfo.junctionOwner?, TableInfo.junction?, hrelation]

theorem Reached.owner_lastColumns {options : FieldOptions} {info : TableInfo} {nodes : List Node}
    (h : Reached options info.relation nodes) :
    ∀ node ∈ lastColumns info none, node.IsFixed ∧
      ∀ owner, node.owner? = some owner → info.junctionOwner? = some owner := by
  generalize hrelation : info.relation = relation at h
  cases h with
  | root | join => simp [lastColumns, TableInfo.batchKeys?, hrelation]
  | junctionJoins hdeclared hjoins hfetch =>
      simp [lastColumns, TableInfo.batchKeys?, hrelation, hfetch]
  | batch howner =>
      simp [lastColumns, TableInfo.batchKeys?, hrelation, Node.IsFixed, Node.owner?, howner]
  | junctionBatch hfetch howner hidentity =>
      simp [lastColumns, TableInfo.batchKeys?, hrelation, hfetch, Node.IsFixed, Node.owner?,
        howner, TableInfo.junctionOwner?, TableInfo.junction?]

theorem mem_lastColumns {info : TableInfo} {thisKey parentKey : Column}
    (h : info.batchKeys? = some (thisKey, parentKey)) :
    .column thisKey ∈ lastColumns info none := by
  simp [lastColumns, h]

theorem fieldSortKey_eq_ok {env : Environment} {field : TableField} {hasOrder : Bool}
    {junction : Option Junction} {sortKey : Option (List SortTerm)}
    (h : fieldSortKey env field hasOrder junction = .ok sortKey) :
    (sortKey.isSome = true → junction.bind Junction.sortKey = none) ∧
      (field.paginate = true → sortKey = none → junction.bind Junction.sortKey = none →
        hasOrder = true) := by
  unfold fieldSortKey at h
  split at h
  · unfold paginatedSortKey at h
    obtain ⟨found, -, h⟩ := bind_eq_ok.mp h
    dsimp only at h
    split at h
    · cases h
    · rename_i hboth
      split at h
      · cases h
      · rename_i hnone
        obtain rfl := Except.ok.inj h
        constructor
        · intro hsome
          simpa [hsome] using hboth
        · intro _ hsort hjunction
          simpa [hsort, hjunction] using hnone
  · rename_i hpaginate
    obtain rfl := Except.ok.inj h
    simp [hpaginate]

theorem FetchesColumn.mono {nodes others : List Node} {name : String} {owner : Option String}
    (h : FetchesColumn nodes name owner) (hsub : nodes ⊆ others) :
    FetchesColumn others name owner := by
  obtain ⟨aliasName, hcolumn⟩ := h
  exact ⟨aliasName, hsub hcolumn⟩

/-- What a table needs, from the checks made when it is set up. -/
theorem provided_of_parts {schema : Schema} {info : TableInfo} {options : TableOptions}
    {shared : List Node} {key : Node}
    (htype : ∃ type, schema.type? info.typeName = some type ∧ type.table = some options)
    (hkey : FetchesKey none options.uniqueKey key) (hmem : key ∈ shared)
    (honce : (info.orderBy.isSome && (info.junction?.bind Junction.orderBy).isSome) = false)
    (hlimited : (info.limit.isSome &&
      !(info.orderBy.isSome || (info.junction?.bind Junction.orderBy).isSome)) = false)
    (hkeyOnce : info.sortKey.isSome = true → info.junction?.bind Junction.sortKey = none)
    (hordered : info.paginate = true → info.sortKey = none →
      info.junction?.bind Junction.sortKey = none →
      (info.orderBy.isSome || (info.junction?.bind Junction.orderBy).isSome) = true)
    (hsortKey : info.paginate = true → ∀ terms, info.effectiveSortKey? = some terms →
      ∀ term ∈ terms, FetchesColumn shared term.column
        (if info.sortKey.isSome then none else info.junctionOwner?))
    (htotal : info.paginate = true → info.effectiveSortKey? = none →
      FetchesColumn shared Sql.totalColumn info.junctionOwner?)
    (hbatch : ∀ thisKey parentKey, info.batchKeys? = some (thisKey, parentKey) →
      .column thisKey ∈ shared) : Provided schema info shared where
  key := by
    obtain ⟨type, htype, htable⟩ := htype
    exact ⟨type, options, htype, htable, key, hmem, hkey⟩
  batchKey := hbatch
  sortKey := hsortKey
  total hpaginate hterms := by
    refine ⟨?_, htotal hpaginate hterms⟩
    simp only [TableInfo.effectiveSortKey?, Option.orElse_eq_orElse, Option.orElse_eq_or,
      Option.or_eq_none_iff] at hterms
    have horder := hordered hpaginate hterms.1 hterms.2
    simpa [TableInfo.effectiveOrderBy?] using horder
  limit hlimit := by
    rw [hlimit, Bool.true_and, Bool.not_eq_false'] at hlimited
    simpa [TableInfo.effectiveOrderBy?] using hlimited
  orderOnce horder junction hjunction := by
    simpa [horder, hjunction] using honce
  keyOnce hsort junction hjunction := by
    simpa [hjunction] using hkeyOnce hsort

theorem alwaysFetched_isFixed {env : Environment} {field : TableField} {aliasName : String}
    {names after : Namespace} {nodes : List Node}
    (h : alwaysFetched env field aliasName names = .ok (nodes, after)) :
    ∀ node ∈ nodes, node.IsFixed ∧ node.owner? = none := by
  obtain ⟨columns, hcolumns⟩ := exists_alwaysFetched_eq env field aliasName
  rw [hcolumns] at h
  exact (ownColumns_fetchesColumns h).2

theorem newTable_isSetUp {env : Environment} {scope : Scope} {nested : Bool} {field : TableField}
    (hfield : field.IsBacked env scope nested) {table : Table Node} {names after : Namespace}
    (h : newTable env field names = .ok (table, after)) : IsSetUp env field table := by
  obtain @⟨orderBy, sortKey, relation, key, nodes, always, paging, _, _, _, _, -, hsteps, honce,
    hlimited, hsort, hkey, halways, hpaging⟩ := newTable_eq_ok h
  have hreached := hsteps.reached
  have hkey := keyNode_fetchesKey hkey
  have halways := alwaysFetched_isFixed halways
  obtain ⟨hkeyOnce, hordered⟩ := fieldSortKey_eq_ok hsort
  obtain ⟨hpagingNodes, hpagingKey, hpagingTotal⟩ := pagingColumns_provide
    (field.noted env (names.table field.name).1 orderBy sortKey relation) hpaging
  have hmem (last : List Node) : paging ⊆ nodes ++ [key] ++ always ++ paging ++ last :=
    fun node hnode => List.mem_append_left _ (List.mem_append_right _ hnode)
  refine ⟨rfl, ⟨nodes, hreached⟩, ?_, ?_, rfl⟩
  · exact provided_of_parts hfield.table hkey (by simp) honce hlimited hkeyOnce hordered
      (fun hpaginate terms hterms term hterm =>
        (hpagingKey hpaginate terms hterms term hterm).mono (hmem _))
      (fun hpaginate hterms => (hpagingTotal hpaginate hterms).mono (hmem _))
      (fun thisKey parentKey hkeys => List.mem_append_right _ (mem_lastColumns hkeys))
  · simp only [List.forall_mem_append, List.forall_mem_singleton]
    exact ⟨⟨⟨⟨hreached.owner, hkey.isFixed, by simp [hkey.owner?_eq]⟩,
      fun node hnode => ⟨(halways node hnode).1, by simp [(halways node hnode).2]⟩⟩,
      hpagingNodes⟩, hreached.owner_lastColumns⟩

end JoinPlan.Plan
