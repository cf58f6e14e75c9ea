import JoinPlan.Proofs.Plan.Compiled
import JoinPlan.Proofs.Plan.NestedTables

/-!
# Compiling a request for a table with another one below it

A request selects columns of a root field's rows, a list field of these rows, and columns of
its rows in turn.  Its plan is written out, with the aliases its tables get; how the list
field is reached decides over nothing but the field's own relation.
-/

namespace JoinPlan.Plan

section Prune

variable {names : Namespace}

/-- Columns and tables need no columns besides. -/
theorem neededColumns_eq_nil {nodes : List Node}
    (h : ∀ node ∈ nodes, ∀ columns owner, node ≠ .dependencies columns owner) :
    neededColumns nodes = [] := by
  rw [neededColumns]
  have hreverse : ∀ node ∈ nodes.reverse, ∀ columns owner, node ≠ .dependencies columns owner :=
    fun node hnode => h node (List.mem_reverse.mp hnode)
  generalize nodes.reverse = reversed at hreverse
  induction reversed with
  | nil => rfl
  | cons node rest ih =>
      rw [List.forall_mem_cons] at hreverse
      rw [List.foldl_cons]
      cases node with
      | dependencies columns owner => exact absurd rfl (hreverse.1 columns owner)
      | _ => exact ih hreverse.2

theorem run_pure {α : Type} (value : α) :
    (pure value : StateM Namespace α) names = (value, names) := rfl

theorem pruneNodes_columns (columns : List Column) {nodes kept : List Node}
    (h : pruneNodes nodes names = (kept, names)) :
    pruneNodes (columnNodes columns ++ nodes) names = (columnNodes columns ++ kept, names) := by
  induction columns with
  | nil => exact h
  | cons column rest ih =>
      have hrest : pruneNodes (rest.map .column ++ nodes) names =
          (columnNodes rest ++ kept, names) := ih
      rw [columnNodes, List.map_cons, List.cons_append, pruneNodes]
      · simp [Node.prune, hrest, run_pure, bind, StateT.bind]
        rfl
      · simp

theorem prune_columnTable (names : Namespace) (info : TableInfo) (columns : List Column) :
    (columnTable info columns).prune names = (columnTable info columns, names) := by
  have hkept := pruneNodes_columns columns (show pruneNodes [] names = ([], names) from rfl)
  have hneeded : neededColumns (columnNodes columns) = [] :=
    neededColumns_eq_nil (by simp [columnNodes])
  rw [List.append_nil] at hkept
  rw [columnTable, Table.prune]
  simp [hkept, hneeded, pruneBuckets, run_pure, bind, StateT.bind]

theorem prune_parentTable (info : TableInfo) (before after : List Column) {table : Table Node}
    (htable : table.prune names = (table, names)) :
    (parentTable info before after table).prune names =
      (parentTable info before after table, names) := by
  have hafter := pruneNodes_columns after (show pruneNodes [] names = ([], names) from rfl)
  rw [List.append_nil] at hafter
  have hrest : pruneNodes (.table table :: columnNodes after) names =
      (.table table :: columnNodes after, names) := by
    rw [pruneNodes]
    · simp [Node.prune, htable, hafter, run_pure, bind, StateT.bind]
    · simp
  have hkept := pruneNodes_columns before hrest
  have hneeded : neededColumns (columnNodes before ++ .table table :: columnNodes after) = [] :=
    neededColumns_eq_nil (by
      rintro node hnode columns owner rfl
      simp [columnNodes] at hnode)
  rw [parentTable, Table.prune]
  simp [hkept, hneeded, pruneBuckets, run_pure, bind, StateT.bind]

end Prune

/-- A root field, a list field of its rows, and what is selected on both.  The list field is
selected first at `first`, after `front` and before `rest`. -/
structure NestedRequest where
  root : RowField
  args : Arguments
  field : RowField
  fragments : Fragments
  front : List Occurrence
  first : Occurrence
  rest : List Occurrence

namespace NestedRequest

variable (nested : NestedRequest) (env : Environment) (minify : Bool)

def rootAlias : String := ((Namespace.fresh minify).table nested.root.name).1

/-- The columns of the root's rows that are fetched before the list field. -/
def before : List (String × String) :=
  nested.root.ownEntries env nested.args (nested.rootAlias minify) ++
    selectedEntries nested.root.rows.type nested.front

def fieldAlias : String :=
  ((supplied ((Namespace.fresh minify).table nested.root.name).2
    (nested.before env minify)).table nested.field.name).1

/-- The columns of the root's rows that are fetched after the list field. -/
def after : List (String × String) :=
  nested.field.columnsBeside nested.root.rows.type nested.rest

/-- The columns fetched of the list field's rows, with those its relation needs. -/
def others (last : List (String × String)) : List (String × String) :=
  nested.field.entries env nested.first.args (nested.fieldAlias env minify)
      (nested.field.below nested.fragments nested.first) last ++
    nested.field.columnsBelow nested.fragments nested.rest

def rootInfo : TableInfo := nested.root.info env nested.args (nested.rootAlias minify) none

def fieldInfo (relation : Option Relation) : TableInfo :=
  nested.field.info env nested.first.args (nested.fieldAlias env minify) relation

/-- The plan, given the aliases there are in the end. -/
def plan (reach : Namespace → Option Relation) (last : List (String × String))
    (names : Namespace) : Table Node :=
  parentTable (nested.rootInfo env minify) (columnsUnder names (nested.before env minify))
    (columnsUnder names nested.after)
    (columnTable (nested.fieldInfo env minify (reach names))
      (columnsUnder names (nested.others env minify last)))

/-- The request asks for these fields, of the types that the schema has for them. -/
structure IsAsked (request : Request) : Prop where
  query : ∃ query, env.schema.type? request.parentType = some query ∧ nested.root.IsIn query
  rootRows : nested.root.rows.IsIn env.schema
  rootBare : nested.root.options.IsBare
  rootJoin : nested.root.options.sqlJoin = none
  rootBatch : nested.root.options.sqlBatch = none
  field : nested.field.IsIn nested.root.rows.type
  fieldRows : nested.field.rows.IsIn env.schema
  fragments : request.fragments = nested.fragments
  merged : ∃ selections, mergedField request = .ok ⟨nested.root.name, nested.args, selections⟩ ∧
    occurrences? nested.fragments nested.root.rows.scope nested.fragments.depth selections =
      some (nested.front ++ nested.first :: nested.rest)
  front : ∀ occurrence ∈ nested.front, occurrence.name ≠ nested.field.name
  first : nested.first.name = nested.field.name
  selects : ∀ occurrence ∈ nested.front ++ nested.first :: nested.rest,
    nested.field.SelectsColumns env.schema nested.fragments nested.root.rows.type occurrence

end NestedRequest

section Compile

variable {env : Environment} {nested : NestedRequest} {request : Request}
  {reach : Namespace → Option Relation} {keys last : List (String × String)}

/-- The columns selected before the list field are compiled to the first children of the plan. -/
theorem foldlM_front (hasked : nested.IsAsked env request) {minify : Bool} {between : Namespace}
    (hown : Supplies ((Namespace.fresh minify).table nested.root.name).2
      (nested.root.ownEntries env nested.args (nested.rootAlias minify)) between) :
    ∃ middle,
      nested.front.foldlM (selectField env nested.fragments nested.root.rows.scope)
          ⟨columnNodes (columnsUnder between
            (nested.root.ownEntries env nested.args (nested.rootAlias minify))), []⟩ between =
        .ok (⟨columnNodes (columnsUnder middle (nested.before env minify)), []⟩, middle) ∧
      Supplies ((Namespace.fresh minify).table nested.root.name).2 (nested.before env minify)
        middle ∧
      between.Grows middle := by
  have hselects := hasked.selects
  rw [List.forall_mem_append] at hselects
  obtain ⟨middle, hfront, hselected⟩ := @foldlM_columns env nested.fragments
    nested.root.rows.scope between ⟨columnNodes (columnsUnder between
      (nested.root.ownEntries env nested.args (nested.rootAlias minify))), []⟩ nested.front
    hasked.rootRows.kind rfl (fun occurrence hmem => (hselects.1 occurrence hmem).column
      (hasked.front occurrence hmem)) fun occurrence _ => isTableOf_columnNodes occurrence.name _
  have hkept : columnsUnder middle
        (nested.root.ownEntries env nested.args (nested.rootAlias minify)) =
      columnsUnder between (nested.root.ownEntries env nested.args (nested.rootAlias minify)) :=
    columnsUnder_of_grows hselected.grows hown.known
  refine ⟨middle, hfront.trans ?_, hown.append hselected, hselected.grows⟩
  rw [NestedRequest.before, columnsUnder_append, columnNodes_append, hkept]
  rfl

/-- Everything selected on the root's rows is compiled into the children of the plan. -/
theorem foldlM_selected (hasked : nested.IsAsked env request)
    (hreached : ReachedBy env nested.field.options reach keys last)
    (hrelation : checkRelation true nested.field.options nested.field.name
      nested.root.rows.name = .ok ()) {minify : Bool} {between : Namespace}
    (hown : Supplies ((Namespace.fresh minify).table nested.root.name).2
      (nested.root.ownEntries env nested.args (nested.rootAlias minify)) between) :
    ∃ names,
      (nested.front ++ nested.first :: nested.rest).foldlM
          (selectField env nested.fragments nested.root.rows.scope)
          ⟨columnNodes (columnsUnder between
            (nested.root.ownEntries env nested.args (nested.rootAlias minify))), []⟩ between =
        .ok (⟨(nested.plan env minify reach last names).shared, []⟩, names) ∧
      between.Grows names ∧
      ∀ entry ∈ keys ++ nested.before env minify ++ nested.after ++
        nested.others env minify last, names.Knows entry.1 := by
  have hselects := hasked.selects
  rw [List.forall_mem_append, List.forall_mem_cons] at hselects
  obtain ⟨-, hfirstSelects, hrestSelects⟩ := hselects
  obtain ⟨middle, hfront, hsupplied, hmiddle⟩ := foldlM_front hasked hown
  -- the list field, where it is selected first
  obtain ⟨below, hbelow, hcolumns⟩ := hfirstSelects.below hasked.first
  obtain ⟨later, hfirst, hentries⟩ := @selectField_new env nested.fragments
    nested.root.rows.scope middle nested.field nested.first reach keys last
    (nested.before env minify) rfl hasked.fieldRows hasked.field hrelation hreached hasked.first
    below hbelow hcolumns hsupplied.known
  have halias : (middle.table nested.field.name).1 = nested.fieldAlias env minify := by
    rw [show middle = _ from hsupplied]
    rfl
  have hfield : nested.field.below nested.fragments nested.first = below := by
    rw [RowField.below, hbelow]
    rfl
  have hgrows : middle.Grows later :=
    (middle.grows_table nested.field.name).trans hentries.grows
  rw [halias] at hfirst hentries
  -- what is selected after it
  obtain ⟨names, hrest, hafter, hknown⟩ := @foldlM_nested env nested.fragments
    nested.root.rows.scope later nested.field reach keys last (nested.before env minify) []
    (nested.field.entries env nested.first.args (nested.fieldAlias env minify) below last)
    (nested.fieldAlias env minify) nested.first.args hasked.rootRows.kind rfl hasked.fieldRows
    hasked.field hrelation hreached nested.rest hrestSelects (by
      intro entry hentry
      simp only [List.append_nil, List.mem_append] at hentry
      rcases hentry with (hkey | hbefore) | hother
      · exact hentries.known entry (List.mem_append.mpr (Or.inl hkey))
      · exact (hgrows.known entry.1 (hsupplied.known entry hbefore)).1
      · exact hentries.known entry (List.mem_append.mpr (Or.inr hother)))
  refine ⟨names, ?_, (hmiddle.trans hgrows).trans hafter, ?_⟩
  · rw [List.foldlM_append, Compile.run_bind hfront, List.foldlM_cons,
      Compile.run_bind hfirst, hrest, ← hfield]
    rfl
  · rw [List.nil_append, ← hfield] at hknown
    exact hknown

/-- The plan of the request. -/
theorem compile_nested (hasked : nested.IsAsked env request)
    (hreached : ReachedBy env nested.field.options reach keys last)
    (hrelation : checkRelation true nested.field.options nested.field.name
      nested.root.rows.name = .ok ()) (minify : Bool) :
    ∃ names, compile env minify request = .ok (nested.plan env minify reach last names) ∧
      (Namespace.fresh minify).Grows names ∧
      ∀ entry ∈ keys ++ nested.before env minify ++ nested.after ++
        nested.others env minify last, names.Knows entry.1 := by
  obtain ⟨query, hquery, hroot⟩ := hasked.query
  obtain ⟨selections, hmerged, hlisted⟩ := hasked.merged
  obtain ⟨between, hnew, hown⟩ := newTable_rows hasked.rootRows hasked.rootBare
    (reachedBy_root hasked.rootBare hasked.rootJoin hasked.rootBatch) nested.args
    (Namespace.fresh minify)
  obtain ⟨names, hselected, hgrows, hknown⟩ := foldlM_selected hasked hreached hrelation hown
  refine ⟨names, ?_, (((Namespace.fresh minify).grows_table nested.root.name).trans
    hown.grows).trans hgrows, hknown⟩
  have hselect := (congrFun (@select_occurrences env _ _ hasked.rootRows.kind _ _ _ hlisted _)
    between).trans hselected
  have htable := @compileTable_new env (Namespace.fresh minify) _ _ _
    (nested.root.tableField nested.args) nested.root.rows.type
    (selectAll env request.fragments selections .rows) between names hnew rfl rfl
    (by rw [hasked.fragments]; exact hselect)
  have hfield := @compileField_rows env request.fragments ⟨request.parentType, query, none⟩
    (Namespace.fresh minify) nested.root nested.args selections false
    (selectAll env request.fragments selections) none hasked.rootRows hroot rfl rfl
  have hnothing : lastColumns (nested.root.info env nested.args
      ((Namespace.fresh minify).table nested.root.name).1 none) none = [] := rfl
  have hprune := prune_parentTable (nested.rootInfo env minify)
    (columnsUnder names (nested.before env minify)) (columnsUnder names nested.after)
    (prune_columnTable names (nested.fieldInfo env minify (reach names))
      (columnsUnder names (nested.others env minify last)))
  have hmergedRun : (liftM (mergedField request) : Compile RequestedField)
      (Namespace.fresh minify) =
      .ok (⟨nested.root.name, nested.args, selections⟩, Namespace.fresh minify) := by
    rw [hmerged]
    rfl
  have hrun : compileWith env request (Namespace.fresh minify) =
      .ok (nested.plan env minify reach last names, names) := by
    rw [compileWith, hquery]
    change compileOn env request query _ = _
    rw [compileOn, Compile.run_bind hmergedRun, Compile.run_bind (hfield.trans htable)]
    simp only [hnothing, List.append_nil]
    exact congrArg Except.ok hprune
  rw [compile, StateT.run', hrun]
  rfl

end Compile

end JoinPlan.Plan
