import JoinPlan.Proofs.Plan.PageOrder
import JoinPlan.Proofs.Plan.SchemaErrors
import JoinPlan.Proofs.Plan.TableOrigins

/-!
# The order a page is cut in

A page is cut in the order of the columns that an option of its field names: the sort key of
the field or of its junction if it is paginated, and its ordering otherwise.  A field with a
limit or pages and no such option is refused when its table is set up.  An option that is
there and names no column is not, and the page of its field has no order.
-/

namespace JoinPlan

/-! ### The columns an option names -/

def OrderByOption.columns : OrderByOption → List String
  | .column name => [name]
  | .mapping directions => directions.map Prod.fst
  | .list orderings => orderings.map OrderingOption.column

theorem map_column_of_mapM {α : Type} {items : List α}
    {term : α → Except ConfigurationError SortTerm} {column : α → String}
    (hterm : ∀ item found, term item = .ok found → found.column = column item)
    {terms : List SortTerm} (h : items.mapM term = .ok terms) :
    terms.map SortTerm.column = items.map column := by
  induction items generalizing terms with
  | nil =>
      obtain rfl := Except.ok.inj h
      rfl
  | cons item rest ih =>
      rw [List.mapM_cons] at h
      obtain ⟨first, hfirst, h⟩ := bind_eq_ok.mp h
      obtain ⟨others, hothers, h⟩ := bind_eq_ok.mp h
      obtain rfl := Except.ok.inj h
      rw [List.map_cons, List.map_cons, hterm item first hfirst, ih hothers]

theorem SortTerm.column_of_parse {column direction : String} {term : SortTerm}
    (h : SortTerm.parse column direction = .ok term) : term.column = column := by
  obtain ⟨parsed, -, h⟩ := bind_eq_ok.mp h
  obtain rfl := Except.ok.inj h
  rfl

/-- Whatever form an ordering has, it comes down to the columns it names. -/
theorem OrderByOption.map_column_terms {option : OrderByOption} {terms : List SortTerm}
    (h : option.terms = .ok terms) : terms.map SortTerm.column = option.columns := by
  cases option with
  | column name =>
      obtain rfl := Except.ok.inj h
      rfl
  | mapping directions => exact map_column_of_mapM (fun _ _ => SortTerm.column_of_parse) h
  | list orderings => exact map_column_of_mapM (fun _ _ => SortTerm.column_of_parse) h

theorem SortKeyOption.map_column_terms {option : SortKeyOption} {terms : List SortTerm}
    (h : option.terms = .ok terms) : terms.map SortTerm.column = option.columns := by
  cases option with
  | key direction names =>
      obtain ⟨parsed, -, h⟩ := bind_eq_ok.mp h
      obtain rfl := Except.ok.inj h
      simp [columns, Function.comp_def]
  | list orderings => exact map_column_of_mapM (fun _ _ => SortTerm.column_of_parse) h

namespace Plan

open Sql

/-- The columns that an option names for some arguments, if the option is there. -/
def namedColumns? {α : Type} (columns : α → List String) (args : Arguments) (context : Context) :
    Option (Computed α) → Option (List String) :=
  Option.map fun option => columns (option.resolve args context)

theorem resolveTerms_columns {α : Type} {terms : α → Except ConfigurationError (List SortTerm)}
    {columns : α → List String}
    (hterms : ∀ {option found}, terms option = .ok found →
      found.map SortTerm.column = columns option)
    {args : Arguments} {context : Context} {option : Option (Computed α)}
    {resolved : Option (List SortTerm)}
    (h : resolveTerms terms args context option = .ok resolved) :
    resolved.map (List.map SortTerm.column) = namedColumns? columns args context option := by
  cases option with
  | none =>
      obtain rfl := Except.ok.inj h
      rfl
  | some option =>
      rw [resolveTerms, map_eq_pure_bind] at h
      obtain ⟨found, hfound, h⟩ := bind_eq_ok.mp h
      obtain rfl := Except.ok.inj h
      exact congrArg some (hterms hfound)

/-! ### What a field is ordered by -/

namespace TableField

variable (env : Environment) (field : TableField)

/-- The options of the junction that a field is reached through. -/
def junctionOptions? : Option JunctionOptions :=
  match field.options.sqlJoin with
  | some _ => none
  | none => field.options.junction

/-- The columns that the ordering of a field names, or failing that its junction's. -/
def orderByColumns? : Option (List String) :=
  namedColumns? OrderByOption.columns field.args env.context field.options.orderBy <|>
    namedColumns? OrderByOption.columns field.args env.context
      (field.junctionOptions?.bind JunctionOptions.orderBy)

/-- The columns that the sort key of a paginated field names, or failing that its junction's. -/
def sortKeyColumns? : Option (List String) :=
  if field.paginate then
    namedColumns? SortKeyOption.columns field.args env.context field.options.sortKey <|>
      namedColumns? SortKeyOption.columns field.args env.context
        (field.junctionOptions?.bind JunctionOptions.sortKey)
  else none

/-- The columns that the pages of a field are cut by. -/
def pageColumns? : Option (List String) :=
  field.sortKeyColumns? env <|> field.orderByColumns? env

/-- A field whose rows are limited or paginated without an option that orders them. -/
def LacksOrdering : Prop :=
  (field.options.limit.isSome = true ∧ field.orderByColumns? env = none) ∨
    (field.paginate = true ∧ field.pageColumns? env = none)

/-- Terms over the columns that are named for the pages of a field, in their order. -/
def CutsBy (info : TableInfo) (order : List OrderTerm) : Prop :=
  ∃ columns aliasName, field.pageColumns? env = some columns ∧ aliasName ∈ info.tableAliases ∧
    order.map OrderTerm.target = columns.map (Expression.column aliasName)

/-- What is known about the order of a table that is set up for a field. -/
structure Orders (info : TableInfo) : Prop where
  paged : isPaged info = (field.paginate || field.options.limit.isSome)
  orderBy : info.effectiveOrderBy?.map (List.map SortTerm.column) = field.orderByColumns? env
  sortKey : info.effectiveSortKey?.map (List.map SortTerm.column) = field.sortKeyColumns? env
  ordered : ¬ field.LacksOrdering env

end TableField

section Field

variable {env : Environment} {field : TableField}

theorem JunctionSteps.columns {declared : JunctionOptions} {junction : Junction}
    {nodes : List Node} {names after : Namespace}
    (h : JunctionSteps env field declared names junction nodes after) :
    junction.orderBy.map (List.map SortTerm.column) =
        namedColumns? OrderByOption.columns field.args env.context declared.orderBy ∧
      junction.sortKey.map (List.map SortTerm.column) =
        namedColumns? SortKeyOption.columns field.args env.context
          (if field.paginate then declared.sortKey else none) :=
  ⟨resolveTerms_columns OrderByOption.map_column_terms h.orderBy,
    resolveTerms_columns SortKeyOption.map_column_terms h.sortKey⟩

/-- The junction in a relation is the one that is declared, and ordered as it is declared. -/
theorem RelationSteps.columns {reached : Option Relation} {nodes : List Node}
    {names after : Namespace} (h : RelationSteps env field names reached nodes after) :
    ((relationJunction? reached).bind Junction.orderBy).map (List.map SortTerm.column) =
        namedColumns? OrderByOption.columns field.args env.context
          (field.junctionOptions?.bind JunctionOptions.orderBy) ∧
      ((relationJunction? reached).bind Junction.sortKey).map (List.map SortTerm.column) =
        if field.paginate then
          namedColumns? SortKeyOption.columns field.args env.context
            (field.junctionOptions?.bind JunctionOptions.sortKey)
        else none := by
  unfold TableField.junctionOptions?
  cases h with
  | root hjoin hjunction => simp [relationJunction?, namedColumns?, hjoin, hjunction]
  | join hjoin => simp [relationJunction?, namedColumns?, hjoin]
  | batch hjoin hjunction => simp [relationJunction?, namedColumns?, hjoin, hjunction]
  | junction hjoin hdeclared hsteps =>
      obtain ⟨horder, hsort⟩ := hsteps.columns
      rw [hjoin, hdeclared]
      refine ⟨horder, hsort.trans ?_⟩
      split <;> rfl

theorem fieldSortKey_columns {hasOrder : Bool} {junction : Option Junction}
    {sortKey : Option (List SortTerm)}
    (h : fieldSortKey env field hasOrder junction = .ok sortKey) :
    sortKey.map (List.map SortTerm.column) =
      if field.paginate then
        namedColumns? SortKeyOption.columns field.args env.context field.options.sortKey
      else none := by
  unfold fieldSortKey at h
  split at h
  · rename_i hpaginate
    unfold paginatedSortKey at h
    obtain ⟨found, hfound, h⟩ := bind_eq_ok.mp h
    dsimp only at h
    rw [if_pos hpaginate, ← resolveTerms_columns SortKeyOption.map_column_terms hfound]
    split at h
    · cases h
    · split at h
      · cases h
      · obtain rfl := Except.ok.inj h
        rfl
  · rename_i hpaginate
    obtain rfl := Except.ok.inj h
    rw [if_neg hpaginate]
    rfl

theorem map_orElse {α β : Type} (f : α → β) (first second : Option α) :
    (first <|> second).map f = (first.map f <|> second.map f) := by
  simp only [Option.orElse_eq_orElse, Option.orElse_eq_or, Option.map_or]

/-- A table that was set up is ordered as its field declares, and ordered if it has to be. -/
theorem newTable_orders {table : Table Node} {names after : Namespace}
    (h : newTable env field names = .ok (table, after)) : field.Orders env table.info := by
  obtain @⟨orderBy, sortKey, relation, _, _, _, _, _, _, _, _, horder, hsteps, -, hlimited, hsort,
    -, -, -⟩ := newTable_eq_ok h
  obtain ⟨hjunctionOrder, hjunctionSort⟩ := hsteps.columns
  have hown := resolveTerms_columns OrderByOption.map_column_terms horder
  have hownKey := fieldSortKey_columns hsort
  obtain ⟨-, hneeded⟩ := fieldSortKey_eq_ok hsort
  have horderBy : (orderBy <|> (relationJunction? relation).bind Junction.orderBy).map
      (List.map SortTerm.column) = field.orderByColumns? env := by
    rw [map_orElse, hown, hjunctionOrder]
    rfl
  have hsortKey : (sortKey <|> (relationJunction? relation).bind Junction.sortKey).map
      (List.map SortTerm.column) = field.sortKeyColumns? env := by
    rw [map_orElse, hownKey, hjunctionSort]
    unfold TableField.sortKeyColumns?
    split <;> rfl
  refine ⟨by simp [isPaged, TableField.noted], horderBy, hsortKey, ?_⟩
  rintro (⟨hlimit, hnone⟩ | ⟨hpaginate, hnone⟩)
  · rw [← horderBy, Option.map_eq_none_iff, Option.orElse_eq_orElse, Option.orElse_eq_or,
      Option.or_eq_none_iff] at hnone
    simp [hlimit, hnone.1, hnone.2] at hlimited
  · rw [TableField.pageColumns?, ← horderBy, ← hsortKey] at hnone
    simp only [Option.orElse_eq_orElse, Option.orElse_eq_or, Option.or_eq_none_iff,
      Option.map_eq_none_iff] at hnone
    obtain ⟨⟨hkey, hjunctionKey⟩, horder, hjunctionOrder⟩ := hnone
    have hordered := hneeded hpaginate hkey hjunctionKey
    simp [horder, hjunctionOrder] at hordered

/-- A field that has to be ordered and is not is refused as a mistake in the schema. -/
theorem newTable_of_lacksOrdering (h : field.LacksOrdering env) (names : Namespace) :
    ∃ cause, newTable env field names = .error (.configuration cause) := by
  cases hrun : newTable env field names with
  | error error =>
      obtain ⟨cause, rfl⟩ := newTable_blames field names error hrun
      exact ⟨cause, rfl⟩
  | ok found => exact absurd h (newTable_orders hrun).ordered

theorem TableInfo.IsSetUpFor.orders {info : TableInfo} (h : info.IsSetUpFor env field) :
    field.Orders env info := by
  obtain ⟨names, table, after, isAbstract, hnew, rfl⟩ := h
  have horders := newTable_orders hnew
  exact ⟨horders.paged, horders.orderBy, horders.sortKey, horders.ordered⟩

end Field

/-! ### The pages of a table -/

section Pages

variable {env : Environment} {field : TableField} {info : TableInfo}

theorem sortOwner_mem_tableAliases (info : TableInfo) (own : Bool) :
    sortOwner info own ∈ info.tableAliases := by
  unfold sortOwner TableInfo.tableAliases TableInfo.junctionAlias
  cases own <;> cases info.junction? <;> simp

theorem map_target_orderTerms (aliasName : String) (terms : List SortTerm) :
    (Paging.orderTerms aliasName terms).map OrderTerm.target =
      (terms.map SortTerm.column).map (Expression.column aliasName) := by
  simp [Paging.orderTerms, Function.comp_def]

theorem TableField.CutsBy.eq_nil_iff {order : List OrderTerm} (h : field.CutsBy env info order) :
    order = [] ↔ field.pageColumns? env = some [] := by
  obtain ⟨columns, aliasName, hcolumns, -, htargets⟩ := h
  rw [hcolumns, Option.some_inj, ← List.map_eq_nil_iff (f := OrderTerm.target), htargets,
    List.map_eq_nil_iff]

/-- The parameters of a page order it by the columns that are named for it. -/
theorem pageParameters_cutsBy (horders : field.Orders env info) {parameters : PageParameters}
    (h : pageParameters info = .ok parameters) : field.CutsBy env info parameters.order := by
  have hcolumns : field.pageColumns? env =
      (info.effectiveSortKey? <|> info.effectiveOrderBy?).map (List.map SortTerm.column) := by
    rw [map_orElse, horders.sortKey, horders.orderBy]
    rfl
  rw [TableField.CutsBy, hcolumns, pageParameters_order h]
  cases hkey : info.effectiveSortKey? with
  | some terms =>
      refine ⟨_, _, rfl, sortOwner_mem_tableAliases info info.sortKey.isSome, ?_⟩
      simp only [Option.isSome_some, if_true, sortKeyTerms, hkey, Option.map_some, orderTermsOf,
        map_target_orderTerms, map_column_directed]
  | none =>
      cases hterms : info.effectiveOrderBy? with
      | some terms =>
          refine ⟨_, _, rfl, sortOwner_mem_tableAliases info info.orderBy.isSome, ?_⟩
          simp only [Option.isSome_none, Bool.false_eq_true, if_false, orderingTerms, hterms,
            orderTermsOf, map_target_orderTerms]
      | none =>
          unfold pageParameters at h
          obtain ⟨arguments, -, h⟩ := bind_eq_ok.mp h
          rw [hkey, hterms] at h
          cases h

end Pages

/-- Pages are ordered unless the option in force names no column.  A request for a field has a
plan or fails with a configuration error, and setting up a table fails with one if its field has
a limit or pages and no option that orders them.  So every table of a plan was set up for a field
that has one, and every page made for the table, whether the dialect can write it or not, is
ordered by the columns that the option names: it has no order exactly if there are none.  The
pages of a statement are those of the tables it joins. -/
theorem pages_ordered_iff_named (env : Environment) (minify : Bool) :
    (∀ request : Request, request.fields ≠ [] →
      ((∃ root, compile env minify request = .ok root) ∨
        ∃ cause, compile env minify request = .error (.configuration cause)) ∧
      ∀ dialect typeName found,
        (∃ root, compileNode env dialect minify typeName found request = .ok root) ∨
          ∃ cause, compileNode env dialect minify typeName found request =
            .error (.configuration cause)) ∧
    (∀ field : TableField, field.LacksOrdering env → ∀ names,
      ∃ cause, newTable env field names = .error (.configuration cause)) ∧
    ∀ root, Compiled env minify root → ∀ table ∈ root.subtree,
      (∃ scope nested field, TableField.IsBacked field env scope nested ∧
        table.info.IsSetUpFor env field ∧ ¬ field.LacksOrdering env ∧
        isPaged table.info = (field.paginate || field.options.limit.isSome) ∧
        ∀ reference aliasName conditions extraJoin page,
          Plan.page table.info reference aliasName conditions extraJoin = .ok page →
            field.CutsBy env table.info page.order ∧
              (page.order = [] ↔ field.pageColumns? env = some [])) ∧
      ∀ ctx select, table.statement ctx = .ok (some select) →
        List.Forall₂
          (fun paged subquery => subquery.1 = paged.info.junctionAlias ∧
            ∃ field, paged.info.IsSetUpFor env field ∧
              (subquery.2.order = [] ↔ field.pageColumns? env = some []))
          (table.joinedTables.filter fun joined => isPaged joined.info)
          (select.clauses.filterMap TableClause.subquery?) := by
  refine ⟨fun request hfields => ⟨compile_ok_or_configuration env minify hfields,
    fun dialect typeName found => compileNode_ok_or_configuration env dialect minify typeName found
      hfields⟩, fun field hlacks names => newTable_of_lacksOrdering hlacks names, ?_⟩
  intro root hroot table htable
  constructor
  · obtain ⟨scope, nested, field, hbacked, hsetup⟩ := hroot.hasOrigin table htable
    have horders := hsetup.orders
    refine ⟨scope, nested, field, hbacked, hsetup, horders.ordered, horders.paged, ?_⟩
    intro reference aliasName conditions extraJoin page hpage
    obtain ⟨parameters, hparameters, hsame⟩ := page_parameters hpage
    have hcuts := pageParameters_cutsBy horders hparameters
    rw [hsame]
    exact ⟨hcuts, hcuts.eq_nil_iff⟩
  · intro ctx select h
    have horigins : ∀ paged ∈ table.joinedTables.filter (fun joined => isPaged joined.info),
        paged.info.HasOrigin env := by
      intro paged hpaged
      obtain ⟨placed, hplaced, rfl⟩ := List.mem_map.mp (List.mem_of_mem_filter hpaged)
      have hmem : placed.table ∈ table.subtree := (Table.leads_of_mem_joined hplaced).mem
      exact hroot.hasOrigin _ ((Table.subtree_sublist table htable).subset hmem)
    have hpages := (statement_orders hroot htable h).2
    refine ((List.forall₂_and_left _ _).mpr ⟨horigins, hpages⟩).imp ?_
    rintro paged subquery ⟨⟨scope, nested, field, -, hsetup⟩, halias, parameters, hparameters,
      hterms⟩
    refine ⟨halias, field, hsetup, ?_⟩
    rw [hterms]
    exact (pageParameters_cutsBy hsetup.orders hparameters).eq_nil_iff

/-- Posts with a limit, declared with an ordering or without. -/
def limitedSchema (orderBy : Option (Computed OrderByOption)) : Schema where
  types :=
    [("Post", tableType "posts" [("title", plainField (.named "String"))]),
     ("Query", { tableType "" [("posts", ⟨.list (.named "Post"), { FieldOptions.empty with
        orderBy
        limit := some (.literal 3) }⟩)] with table := none })]

/-- A request for the titles of the posts. -/
def limitedRequest : Request where
  parentType := "Query"
  fields := [⟨"posts", [], [.field "title" [] []]⟩]
  fragments := []

/-- The plan for the titles of posts that are ordered by some terms. -/
def limitedPosts (terms : List SortTerm) : Table Node where
  info := { plainInfo "posts" "posts" true none with
    typeName := "Post"
    orderBy := some terms
    limit := some 3 }
  shared := [.column (ownedColumn "id"), .column (ownedColumn "title")]
  typed := []

/-- Posts that are ordered by their titles. -/
def titleEnvironment : Environment :=
  ⟨limitedSchema (some (.literal (.column "title"))), .null⟩

/-- A field with a limit alone. -/
def limitedField : TableField where
  name := "posts"
  args := []
  options := { FieldOptions.empty with limit := some (.literal 3) }
  typeName := "Post"
  kind := .object
  table := ⟨.literal "posts", .one "id", none⟩
  many := true
  paginate := false

theorem compile_limitedPosts :
    compile titleEnvironment false limitedRequest =
      .ok (limitedPosts [⟨"title", .ascending⟩]) := by
  rfl

/-- The first posts by their titles, whose page is ordered, and the field that is refused for its
limit. -/
theorem pages_ordered_iff_named_limitedPosts :
    limitedRequest.fields ≠ [] ∧
      ((∃ root, compile titleEnvironment false limitedRequest = .ok root) ∨
        ∃ cause, compile titleEnvironment false limitedRequest =
          .error (.configuration cause)) ∧
      limitedField.LacksOrdering titleEnvironment ∧
      (∃ cause, newTable titleEnvironment limitedField (.fresh false) =
        .error (.configuration cause)) ∧
      ∃ select, (limitedPosts [⟨"title", .ascending⟩]).statement postgresContext =
          .ok (some select) ∧
        List.Forall₂
          (fun paged subquery => subquery.1 = paged.info.junctionAlias ∧
            ∃ field, paged.info.IsSetUpFor titleEnvironment field ∧
              (subquery.2.order = [] ↔ field.pageColumns? titleEnvironment = some []))
          ((limitedPosts [⟨"title", .ascending⟩]).joinedTables.filter fun joined =>
            isPaged joined.info)
          (select.clauses.filterMap TableClause.subquery?) := by
  obtain ⟨hcompiles, hrefuses, hplans⟩ := pages_ordered_iff_named titleEnvironment false
  have hfields : limitedRequest.fields ≠ [] := by simp [limitedRequest]
  have hlacks : limitedField.LacksOrdering titleEnvironment := .inl ⟨rfl, rfl⟩
  have hroot := hplans _ (.request compile_limitedPosts) _ (Table.mem_subtree_self _)
  exact ⟨hfields, (hcompiles limitedRequest hfields).1, hlacks, hrefuses limitedField hlacks _, _,
    rfl, hroot.2 postgresContext _ rfl⟩

/-- A limit beside an ordering that names no column is compiled, and its page has no order. -/
theorem exists_page_without_order :
    ∃ root select page,
      compile ⟨limitedSchema (some (.literal (.list []))), .null⟩ false limitedRequest = .ok root ∧
        root.info.limit = some 3 ∧ root.statement postgresContext = .ok (some select) ∧
        select.clauses.filterMap TableClause.subquery? = [("posts", page)] ∧ page.order = [] :=
  ⟨limitedPosts [], _, _, rfl, rfl, rfl, rfl, rfl⟩

end Plan

end JoinPlan
