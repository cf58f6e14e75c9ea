import JoinPlan.Proofs.Plan.Compiled
import JoinPlan.Proofs.Plan.Parts
import JoinPlan.Proofs.Plan.Scoping

/-!
# The order of a page and of its statement

A page is cut by one ordering, the sort key before any other, while the statement around it
is ordered by everything its tables are ordered by.  For a table the two agree as long as it
has one of the two: the rows of its page then come in the order the page was cut.  A sort key
beside an ordering cuts the page, but the statement puts the ordering before the key.
-/

namespace JoinPlan.Plan

open Sql

/-- A table with a sort key that is ordered by other columns besides. -/
def TableInfo.OrderedTwice (info : TableInfo) : Prop :=
  info.effectiveSortKey?.isSome = true ∧ info.effectiveOrderBy?.getD [] ≠ []

/-! ### The ordering of one table -/

section Table

variable {info : TableInfo}

theorem count_last_of_read {paginate : Bool} {limit : Option Nat} {args : Arguments}
    {arguments : PageArguments} (h : PageArguments.read paginate limit args = .ok arguments) :
    PageArguments.count? args "last" = .ok arguments.last := by
  -- `first` may be given or be the limit of the table; `last` is read after either
  have hfirst : ∀ first, (do
      let last ← PageArguments.count? args "last"
      let after ← PageArguments.cursor? args "after"
      let before ← PageArguments.cursor? args "before"
      Except.ok ({ first, last, after, before } : PageArguments)) = .ok arguments →
      PageArguments.count? args "last" = .ok arguments.last := by
    intro first hread
    obtain ⟨last, hlast, hread⟩ := bind_eq_ok.mp hread
    obtain ⟨after, -, hread⟩ := bind_eq_ok.mp hread
    obtain ⟨before, -, hread⟩ := bind_eq_ok.mp hread
    rw [hlast, ← Except.ok.inj hread]
  unfold PageArguments.read at h
  dsimp only at h
  split at h
  · obtain ⟨first, -, h⟩ := bind_eq_ok.mp h
    exact hfirst first h
  · exact hfirst limit h

/-- Whether the last rows are asked for shows before the arguments are read. -/
theorem read_last {paginate : Bool} {limit : Option Nat} {args : Arguments}
    {arguments : PageArguments} (h : PageArguments.read paginate limit args = .ok arguments) :
    arguments.last.isSome = asksBackwards args := by
  have hlast := count_last_of_read h
  unfold PageArguments.count? at hlast
  unfold asksBackwards
  split at hlast
  · rename_i hmissing
    simp [hmissing, ← Except.ok.inj hlast]
  · rename_i hnull
    simp [hnull, ← Except.ok.inj hlast, Json.isNull]
  · rename_i value hnotNull hvalue
    dsimp only at hlast
    split at hlast
    · have hnull : value.isNull = false := by
        cases value with
        | null => exact absurd rfl hnotNull
        | bool | number | string | array | object => rfl
      simp [hvalue, ← Except.ok.inj hlast, hnull]
    · cases hlast

/-- The terms of a table's ordering, over the table or the junction that has it. -/
def orderingTerms (info : TableInfo) : List OrderTerm :=
  orderTermsOf (sortOwner info info.orderBy.isSome) info.effectiveOrderBy?

/-- The terms of a table's sort key, over the table or the junction that has it. -/
def sortKeyTerms (info : TableInfo) : List OrderTerm :=
  orderTermsOf (sortOwner info info.sortKey.isSome)
    (info.effectiveSortKey?.map (directed (asksBackwards info.args)))

/-- A table with one ordering and one sort key is ordered by the ordering, then the key. -/
theorem ownOrder_eq
    (horder : info.orderBy.isSome = true → ∀ junction, info.junction? = some junction →
      junction.orderBy = none)
    (hkey : info.sortKey.isSome = true → ∀ junction, info.junction? = some junction →
      junction.sortKey = none) :
    ownOrder info = orderingTerms info ++ sortKeyTerms info := by
  unfold ownOrder orderingTerms sortKeyTerms TableInfo.effectiveOrderBy?
    TableInfo.effectiveSortKey? sortOwner TableInfo.junctionAlias
  cases hjunction : info.junction? with
  | none => cases info.orderBy <;> cases info.sortKey <;> simp [orderTermsOf]
  | some junction =>
      have horder := fun h => horder h junction hjunction
      have hkey := fun h => hkey h junction hjunction
      cases horderBy : info.orderBy <;> cases hsortKey : info.sortKey <;>
        simp_all [orderTermsOf]

/-- A page is ordered by the sort key of its table, or failing that by the ordering. -/
theorem pageParameters_order {parameters : PageParameters}
    (h : pageParameters info = .ok parameters) :
    parameters.order =
      if info.effectiveSortKey?.isSome then sortKeyTerms info else orderingTerms info := by
  unfold pageParameters at h
  obtain ⟨arguments, hread, h⟩ := bind_eq_ok.mp h
  split at h
  · rename_i hterms
    obtain ⟨limit, cursor, seek, -, rfl⟩ := overSortKey_seeks (lift_request_eq_ok.mp h)
    dsimp only
    rw [read_last (lift_request_eq_ok.mp hread), sortKeyTerms, hterms]
    rfl
  · rename_i hnone hterms
    obtain ⟨limit, offset, -, rfl⟩ := overOrdering_eq_ok (lift_request_eq_ok.mp h)
    simp [hnone, hterms, orderingTerms, orderTermsOf]
  · cases h

theorem sortKeyTerms_of_none (h : info.effectiveSortKey? = none) : sortKeyTerms info = [] := by
  simp [sortKeyTerms, h, orderTermsOf]

theorem orderingTerms_eq_nil_iff :
    orderingTerms info = [] ↔ info.effectiveOrderBy?.getD [] = [] := by
  unfold orderingTerms
  cases info.effectiveOrderBy? <;> simp [orderTermsOf, Paging.orderTerms]

theorem ownOrder_eq_page_iff
    (horder : info.orderBy.isSome = true → ∀ junction, info.junction? = some junction →
      junction.orderBy = none)
    (hkey : info.sortKey.isSome = true → ∀ junction, info.junction? = some junction →
      junction.sortKey = none)
    {parameters : PageParameters} (h : pageParameters info = .ok parameters) :
    ownOrder info = parameters.order ↔ ¬ info.OrderedTwice := by
  rw [ownOrder_eq horder hkey, pageParameters_order h, TableInfo.OrderedTwice]
  cases hterms : info.effectiveSortKey? with
  | none => simp [sortKeyTerms_of_none hterms]
  | some terms => simp [orderingTerms_eq_nil_iff]

end Table

/-! ### The orderings of a statement -/

section Statement

/-- The page of a table, under the alias it is sorted by if its junction is. -/
def IsPage (table : Table Node) (subquery : String × Select) : Prop :=
  subquery.1 = table.info.junctionAlias ∧
    ∃ parameters, pageParameters table.info = .ok parameters ∧
      subquery.2.order = parameters.order

theorem Pages.forall₂_isPage {table : Table Node} {subqueries : List (String × Select)}
    (h : Pages table.info subqueries) :
    List.Forall₂ IsPage ([table].filter fun paged => isPaged paged.info) subqueries := by
  cases h with
  | whole hwhole =>
      rw [List.filter_cons_of_neg (by simp [hwhole])]
      exact .nil
  | page hpaged hparameters horder =>
      have hfilter : ([table].filter fun paged => isPaged paged.info) = [table] := by
        simp [hpaged]
      rw [hfilter]
      exact .cons ⟨rfl, _, hparameters, horder⟩ .nil

/-- The pages of a statement are those of its tables that are cut to one. -/
theorem forall₂_isPage {ctx : StatementContext} {tables : List (Table Node)}
    {each : List Contribution} (h : List.Forall₂ (IsPart ctx) tables each) :
    List.Forall₂ IsPage (tables.filter fun table => isPaged table.info)
      (each.flatMap fun own => own.clauses.filterMap TableClause.subquery?) := by
  induction h with
  | nil => exact .nil
  | @cons table own tables each hown hrest ih =>
      rw [List.flatMap_cons, ← List.singleton_append (l := tables), List.filter_append]
      exact List.rel_append hown.pages.1.forall₂_isPage ih

theorem flatMap_order {ctx : StatementContext} {tables : List (Table Node)}
    {each : List Contribution} (h : List.Forall₂ (IsPart ctx) tables each) :
    each.flatMap Contribution.order = tables.flatMap fun table => ownOrder table.info := by
  induction h with
  | nil => rfl
  | cons hown hrest ih => rw [List.flatMap_cons, List.flatMap_cons, ih, hown.pages.2]

/-- A statement is ordered by what its tables are ordered by, and cuts their pages. -/
theorem statement_orders {env : Environment} {minify : Bool} {root : Table Node}
    (hroot : Compiled env minify root) {table : Table Node} (htable : table ∈ root.subtree)
    {ctx : StatementContext} {select : Select} (h : table.statement ctx = .ok (some select)) :
    select.order = table.joinedTables.flatMap (fun joined => ownOrder joined.info) ∧
      List.Forall₂ IsPage (table.joinedTables.filter fun joined => isPaged joined.info)
        (select.clauses.filterMap TableClause.subquery?) := by
  have hsound : ∀ inner ∈ table.subtree, inner.Sound env.schema := fun inner hinner =>
    hroot.sound inner ((Table.subtree_sublist table htable).subset hinner)
  obtain ⟨parts, hparts, hclauses, -, -, horder⟩ := Table.statement_parts hsound h
  obtain ⟨each, heach, hbare⟩ := Table.contribution_root_madeOf hparts
  have hbareClauses : parts.clauses = (Contribution.concat each).clauses := by rw [← hbare]; rfl
  have hbareOrder : parts.order = (Contribution.concat each).order := by rw [← hbare]; rfl
  constructor
  · rw [horder, hbareOrder, Contribution.order_concat, flatMap_order heach]
    rfl
  · rw [hclauses, hbareClauses, Contribution.clauses_concat, List.filterMap_flatMap]
    exact forall₂_isPage heach

/-- The rows of a table come in the order its page was cut, in every statement of a plan and
for every dialect, unless the table is ordered twice: what it adds to the ordering of the
statement are the terms of its page, over the same alias, exactly if it has no ordering
beside a sort key. -/
theorem page_order_iff {env : Environment} {minify : Bool} {root : Table Node}
    (hroot : Compiled env minify root) {table : Table Node} (htable : table ∈ root.subtree)
    {ctx : StatementContext} {select : Select} (h : table.statement ctx = .ok (some select)) :
    select.order = table.joinedTables.flatMap (fun joined => ownOrder joined.info) ∧
      List.Forall₂
        (fun paged subquery => subquery.1 = paged.info.junctionAlias ∧
          (ownOrder paged.info = subquery.2.order ↔ ¬ paged.info.OrderedTwice))
        (table.joinedTables.filter fun joined => isPaged joined.info)
        (select.clauses.filterMap TableClause.subquery?) := by
  obtain ⟨horder, hpages⟩ := statement_orders hroot htable h
  have hprovided : ∀ paged ∈ table.joinedTables.filter (fun joined => isPaged joined.info),
      Provided env.schema paged.info paged.shared := by
    intro paged hpaged
    obtain ⟨placed, hplaced, rfl⟩ := List.mem_map.mp (List.mem_of_mem_filter hpaged)
    have hmem : placed.table ∈ table.subtree := (Table.leads_of_mem_joined hplaced).mem
    exact (hroot.sound _ ((Table.subtree_sublist table htable).subset hmem)).provided
  refine ⟨horder, ((List.forall₂_and_left _ _).mpr ⟨hprovided, hpages⟩).imp ?_⟩
  rintro paged subquery ⟨hpaged, halias, parameters, hparameters, hterms⟩
  rw [hterms]
  exact ⟨halias, ownOrder_eq_page_iff hpaged.orderOnce hpaged.keyOnce hparameters⟩

end Statement

/-! ### Pages of posts and of tags -/

/-- Tags through a junction, whose page is sorted by the names of the tags. -/
theorem page_order_iff_postTags :
    Compiled ⟨tagsSchema "tags" taggingOptions, .null⟩ false (postsPlan postTags) ∧
      postsPlan postTags ∈ (postsPlan postTags).subtree ∧
      ∃ select, (postsPlan postTags).statement postgresContext = .ok (some select) ∧
        select.order =
          (postsPlan postTags).joinedTables.flatMap (fun joined => ownOrder joined.info) ∧
        List.Forall₂
          (fun paged subquery => subquery.1 = paged.info.junctionAlias ∧
            (ownOrder paged.info = subquery.2.order ↔ ¬ paged.info.OrderedTwice))
          ((postsPlan postTags).joinedTables.filter fun joined => isPaged joined.info)
          (select.clauses.filterMap TableClause.subquery?) := by
  have hcompiled : Compiled ⟨tagsSchema "tags" taggingOptions, .null⟩ false (postsPlan postTags) :=
    .request compile_postTags
  have hroot := (postsPlan postTags).mem_subtree_self
  obtain ⟨select, hselect⟩ :
      ∃ select, (postsPlan postTags).statement postgresContext = .ok (some select) := ⟨_, rfl⟩
  exact ⟨hcompiled, hroot, select, hselect, page_order_iff hcompiled hroot hselect⟩

/-- A list of posts with a sort key, and ordered by their titles besides. -/
def titledSchema : Schema where
  types :=
    [("Post", tableType "posts" [("title", plainField (.named "String"))]),
     ("PostEdge", { tableType "" [("node", plainField (.named "Post"))] with table := none }),
     ("Posts", { tableType "" [("edges", plainField (.list (.named "PostEdge"))),
        ("pageInfo", plainField (.named "PageInfo"))] with table := none }),
     ("Query", { tableType "" [("posts", ⟨.named "Posts", { FieldOptions.empty with
        sqlPaginate := true
        orderBy := some (.literal (.column "title"))
        sortKey := some (.literal (.key "asc" (.one "id"))) }⟩)] with table := none })]

/-- A request for the titles of the first two posts. -/
def titledRequest : Request where
  parentType := "Query"
  fields := [⟨"posts", [("first", .number (.int 2))],
    [.field "edges" [] [.field "node" [] [.field "title" [] []]]]⟩]
  fragments := []

/-- The plan of the list: the page holds the key of every post. -/
def titledPosts : Table Node where
  info := { plainInfo "posts" "posts" true none with
    typeName := "Post"
    args := [("first", .number (.int 2))]
    paginate := true
    orderBy := some [⟨"title", .ascending⟩]
    sortKey := some [⟨"id", .ascending⟩] }
  shared :=
    [.column (ownedColumn "id"), .column (ownedColumn "id"), .column (ownedColumn "title")]
  typed := []

theorem compile_titledPosts :
    compile ⟨titledSchema, .null⟩ false titledRequest = .ok titledPosts := by
  rfl

/-- The posts come by their titles first, while the page holds those with the least keys: the
last row of the page need not be the probe, nor the last row shown its end. -/
theorem exists_page_ordered_otherwise :
    ∃ root select page,
      compile ⟨titledSchema, .null⟩ false titledRequest = .ok root ∧
        root.info.paginate = true ∧ root.statement postgresContext = .ok (some select) ∧
        select.clauses.filterMap TableClause.subquery? = [("posts", page)] ∧
        page.order = Paging.orderTerms "posts" [⟨"id", .ascending⟩] ∧
        select.order =
          Paging.orderTerms "posts" [⟨"title", .ascending⟩, ⟨"id", .ascending⟩] :=
  ⟨titledPosts, _, _, compile_titledPosts, rfl, rfl, rfl, rfl, rfl⟩

end JoinPlan.Plan
