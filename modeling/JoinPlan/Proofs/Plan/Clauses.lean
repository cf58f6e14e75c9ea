import JoinPlan.Proofs.Plan.NewTables
import JoinPlan.Proofs.Sql.Scope

/-!
# The clauses of one table

What a table puts into the FROM and JOIN clauses of its statement: which aliases its
clauses introduce, that everything in them is in scope, and that the page of a list paged
by row numbers counts all rows.  Texts built by the options of a table are handed aliases
that are in scope where they are used.
-/

namespace JoinPlan

namespace Sql

/-- A page with an offset, which shows the number of all rows. -/
def Select.Counts (select : Select) : Prop :=
  select.offset.isSome = true ∧ (totalColumn, .rowCount) ∈ select.list.columns

/-- The relations a page introduces: its own and the one joined inside it. -/
def Page.inside (page : Page) : List String :=
  page.aliasName :: (page.extraJoin.map fun extra => extra.2.1).toList

/-- A page in which everything is in scope, given the relations outside of it. -/
structure Page.Scoped (licence : Licence) (outside : List String) (page : Page) : Prop where
  extra : ∀ reference aliasName on, page.extraJoin = some (reference, aliasName, on) →
    on.Scoped licence (outside ++ page.inside)
  conditions : ∀ condition ∈ page.conditions, condition.Scoped licence (outside ++ page.inside)
  order : ∀ term ∈ page.order, term.target.Scoped licence (outside ++ page.inside)

theorem Page.introduced_select (page : Page) : introduced page.select.clauses = page.inside := by
  cases hextra : page.extraJoin <;>
    simp [select, Select.clauses, inside, hextra, TableClause.aliasName, Source.aliasName,
      Join.aliasName]

theorem Page.Scoped.select {licence : Licence} {outside : List String} {page : Page}
    (h : page.Scoped licence outside) : page.select.Scoped licence outside := by
  have hown : page.aliasName ∈ outside ++ page.inside := by simp [inside]
  apply Select.scoped_of_clauses
  · exact .mk _ _
  · cases hextra : page.extraJoin with
    | none => simp [Page.select, Select.clauses, hextra, ClausesScoped, TableClause.Scoped,
        Source.Scoped]
    | some extra =>
        have hon := h.extra extra.1 extra.2.1 extra.2.2 hextra
        simpa [Page.select, Select.clauses, hextra, ClausesScoped, TableClause.Scoped,
          Source.Scoped, Join.Scoped, inside, TableClause.aliasName, Source.aliasName] using hon
  · rw [introduced_select]
    cases hoffset : page.offset with
    | none => simpa [Page.select, hoffset, SelectList.Scoped] using hown
    | some offset => simpa [Page.select, hoffset, SelectList.Scoped, Expression.Scoped] using hown
  · rw [introduced_select]
    exact Expression.scoped_conjunction h.conditions
  · rw [introduced_select]
    exact h.order

theorem Page.Scoped.keyed {licence : Licence} {outside : List String} {page : Page}
    (h : page.Scoped licence outside) (hbatch : batchAlias ∈ outside) (keys : BatchKeys) :
    (page.keyed keys).Scoped licence outside where
  extra := h.extra
  conditions := by
    change ∀ condition ∈ page.keyMatch keys :: page.conditions, _
    rw [List.forall_mem_cons]
    refine ⟨⟨?_, List.mem_append_left _ hbatch⟩, h.conditions⟩
    simp [Expression.Scoped, inside, Page.keyed]
  order := h.order

theorem Page.counts_select (page : Page) (h : page.offset.isSome = true) :
    page.select.Counts := by
  obtain ⟨offset, hoffset⟩ := Option.isSome_iff_exists.mp h
  simp [Select.Counts, Page.select, hoffset, SelectList.columns]

end Sql

namespace Plan

open Sql

/-- A fragment built by an option of a table, with the aliases it is handed. -/
inductive Use
  | join (condition : JoinCondition) (parent child : String) (args : Arguments)
  | condition (condition : RowCondition) (table : String) (args : Arguments)
  | expression (sql : TableFragment) (table : String) (args : Arguments)

namespace Use

def aliases : Use → List String
  | .join _ parent child _ => [parent, child]
  | .condition _ table _ => [table]
  | .expression _ table _ => [table]

/-- The text that is built for the quoted aliases. -/
def text? (ctx : StatementContext) : Use → Option String
  | .join builder parent child args =>
      some (builder.join (ctx.dialect.quote parent) (ctx.dialect.quote child) args ctx.context)
  | .condition builder table args =>
      builder.condition? (ctx.dialect.quote table) args ctx.context
  | .expression sql table args =>
      some (sql.fragment (ctx.dialect.quote table) args ctx.context)

end Use

/-- What a table's relation and conditions build, below a parent of any alias. -/
inductive TableInfo.Builds (info : TableInfo) : Use → Prop
  | join {condition : JoinCondition} (h : info.relation = some (.join condition))
      (parent : String) : Builds info (.join condition parent info.aliasName info.args)
  | toJunction {junction : Junction} {toJunction toTarget : JoinCondition}
      (h : info.relation = some (.junction junction))
      (hfetch : junction.fetch = .joins toJunction toTarget) (parent : String) :
      Builds info (.join toJunction parent junction.aliasName info.args)
  | toTarget {junction : Junction} {toJunction toTarget : JoinCondition}
      (h : info.relation = some (.junction junction))
      (hfetch : junction.fetch = .joins toJunction toTarget) :
      Builds info (.join toTarget junction.aliasName info.aliasName info.args)
  | batchTarget {junction : Junction} {toTarget : JoinCondition} {thisKey parentKey : Column}
      (h : info.relation = some (.junction junction))
      (hfetch : junction.fetch = .batch toTarget thisKey parentKey) :
      Builds info (.join toTarget junction.aliasName info.aliasName info.args)
  | condition {condition : RowCondition} (h : info.condition = some condition) :
      Builds info (.condition condition info.aliasName info.args)
  | junctionCondition {junction : Junction} {condition : RowCondition}
      (h : info.junction? = some junction) (hcondition : junction.condition = some condition) :
      Builds info (.condition condition junction.aliasName info.args)

/-- What the options of a table and of its fields build. -/
inductive Table.Builds (table : Table Node) : Use → Prop
  | own {use : Use} (h : table.info.Builds use) : Builds table use
  | expression {sql : TableFragment} {fieldName aliasName : String} {args : Arguments}
      {owner : Option String}
      (h : Node.expression sql fieldName aliasName args owner ∈ table.children) :
      Builds table (.expression sql (owner.getD table.info.aliasName) args)

/-- The texts that options of the tables build, where the aliases they were handed are in
scope. -/
def builtBy (ctx : StatementContext) (tables : List (Table Node)) : Licence := fun scope sql =>
  ∃ table ∈ tables, ∃ use, table.Builds use ∧ use.text? ctx = some sql ∧ use.aliases ⊆ scope

theorem builtBy_monotone (ctx : StatementContext) (tables : List (Table Node)) :
    (builtBy ctx tables).Monotone := by
  rintro scope others sql hsub ⟨table, htable, use, hbuilds, htext, haliases⟩
  exact ⟨table, htable, use, hbuilds, htext, List.Subset.trans haliases hsub⟩

/-! ### Pages -/

section Page

variable {licence : Licence} {info : TableInfo} {scope : List String}

theorem scoped_orderTerms {aliasName : String} (halias : aliasName ∈ scope)
    (terms : List SortTerm) :
    ∀ term ∈ Paging.orderTerms aliasName terms, term.target.Scoped licence scope := by
  intro term hterm
  obtain ⟨sorted, -, rfl⟩ := List.mem_map.mp hterm
  exact halias

theorem scoped_seek {aliasName : String} (halias : aliasName ∈ scope) (values : Object) :
    ∀ terms : List SortTerm, (Paging.seek aliasName values terms).Scoped licence scope
  | [] => trivial
  | [_] => ⟨halias, trivial⟩
  | _ :: second :: rest =>
      ⟨⟨halias, trivial⟩, ⟨halias, trivial⟩, scoped_seek halias values (second :: rest)⟩

/-- Parameters of a page that are sorted and sought by a relation in scope. -/
def InScope (licence : Licence) (scope : List String) (parameters : PageParameters) : Prop :=
  (∀ term ∈ parameters.order, term.target.Scoped licence scope) ∧
    ∀ seek ∈ parameters.seek, seek.Scoped licence scope

/-- A page over a sort key is in its order, past a cursor if there is one to go by. -/
theorem overSortKey_seeks {args : PageArguments} {terms : List SortTerm} {aliasName : String}
    {parameters : PageParameters}
    (h : Paging.overSortKey args terms aliasName = .ok parameters) :
    ∃ limit cursor seek,
      Paging.seekPast aliasName (directed args.last.isSome terms) cursor = .ok seek ∧
        parameters =
          { order := Paging.orderTerms aliasName (directed args.last.isSome terms), limit,
            offset := none, seek } := by
  unfold Paging.overSortKey at h
  dsimp only at h
  split at h
  · obtain ⟨limit, -, h⟩ := bind_eq_ok.mp h
    obtain ⟨seek, hseek, h⟩ := bind_eq_ok.mp h
    split at h
    · cases h
    · exact ⟨_, _, seek, hseek, (Except.ok.inj h).symm⟩
  · obtain ⟨limit, -, h⟩ := bind_eq_ok.mp h
    obtain ⟨seek, hseek, h⟩ := bind_eq_ok.mp h
    split at h
    · cases h
    · exact ⟨_, _, seek, hseek, (Except.ok.inj h).symm⟩
  · exact ⟨_, none, none, rfl, (Except.ok.inj h).symm⟩

theorem overSortKey_inScope {args : PageArguments} {terms : List SortTerm} {aliasName : String}
    {parameters : PageParameters} (halias : aliasName ∈ scope)
    (h : Paging.overSortKey args terms aliasName = .ok parameters) :
    InScope licence scope parameters := by
  obtain ⟨limit, cursor, seek, hseek, rfl⟩ := overSortKey_seeks h
  refine ⟨scoped_orderTerms halias _, fun sought hmem => ?_⟩
  cases cursor with
  | none =>
      obtain rfl := Except.ok.inj hseek
      cases hmem
  | some cursor =>
      obtain ⟨values, -, hseek⟩ := bind_eq_ok.mp hseek
      obtain rfl := Except.ok.inj hseek
      obtain rfl := Option.mem_some_iff.mp hmem
      exact scoped_seek halias values _

theorem overOrdering_eq_ok {args : PageArguments} {terms : List SortTerm} {aliasName : String}
    {probe : Bool} {parameters : PageParameters}
    (h : Paging.overOrdering args terms aliasName probe = .ok parameters) :
    ∃ limit offset, Paging.startAfter args.after = .ok offset ∧
      parameters =
        { order := Paging.orderTerms aliasName terms, limit, offset := some offset,
          seek := none } := by
  unfold Paging.overOrdering at h
  split at h
  · cases h
  · have hlimited : ∀ limit, (Paging.startAfter args.after >>= fun offset => Except.ok
        ({ order := Paging.orderTerms aliasName terms, limit, offset := some offset,
           seek := none } : PageParameters)) = .ok parameters →
        ∃ limit offset, Paging.startAfter args.after = .ok offset ∧
          parameters =
            { order := Paging.orderTerms aliasName terms, limit, offset := some offset,
              seek := none } := by
      intro limit hstart
      obtain ⟨offset, hoffset, hstart⟩ := bind_eq_ok.mp hstart
      exact ⟨limit, offset, hoffset, (Except.ok.inj hstart).symm⟩
    dsimp only at h
    split at h
    · exact hlimited _ h
    · split at h
      · obtain ⟨limit, -, h⟩ := bind_eq_ok.mp h
        exact hlimited limit h
      · exact hlimited _ h

theorem overOrdering_inScope {args : PageArguments} {terms : List SortTerm} {aliasName : String}
    {probe : Bool} {parameters : PageParameters} (halias : aliasName ∈ scope)
    (h : Paging.overOrdering args terms aliasName probe = .ok parameters) :
    InScope licence scope parameters ∧ parameters.offset.isSome = true := by
  obtain ⟨limit, offset, -, rfl⟩ := overOrdering_eq_ok h
  exact ⟨⟨scoped_orderTerms halias _, by simp⟩, rfl⟩

/-- A page is sorted by its own table, or by the one joined inside it. -/
theorem pageParameters_inScope (licence : Licence) (scope : List String)
    {parameters : PageParameters}
    (h : pageParameters info = .ok parameters) (hjunction : info.junctionAlias ∈ scope)
    (hown : info.orderBy.isSome = true ∨ info.sortKey.isSome = true → info.aliasName ∈ scope) :
    InScope licence scope parameters ∧
      (info.effectiveSortKey? = none → parameters.offset.isSome = true) := by
  unfold pageParameters at h
  obtain ⟨arguments, -, h⟩ := bind_eq_ok.mp h
  split at h
  · rename_i hterms
    have halias : sortOwner info info.sortKey.isSome ∈ scope := by
      unfold sortOwner
      split
      · exact hown (Or.inr ‹_›)
      · exact hjunction
    exact ⟨overSortKey_inScope halias (lift_request_eq_ok.mp h), by simp [hterms]⟩
  · have halias : sortOwner info info.orderBy.isSome ∈ scope := by
      unfold sortOwner
      split
      · exact hown (Or.inl ‹_›)
      · exact hjunction
    obtain ⟨hscoped, hoffset⟩ := overOrdering_inScope halias (lift_request_eq_ok.mp h)
    exact ⟨hscoped, fun _ => hoffset⟩
  · cases h

/-- A page of a table's rows, or of those of its junction. -/
theorem page_scoped (licence : Licence) (outside : List String) {reference aliasName : String}
    {conditions : List Expression} {extraJoin : Option (String × String × Expression)} {page : Page}
    (hsorter : info.junctionAlias = aliasName)
    (h : Plan.page info reference aliasName conditions extraJoin = .ok page)
    (hown : info.orderBy.isSome = true ∨ info.sortKey.isSome = true →
      info.aliasName ∈ outside ++ page.inside)
    (hextra : ∀ reference aliasName on, extraJoin = some (reference, aliasName, on) →
      on.Scoped licence (outside ++ page.inside))
    (hconditions : ∀ condition ∈ conditions,
      condition.Scoped licence (outside ++ page.inside)) :
    page.Scoped licence outside ∧
      (info.effectiveSortKey? = none → page.offset.isSome = true) := by
  unfold Plan.page at h
  obtain ⟨parameters, hparameters, h⟩ := bind_eq_ok.mp h
  obtain rfl := Except.ok.inj h
  obtain ⟨⟨horder, hseek⟩, hoffset⟩ := pageParameters_inScope licence (outside ++ _) hparameters
    (by rw [hsorter]; exact List.mem_append_right _ List.mem_cons_self) hown
  refine ⟨⟨hextra, ?_, horder⟩, hoffset⟩
  rw [List.forall_mem_append]
  exact ⟨hconditions, fun seek hmem => hseek seek (by simpa using hmem)⟩

theorem page_aliasName {reference aliasName : String} {conditions : List Expression}
    {extraJoin : Option (String × String × Expression)} {page : Page}
    (h : Plan.page info reference aliasName conditions extraJoin = .ok page) :
    page.aliasName = aliasName ∧ page.extraJoin = extraJoin := by
  unfold Plan.page at h
  obtain ⟨parameters, -, h⟩ := bind_eq_ok.mp h
  obtain rfl := Except.ok.inj h
  exact ⟨rfl, rfl⟩

end Page

/-! ### Clauses -/

/-- The aliases a table's clauses introduce: its junction's and its own. -/
def TableInfo.clauseAliases (info : TableInfo) : List String :=
  info.junctionOwner?.toList ++ [info.aliasName]

/-- Without a junction a table is introduced, and paged, as itself. -/
theorem TableInfo.aliases_of_direct {info : TableInfo} (h : info.junction? = none) :
    info.clauseAliases = [info.aliasName] ∧ info.junctionAlias = info.aliasName := by
  simp [clauseAliases, junctionOwner?, junctionAlias, h]

/-- Through a junction a table is introduced after the junction, which is what is paged. -/
theorem TableInfo.aliases_of_junction {info : TableInfo} {junction : Junction}
    (h : info.junction? = some junction) :
    info.clauseAliases = [junction.aliasName, info.aliasName] ∧
      info.junctionAlias = junction.aliasName := by
  simp [clauseAliases, junctionOwner?, junctionAlias, h]

/-- A licence for everything that a table's relation and conditions build. -/
def Grants (licence : Licence) (ctx : StatementContext) (info : TableInfo) : Prop :=
  ∀ use sql scope, info.Builds use → use.text? ctx = some sql → use.aliases ⊆ scope →
    licence scope sql

/-- Clauses that introduce some aliases, given those introduced before; the page of a table
paged by row numbers counts all rows. -/
structure Introduces (licence : Licence) (info : TableInfo) (before aliases : List String)
    (clauses : List TableClause) : Prop where
  aliases : introduced clauses = aliases
  inScope : ClausesScoped licence before clauses
  counts : info.paginate = true → info.effectiveSortKey? = none →
    ∃ select, (info.junctionAlias, select) ∈ clauses.filterMap TableClause.subquery? ∧
      select.Counts

section Clauses

variable {licence : Licence} {ctx : StatementContext} {info : TableInfo} {scope : List String}

theorem builtCondition_scoped {condition : Option RowCondition} {aliasName : String}
    (hgrants : ∀ builder, condition = some builder → ∀ sql,
      (Use.condition builder aliasName info.args).text? ctx = some sql → licence scope sql) :
    ∀ built ∈ builtCondition ctx condition aliasName info.args, built.Scoped licence scope := by
  cases hcondition : condition with
  | none => simp [builtCondition]
  | some builder =>
      cases htext : builder.condition? (ctx.dialect.quote aliasName) info.args ctx.context with
      | none => simp [builtCondition, htext]
      | some sql =>
          simp only [builtCondition, htext, List.mem_singleton, forall_eq]
          exact hgrants builder hcondition sql htext

/-- A table's own conditions are in scope where the table and its junction are. -/
theorem ownConditions_scoped (hgrants : Grants licence ctx info)
    (hown : info.condition.isSome = true → info.aliasName ∈ scope)
    (hjunction : ∀ junction, info.junction? = some junction → junction.aliasName ∈ scope) :
    ∀ built ∈ ownConditions ctx info, built.Scoped licence scope := by
  have hbuilt : ∀ built ∈ builtCondition ctx info.condition info.aliasName info.args,
      built.Scoped licence scope :=
    builtCondition_scoped fun builder hbuilder sql htext =>
      hgrants _ sql scope (.condition hbuilder) htext
        (by simpa [Use.aliases] using hown (by simp [hbuilder]))
  rw [ownConditions, List.forall_mem_append]
  refine ⟨?_, hbuilt⟩
  cases hfound : info.junction? with
  | none => simp
  | some junction =>
      exact builtCondition_scoped fun builder hbuilder sql htext =>
        hgrants _ sql scope (.junctionCondition hfound hbuilder) htext
          (by simpa [Use.aliases] using hjunction junction hfound)

/-- The alias of the relation of a batch's keys, if the table is paged for every key. -/
def TableInfo.keyAliases (info : TableInfo) : List String :=
  if info.isBoundary && isPaged info then [batchAlias] else []

/-- A table whose rows are not paged has no rows to count. -/
theorem not_paginate_of_not_isPaged (h : ¬ isPaged info = true) : info.paginate = false := by
  cases hpaginate : info.paginate with
  | false => rfl
  | true => simp [isPaged, hpaginate] at h

/-- A page of a table's own rows. -/
theorem directPage_scoped (outside : List String) (conditions : List Expression)
    (hgrants : Grants licence ctx info) (hsorter : info.junctionAlias = info.aliasName)
    {page : Page}
    (h : Plan.page info info.reference info.aliasName
      (conditions ++ builtCondition ctx info.condition info.aliasName info.args) none = .ok page)
    (hconditions : ∀ inside, info.aliasName ∈ inside → outside ⊆ inside →
      ∀ condition ∈ conditions, condition.Scoped licence inside) :
    page.aliasName = info.aliasName ∧ page.Scoped licence outside ∧
      (info.effectiveSortKey? = none → page.offset.isSome = true) := by
  obtain ⟨halias, hextra⟩ := page_aliasName h
  have hown : info.aliasName ∈ outside ++ page.inside := by simp [Page.inside, halias, hextra]
  refine ⟨halias, page_scoped licence outside hsorter h (fun _ => hown) (by simp) ?_⟩
  rw [List.forall_mem_append]
  refine ⟨hconditions _ hown (List.subset_append_left _ _), ?_⟩
  exact builtCondition_scoped fun builder hbuilder sql htext =>
    hgrants _ sql _ (.condition hbuilder) htext (by simpa [Use.aliases] using hown)

theorem rootClauses_introduces (hgrants : Grants licence ctx info)
    (hrelation : info.relation = none) {clauses : List TableClause}
    (h : rootClauses ctx info = .ok clauses) :
    StartsWithSource clauses ∧
      Introduces licence info [] (info.keyAliases ++ info.clauseAliases) clauses := by
  have hjunction : info.junction? = none := by simp [TableInfo.junction?, hrelation]
  obtain ⟨haliases, hsorter⟩ := TableInfo.aliases_of_direct hjunction
  have hkeys : info.keyAliases = [] := by
    simp [TableInfo.keyAliases, TableInfo.isBoundary, TableInfo.batchKeys?, hrelation]
  rw [hkeys, haliases, List.nil_append]
  cases rootClauses_eq_ok h with
  | whole hunpaged =>
      refine ⟨.mk _ [], ⟨by simp [TableClause.aliasName, Source.aliasName], ⟨trivial, trivial⟩,
        ?_⟩⟩
      simp [not_paginate_of_not_isPaged hunpaged]
  | @page _ page hpage =>
      obtain ⟨halias, hscoped, hoffset⟩ :=
        directPage_scoped [] [] hgrants hsorter hpage (by simp)
      refine ⟨.mk _ [], ⟨by simp [Page.atRoot, TableClause.aliasName, Source.aliasName, halias],
        ⟨hscoped.select, trivial⟩, fun _ hterms => ⟨page.select, ?_, page.counts_select
          (hoffset hterms)⟩⟩⟩
      simp [Page.atRoot, TableClause.subquery?, hsorter, halias]

theorem joinClauses_introduces (hgrants : Grants licence ctx info) {condition : JoinCondition}
    (hrelation : info.relation = some (.join condition)) {parent : String}
    (hparent : parent ∈ scope) {clauses : List TableClause}
    (h : joinClauses ctx info parent condition = .ok clauses) :
    JoinsOnly clauses ∧ Introduces licence info scope info.clauseAliases clauses := by
  have hjunction : info.junction? = none := by simp [TableInfo.junction?, hrelation]
  obtain ⟨haliases, hsorter⟩ := TableInfo.aliases_of_direct hjunction
  have hon : ∀ inside, parent ∈ inside → info.aliasName ∈ inside →
      licence inside (condition.join (ctx.dialect.quote parent)
        (ctx.dialect.quote info.aliasName) info.args ctx.context) :=
    fun inside hmem hown => hgrants _ _ inside (.join hrelation parent) rfl
      (by simp [Use.aliases, hmem, hown])
  rw [haliases]
  cases joinClauses_eq_ok h with
  | whole hunpaged =>
      refine ⟨⟨[_], rfl⟩, ⟨by simp [TableClause.aliasName, Join.aliasName],
        ⟨hon _ (List.mem_append_left _ hparent) (by simp), trivial⟩, ?_⟩⟩
      simp [not_paginate_of_not_isPaged hunpaged]
  | @page _ page hpage =>
      obtain ⟨halias, hscoped, hoffset⟩ :=
        directPage_scoped scope [_] hgrants hsorter hpage (by
          intro inside hmem hsub condition hcondition
          obtain rfl := List.mem_singleton.mp hcondition
          exact hon inside (hsub hparent) hmem)
      refine ⟨⟨[_], rfl⟩, ⟨by simp [TableClause.aliasName, Join.aliasName, halias],
        ⟨⟨hscoped.select, hon _ (List.mem_append_left _ hparent) (by simp [halias])⟩, trivial⟩,
        fun _ hterms => ⟨page.select, ?_, page.counts_select (hoffset hterms)⟩⟩⟩
      simp [TableClause.subquery?, hsorter, halias]

/-- The page of a junction joins the target inside if a condition or an ordering needs it. -/
theorem insideJoin_eq {page : Page} {on : Expression}
    (hextra : page.extraJoin = insideJoin info on) :
    page.inside =
      page.aliasName :: if needsTargetInside info then [info.aliasName] else [] := by
  rw [Page.inside, hextra, insideJoin]
  split <;> rfl

/-- A page of a junction's rows, with the target joined inside it if that is needed. -/
theorem junctionPage_scoped (outside : List String) (conditions : List Expression)
    (hgrants : Grants licence ctx info) {junction : Junction}
    (hjunction : info.junction? = some junction) {targetOn : Expression} {page : Page}
    (h : Plan.page info junction.reference junction.aliasName
      (conditions ++ ownConditions ctx info) (insideJoin info targetOn) = .ok page)
    (hconditions : ∀ inside, junction.aliasName ∈ inside → outside ⊆ inside →
      ∀ condition ∈ conditions, condition.Scoped licence inside)
    (htarget : ∀ inside, junction.aliasName ∈ inside → info.aliasName ∈ inside →
      targetOn.Scoped licence inside) :
    page.aliasName = junction.aliasName ∧ page.Scoped licence outside ∧
      (info.effectiveSortKey? = none → page.offset.isSome = true) := by
  obtain ⟨halias, hextra⟩ := page_aliasName h
  have hinside := insideJoin_eq hextra
  have hown : needsTargetInside info = true → info.aliasName ∈ outside ++ page.inside := by
    intro hneeded
    simp [hinside, hneeded]
  have hmem : junction.aliasName ∈ outside ++ page.inside := by simp [hinside, halias]
  refine ⟨halias, page_scoped licence outside (TableInfo.aliases_of_junction hjunction).2 h
    ?_ ?_ ?_⟩
  · rintro (horder | hsort)
    · exact hown (by simp [needsTargetInside, horder])
    · exact hown (by simp [needsTargetInside, hsort])
  · intro reference aliasName on hjoin
    unfold insideJoin at hjoin
    split at hjoin
    · rename_i hneeded
      obtain ⟨-, -, rfl⟩ := Option.some.inj hjoin
      exact htarget _ hmem (hown hneeded)
    · cases hjoin
  · rw [List.forall_mem_append]
    refine ⟨hconditions _ hmem (List.subset_append_left _ _), ?_⟩
    refine ownConditions_scoped hgrants (fun hcondition => hown ?_) ?_
    · simp [needsTargetInside, hcondition]
    · intro found hfound
      obtain rfl := Option.some.inj (hjunction.symm.trans hfound)
      exact hmem

theorem junctionJoinClauses_introduces (hgrants : Grants licence ctx info) {junction : Junction}
    {toJunction toTarget : JoinCondition} (hrelation : info.relation = some (.junction junction))
    (hfetch : junction.fetch = .joins toJunction toTarget) {parent : String}
    (hparent : parent ∈ scope) {clauses : List TableClause}
    (h : junctionJoinClauses ctx info parent junction toJunction toTarget = .ok clauses) :
    JoinsOnly clauses ∧ Introduces licence info scope info.clauseAliases clauses := by
  have hjunction : info.junction? = some junction := by simp [TableInfo.junction?, hrelation]
  obtain ⟨haliases, hsorter⟩ := TableInfo.aliases_of_junction hjunction
  have hon : ∀ inside, parent ∈ inside → junction.aliasName ∈ inside →
      licence inside (toJunction.join (ctx.dialect.quote parent)
        (ctx.dialect.quote junction.aliasName) info.args ctx.context) :=
    fun inside hmem hother => hgrants _ _ inside (.toJunction hrelation hfetch parent) rfl
      (by simp [Use.aliases, hmem, hother])
  have htarget : ∀ inside, junction.aliasName ∈ inside → info.aliasName ∈ inside →
      licence inside (toTarget.join (ctx.dialect.quote junction.aliasName)
        (ctx.dialect.quote info.aliasName) info.args ctx.context) :=
    fun inside hmem hother => hgrants _ _ inside (.toTarget hrelation hfetch) rfl
      (by simp [Use.aliases, hmem, hother])
  rw [haliases]
  cases junctionJoinClauses_eq_ok h with
  | whole hunpaged =>
      refine ⟨⟨[_, _], rfl⟩, ⟨by simp [TableClause.aliasName, Join.aliasName],
        ⟨hon _ (List.mem_append_left _ hparent) (by simp),
          htarget _ (by simp [TableClause.aliasName, Join.aliasName]) (by simp), trivial⟩, ?_⟩⟩
      simp [not_paginate_of_not_isPaged hunpaged]
  | @page _ page hpage =>
      obtain ⟨halias, hscoped, hoffset⟩ :=
        junctionPage_scoped scope [_] hgrants hjunction hpage (by
          intro inside hmem hsub condition hcondition
          obtain rfl := List.mem_singleton.mp hcondition
          exact hon inside (hsub hparent) hmem) htarget
      refine ⟨⟨[_, _], rfl⟩, ⟨by simp [TableClause.aliasName, Join.aliasName, halias],
        ⟨⟨hscoped.select, hon _ (List.mem_append_left _ hparent) (by simp [halias])⟩,
          htarget _ (by simp [TableClause.aliasName, Join.aliasName, halias]) (by simp), trivial⟩,
        fun _ hterms => ⟨page.select, ?_, page.counts_select (hoffset hterms)⟩⟩⟩
      simp [TableClause.subquery?, hsorter, halias]

/-- The clauses of a batch, with the condition that the keys are the batch's. -/
structure IntroducesBatch (licence : Licence) (info : TableInfo) (parts : Contribution) :
    Prop where
  source : StartsWithSource parts.clauses
  clauses : Introduces licence info [] (info.keyAliases ++ info.clauseAliases) parts.clauses
  conditions : ∀ condition ∈ parts.conditions,
    condition.Scoped licence (introduced parts.clauses)
  order : parts.order = []
  items : parts.items = []

theorem inScope_scoped {aliasName column : String} (halias : aliasName ∈ scope) :
    (inScope ctx aliasName column).Scoped licence scope :=
  ⟨halias, Expression.allScoped_values ctx.scope⟩

/-- The keys of a batch, the page joined to each of them, and what is joined to the page. -/
theorem keyedPage_introduces (hboundary : info.isBoundary = true) (hpaged : isPaged info = true)
    (keys : BatchKeys) {page : Page} (halias : page.aliasName = info.junctionAlias)
    (hscoped : page.Scoped licence [batchAlias])
    (hoffset : info.effectiveSortKey? = none → page.offset.isSome = true) {join : Join}
    (hjoin : join = .lateral (page.keyed keys).select page.aliasName (page.keyMatch keys) ∨
      join = .leftLateral (page.keyed keys).select page.aliasName (page.keyMatch keys))
    (behind : List Join)
    (haliases : info.junctionAlias :: behind.map Join.aliasName = info.clauseAliases)
    (hbehind : ClausesScoped licence [batchAlias, info.junctionAlias] (behind.map .join)) :
    IntroducesBatch licence info
      (.ofClauses (.source (Page.keySource keys) :: .join join :: behind.map .join)) := by
  have hname : join.aliasName = info.junctionAlias := by
    rcases hjoin with rfl | rfl <;> exact halias
  have hmatch : (page.keyMatch keys).Scoped licence ([batchAlias] ++ [page.aliasName]) := by
    simp [Page.keyMatch, Expression.Scoped]
  have hjoined : join.Scoped licence [batchAlias] := by
    rcases hjoin with rfl | rfl <;> exact ⟨(hscoped.keyed (by simp) _).select, hmatch⟩
  refine ⟨.mk _ (join :: behind), ⟨?_, ⟨trivial, hjoined, ?_⟩, fun _ hterms => ⟨_, ?_,
    Page.counts_select (page.keyed keys) (hoffset hterms)⟩⟩,
    by simp [Contribution.ofClauses, Contribution.empty], rfl, rfl⟩
  · have hintroduced : introduced (behind.map .join) = behind.map Join.aliasName := by
      rw [introduced, List.map_map]
      rfl
    simp [Contribution.ofClauses, TableClause.aliasName, hname, hintroduced, ← haliases,
      TableInfo.keyAliases, hboundary, hpaged, Page.keySource, Source.aliasName]
  · simpa [TableClause.aliasName, hname, Page.keySource, Source.aliasName] using hbehind
  · rcases hjoin with rfl | rfl <;>
      simp [Contribution.ofClauses, TableClause.subquery?, halias, Page.keySource]

theorem batchClauses_introduces (hgrants : Grants licence ctx info) {thisKey parentKey : Column}
    (hrelation : info.relation = some (.batch thisKey parentKey)) {parts : Contribution}
    (h : batchClauses ctx info thisKey parentKey = .ok parts) :
    IntroducesBatch licence info parts := by
  have hboundary : info.isBoundary = true := by
    simp [TableInfo.isBoundary, TableInfo.batchKeys?, hrelation]
  have hjunction : info.junction? = none := by simp [TableInfo.junction?, hrelation]
  obtain ⟨haliases, hsorter⟩ := TableInfo.aliases_of_direct hjunction
  cases batchClauses_eq_ok h with
  | whole hunpaged =>
      refine ⟨.mk _ [], ⟨?_, ⟨trivial, trivial⟩, by simp [not_paginate_of_not_isPaged hunpaged]⟩,
        ?_, rfl, rfl⟩
      · simp [TableClause.aliasName, Source.aliasName, haliases, TableInfo.keyAliases, hunpaged]
      · simp only [List.mem_singleton, forall_eq]
        exact inScope_scoped (by simp [TableClause.aliasName, Source.aliasName])
  | @page hpaged page hpage =>
      obtain ⟨halias, hscoped, hoffset⟩ :=
        directPage_scoped [batchAlias] [] hgrants hsorter hpage (by simp)
      exact keyedPage_introduces hboundary hpaged _ (halias.trans hsorter.symm) hscoped hoffset
        (.inl rfl) [] (by simp [haliases, hsorter]) trivial

theorem junctionBatchClauses_introduces (hgrants : Grants licence ctx info)
    {junction : Junction} {toTarget : JoinCondition} {thisKey parentKey : Column}
    (hrelation : info.relation = some (.junction junction))
    (hfetch : junction.fetch = .batch toTarget thisKey parentKey) {parts : Contribution}
    (h : junctionBatchClauses ctx info junction toTarget thisKey parentKey = .ok parts) :
    IntroducesBatch licence info parts := by
  have hboundary : info.isBoundary = true := by
    simp [TableInfo.isBoundary, TableInfo.batchKeys?, hrelation, hfetch]
  have hjunction : info.junction? = some junction := by simp [TableInfo.junction?, hrelation]
  obtain ⟨haliases, hsorter⟩ := TableInfo.aliases_of_junction hjunction
  have htarget : ∀ inside, junction.aliasName ∈ inside → info.aliasName ∈ inside →
      licence inside (toTarget.join (ctx.dialect.quote junction.aliasName)
        (ctx.dialect.quote info.aliasName) info.args ctx.context) :=
    fun inside hmem hother => hgrants _ _ inside (.batchTarget hrelation hfetch) rfl
      (by simp [Use.aliases, hmem, hother])
  cases junctionBatchClauses_eq_ok h with
  | whole hunpaged =>
      refine ⟨.mk _ [_], ⟨?_, ⟨trivial, htarget _ ?_ (by simp), trivial⟩,
        by simp [not_paginate_of_not_isPaged hunpaged]⟩, ?_, rfl, rfl⟩
      · simp [TableClause.aliasName, Source.aliasName, Join.aliasName, haliases,
          TableInfo.keyAliases, hunpaged]
      · simp [TableClause.aliasName, Source.aliasName]
      · simp only [List.mem_singleton, forall_eq]
        exact inScope_scoped (by simp [TableClause.aliasName, Source.aliasName])
  | @page hpaged page hpage =>
      obtain ⟨halias, hscoped, hoffset⟩ :=
        junctionPage_scoped [batchAlias] [] hgrants hjunction hpage (by simp) htarget
      exact keyedPage_introduces hboundary hpaged _ (halias.trans hsorter.symm) hscoped hoffset
        (.inr rfl) [.left _ _ _] (by simp [haliases, hsorter, Join.aliasName])
        ⟨htarget _ (by simp [hsorter]) (by simp), trivial⟩

end Clauses

end Plan

end JoinPlan
