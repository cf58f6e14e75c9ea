import JoinPlan.Proofs.Plan.Clauses
import JoinPlan.Proofs.Plan.SelectList

/-!
# The parts of a statement

A statement is put together from what each of its tables contributes itself: the clauses
that introduce it, its conditions and its ordering.  A leaf and a table fetched later add
nothing but items to the select list, so these parts are all there is besides the items.
The clauses of a table hold at most one subquery, the page its rows are cut to.
-/

namespace JoinPlan.Plan

open Sql

/-! ### Contributions without their items -/

namespace Contribution

/-- What a contribution holds besides items of the select list. -/
def bare (parts : Contribution) : Contribution := { parts with items := [] }

@[simp]
theorem bare_append (first second : Contribution) :
    (first.append second).bare = first.bare.append second.bare := rfl

@[simp]
theorem bare_ofItems (items : List (String × Expression)) : (ofItems items).bare = empty := rfl

@[simp]
theorem append_empty (parts : Contribution) : parts.append empty = parts := by
  simp [append, empty]

theorem bare_of_items {parts : Contribution} (h : parts.items = []) : parts.bare = parts := by
  rw [bare, ← h]

theorem clauses_concat (each : List Contribution) :
    (concat each).clauses = each.flatMap clauses := by
  induction each with
  | nil => rfl
  | cons first rest ih =>
      rw [concat_cons, List.flatMap_cons, ← ih]
      rfl

theorem order_concat (each : List Contribution) : (concat each).order = each.flatMap order := by
  induction each with
  | nil => rfl
  | cons first rest ih =>
      rw [concat_cons, List.flatMap_cons, ← ih]
      rfl

end Contribution

/-! ### What the tables of a statement contribute -/

/-- What a table contributes to a statement that fetches it. -/
def IsPart (ctx : StatementContext) (table : Table Node) (own : Contribution) : Prop :=
  ∃ parent path, (table.info.isBoundary && parent.isSome) = false ∧
    ownContribution ctx table.info parent path = .ok own

/-- A contribution put together, up to its items, from those of some tables. -/
def MadeOf (ctx : StatementContext) (tables : List (Table Node)) (parts : Contribution) : Prop :=
  ∃ each, List.Forall₂ (IsPart ctx) tables each ∧ parts.bare = .concat each

section MadeOf

variable {ctx : StatementContext}

theorem MadeOf.append {tables others : List (Table Node)} {first second : Contribution}
    (hfirst : MadeOf ctx tables first) (hsecond : MadeOf ctx others second) :
    MadeOf ctx (tables ++ others) (first.append second) := by
  obtain ⟨each, heach, hbare⟩ := hfirst
  obtain ⟨rest, hrest, hbareRest⟩ := hsecond
  refine ⟨each ++ rest, List.rel_append heach hrest, ?_⟩
  rw [Contribution.bare_append, hbare, hbareRest, Contribution.concat_append]

theorem MadeOf.ofItems (items : List (String × Expression)) : MadeOf ctx [] (.ofItems items) :=
  ⟨[], .nil, rfl⟩

theorem Contributes.madeOf {parent : String} {path : List String} {nodes : List Node}
    {each : List Contribution} (heach : Contributes ctx parent path nodes each)
    (hnodes : ∀ node ∈ nodes, ∀ part, node.contribution ctx parent path = .ok part →
      MadeOf ctx ((node.joined path).map Placed.table) part) :
    MadeOf ctx ((nodes.flatMap (Node.joined path)).map Placed.table) (.concat each) := by
  induction heach with
  | nil => exact .ofItems []
  | @cons node part nodes parts hpart hrest ih =>
      rw [List.forall_mem_cons] at hnodes
      rw [List.flatMap_cons, List.map_append, Contribution.concat_cons]
      exact (hnodes.1 part hpart).append (ih hnodes.2)

theorem Table.contribution_madeOf {table : Table Node} {parent : Option String}
    {path : List String} {parts : Contribution}
    (hhere : (table.info.isBoundary && parent.isSome) = false)
    (hchildren : ∀ child ∈ table.children, ∀ {parent path part},
      child.contribution ctx parent path = .ok part →
        MadeOf ctx ((child.joined path).map Placed.table) part)
    (h : table.contribution ctx parent path = .ok parts) :
    MadeOf ctx ((table.joined path).map Placed.table) parts := by
  obtain ⟨own, each, hown, heach, rfl⟩ := contribution_eq_ok hhere h
  have hfirst : MadeOf ctx [table] own := by
    refine ⟨[own], .cons ⟨parent, path, hhere, hown⟩ .nil, ?_⟩
    rw [Contribution.bare_of_items (ownContribution_items hhere hown)]
    exact (Contribution.append_empty own).symm
  rw [joined_eq, List.map_cons]
  exact hfirst.append
    (heach.madeOf fun child hchild _ => hchildren child (mem_statementChildren.mp hchild))

theorem Node.contribution_madeOf (node : Node) :
    ∀ {parent path part}, node.contribution ctx parent path = .ok part →
      MadeOf ctx ((node.joined path).map Placed.table) part := by
  induction node using Node.induction with
  | leaf node hleaf =>
      intro parent path part h
      rw [joined_of_leaf hleaf]
      cases node with
      | table child => cases hleaf
      | column | dependencies | composite | expression =>
          rw [← Except.ok.inj h]
          exact .ofItems _
      | nothing =>
          rw [← Except.ok.inj h]
          exact .ofItems []
  | table table ih =>
      intro parent path part h
      cases fetchedBelow h with
      | later hkeys =>
          rw [joined_of_batchKeys hkeys]
          exact .ofItems _
      | here hkeys h =>
          rw [joined_of_not_batched hkeys]
          exact table.contribution_madeOf (by simp [TableInfo.isBoundary, hkeys]) ih h

/-- A statement is made of what the tables it joins contribute. -/
theorem Table.contribution_root_madeOf {root : Table Node} {parts : Contribution}
    (h : root.contribution ctx none [] = .ok parts) :
    MadeOf ctx ((root.joined []).map Placed.table) parts :=
  root.contribution_madeOf (by simp) (fun child _ => child.contribution_madeOf) h

end MadeOf

/-! ### The page of a table -/

/-- The subqueries among the clauses of a table: its page, if its rows are cut to one. -/
inductive Pages (info : TableInfo) : List (String × Select) → Prop
  | whole (h : isPaged info = false) : Pages info []
  | page (h : isPaged info = true) {parameters : PageParameters} {select : Select}
      (hparameters : pageParameters info = .ok parameters)
      (horder : select.order = parameters.order) : Pages info [(info.junctionAlias, select)]

section Pages

variable {ctx : StatementContext} {info : TableInfo}

theorem page_parameters {reference aliasName : String} {conditions : List Expression}
    {extraJoin : Option (String × String × Expression)} {page : Page}
    (h : Plan.page info reference aliasName conditions extraJoin = .ok page) :
    ∃ parameters, pageParameters info = .ok parameters ∧ page.order = parameters.order := by
  unfold Plan.page at h
  obtain ⟨parameters, hparameters, h⟩ := bind_eq_ok.mp h
  obtain rfl := Except.ok.inj h
  exact ⟨parameters, hparameters, rfl⟩

/-- A page put under its own alias is the page of the table that is paged under it. -/
theorem Pages.of_page {reference aliasName : String} {conditions : List Expression}
    {extraJoin : Option (String × String × Expression)} {page : Page}
    (hpaged : isPaged info = true) (hsorter : info.junctionAlias = aliasName)
    (h : Plan.page info reference aliasName conditions extraJoin = .ok page) {select : Select}
    (horder : select.order = page.order) : Pages info [(page.aliasName, select)] := by
  obtain ⟨parameters, hparameters, hsame⟩ := page_parameters h
  rw [(page_aliasName h).1, ← hsorter]
  exact .page hpaged hparameters (horder.trans hsame)

theorem rootClauses_pages (hjunction : info.junction? = none) {clauses : List TableClause}
    (h : rootClauses ctx info = .ok clauses) :
    Pages info (clauses.filterMap TableClause.subquery?) := by
  cases rootClauses_eq_ok h with
  | whole hunpaged => exact .whole (eq_false_of_ne_true hunpaged)
  | page hpaged hpage =>
      exact .of_page hpaged (TableInfo.aliases_of_direct hjunction).2 hpage rfl

theorem joinClauses_pages (hjunction : info.junction? = none) {parent : String}
    {condition : JoinCondition} {clauses : List TableClause}
    (h : joinClauses ctx info parent condition = .ok clauses) :
    Pages info (clauses.filterMap TableClause.subquery?) := by
  cases joinClauses_eq_ok h with
  | whole hunpaged => exact .whole (eq_false_of_ne_true hunpaged)
  | page hpaged hpage =>
      exact .of_page hpaged (TableInfo.aliases_of_direct hjunction).2 hpage rfl

theorem junctionJoinClauses_pages {junction : Junction}
    (hjunction : info.junction? = some junction) {parent : String}
    {toJunction toTarget : JoinCondition} {clauses : List TableClause}
    (h : junctionJoinClauses ctx info parent junction toJunction toTarget = .ok clauses) :
    Pages info (clauses.filterMap TableClause.subquery?) := by
  cases junctionJoinClauses_eq_ok h with
  | whole hunpaged => exact .whole (eq_false_of_ne_true hunpaged)
  | page hpaged hpage =>
      exact .of_page hpaged (TableInfo.aliases_of_junction hjunction).2 hpage rfl

theorem batchClauses_pages (hjunction : info.junction? = none) {thisKey parentKey : Column}
    {parts : Contribution} (h : batchClauses ctx info thisKey parentKey = .ok parts) :
    Pages info (parts.clauses.filterMap TableClause.subquery?) ∧ parts.order = [] := by
  cases batchClauses_eq_ok h with
  | whole hunpaged => exact ⟨.whole (eq_false_of_ne_true hunpaged), rfl⟩
  | page hpaged hpage =>
      exact ⟨.of_page hpaged (TableInfo.aliases_of_direct hjunction).2 hpage rfl, rfl⟩

theorem junctionBatchClauses_pages {junction : Junction}
    (hjunction : info.junction? = some junction) {toTarget : JoinCondition}
    {thisKey parentKey : Column} {parts : Contribution}
    (h : junctionBatchClauses ctx info junction toTarget thisKey parentKey = .ok parts) :
    Pages info (parts.clauses.filterMap TableClause.subquery?) ∧ parts.order = [] := by
  cases junctionBatchClauses_eq_ok h with
  | whole hunpaged => exact ⟨.whole (eq_false_of_ne_true hunpaged), rfl⟩
  | page hpaged hpage =>
      exact ⟨.of_page hpaged (TableInfo.aliases_of_junction hjunction).2 hpage rfl, rfl⟩

/-- The clauses that introduce a table of a statement hold its page and no other, and order
nothing outside of it. -/
theorem Introduction.pages {parent : Option String} {relation : Contribution}
    (h : Introduction ctx info parent relation) :
    Pages info (relation.clauses.filterMap TableClause.subquery?) ∧ relation.order = [] := by
  cases h with
  | root hrelation hclauses =>
      exact ⟨rootClauses_pages (by simp [TableInfo.junction?, hrelation]) hclauses, rfl⟩
  | join hrelation hclauses =>
      exact ⟨joinClauses_pages (by simp [TableInfo.junction?, hrelation]) hclauses, rfl⟩
  | junctionJoin hrelation _ hclauses =>
      exact ⟨junctionJoinClauses_pages (by simp [TableInfo.junction?, hrelation]) hclauses, rfl⟩
  | batch hrelation hparts =>
      exact batchClauses_pages (by simp [TableInfo.junction?, hrelation]) hparts
  | junctionBatch hrelation _ hparts =>
      exact junctionBatchClauses_pages (by simp [TableInfo.junction?, hrelation]) hparts

/-- A table contributes its page and its ordering. -/
theorem IsPart.pages {table : Table Node} {own : Contribution} (h : IsPart ctx table own) :
    Pages table.info (own.clauses.filterMap TableClause.subquery?) ∧
      own.order = ownOrder table.info := by
  obtain ⟨parent, path, hhere, hown⟩ := h
  rw [ownContribution] at hown
  obtain ⟨relation, hrelation, hown⟩ := bind_eq_ok.mp hown
  obtain rfl := Except.ok.inj hown
  obtain ⟨hpages, horder⟩ := (relationClauses_cases hhere hrelation).pages
  have hfetched : (!table.info.isBoundary || parent.isNone) = true := by
    cases hboundary : table.info.isBoundary <;> simp_all
  refine ⟨hpages, ?_⟩
  simp [Contribution.append, hfetched, horder]

end Pages

end JoinPlan.Plan
