import JoinPlan.Proofs.Plan.PageOrder
import JoinPlan.Proofs.Plan.SameStatement

/-!
# Statements without lateral joins

SQLite quotes names as PostgreSQL does and has no lateral joins.  A table that needs one is
refused, and every other table contributes the same to the statements of both.  So SQLite
gives the statements of PostgreSQL in which no relation is joined laterally, and no others.
Only the select lists may differ: a key of several columns is written in two ways, so items
that are written alike for one may be told apart for the other.
-/

namespace JoinPlan

namespace Sql

/-! ### Relations at any depth -/

/-- A clause that joins a subquery laterally. -/
def TableClause.isLateral : TableClause → Bool
  | .join (.leftLateral _ _ _) | .join (.lateral _ _ _) => true
  | .join (.left _ _ _) | .source _ => false

/-- A clause whose relation are literal rows. -/
def TableClause.isValues : TableClause → Bool
  | .source (.values _ _ _) => true
  | .source (.table _ _) | .source (.select _ _) | .join _ => false

mutual

/-- The clauses of a statement and of its subqueries, at any depth. -/
def Select.relations : Select → List TableClause
  | ⟨_, source, joins, _, _, _, _⟩ => sourceRelations source ++ joinsRelations joins

def sourceRelations : Option Source → List TableClause
  | none => []
  | some source => source.relations

def Source.relations : Source → List TableClause
  | .table reference aliasName => [.source (.table reference aliasName)]
  | .select select aliasName => .source (.select select aliasName) :: select.relations
  | .values rows aliasName column => [.source (.values rows aliasName column)]

def joinsRelations : List Join → List TableClause
  | [] => []
  | join :: rest => join.relations ++ joinsRelations rest

def Join.relations : Join → List TableClause
  | .left reference aliasName on => [.join (.left reference aliasName on)]
  | .leftLateral select aliasName on =>
      .join (.leftLateral select aliasName on) :: select.relations
  | .lateral select aliasName on => .join (.lateral select aliasName on) :: select.relations

end

/-- A clause and those of its subquery, at any depth. -/
def TableClause.relations : TableClause → List TableClause
  | .source origin => origin.relations
  | .join joined => joined.relations

/-- A statement with a lateral join, in itself or in a subquery. -/
def Select.HasLateral (select : Select) : Prop :=
  ∃ relation ∈ select.relations, relation.isLateral = true

/-- A statement with literal rows, in itself or in a subquery. -/
def Select.HasValues (select : Select) : Prop :=
  ∃ relation ∈ select.relations, relation.isValues = true

/-- Clauses without a lateral join at any depth. -/
def LateralFree (clauses : List TableClause) : Prop :=
  ∀ clause ∈ clauses, ∀ relation ∈ clause.relations, relation.isLateral = false

/-- Clauses without literal rows at any depth. -/
def ValuesFree (clauses : List TableClause) : Prop :=
  ∀ clause ∈ clauses, ∀ relation ∈ clause.relations, relation.isValues = false

/-- Clauses with neither a lateral join nor literal rows at any depth. -/
structure Plain (clauses : List TableClause) : Prop where
  lateralFree : LateralFree clauses
  valuesFree : ValuesFree clauses

theorem lateralFree_append {first second : List TableClause} :
    LateralFree (first ++ second) ↔ LateralFree first ∧ LateralFree second :=
  List.forall_mem_append

theorem Plain.append {first second : List TableClause} (hfirst : Plain first)
    (hsecond : Plain second) : Plain (first ++ second) where
  lateralFree := lateralFree_append.mpr ⟨hfirst.lateralFree, hsecond.lateralFree⟩
  valuesFree := List.forall_mem_append.mpr ⟨hfirst.valuesFree, hsecond.valuesFree⟩

theorem plain_nil : Plain [] := ⟨List.forall_mem_nil _, List.forall_mem_nil _⟩

theorem TableClause.mem_relations_self (clause : TableClause) : clause ∈ clause.relations := by
  cases clause with
  | source origin => cases origin <;> simp [TableClause.relations, Source.relations]
  | join joined => cases joined <;> simp [TableClause.relations, Join.relations]

theorem joinsRelations_eq_flatMap (joins : List Join) :
    joinsRelations joins = joins.flatMap Join.relations := by
  induction joins with
  | nil => rfl
  | cons join rest ih => rw [joinsRelations, ih, List.flatMap_cons]

theorem Select.relations_eq_flatMap (select : Select) :
    select.relations = select.clauses.flatMap TableClause.relations := by
  obtain ⟨list, source, joins, condition, order, limit, offset⟩ := select
  rw [relations, joinsRelations_eq_flatMap, clauses, List.flatMap_append, List.flatMap_map]
  cases source with
  | none => simp [sourceRelations, List.flatMap_map, TableClause.relations]
  | some source => simp [sourceRelations, List.flatMap_map, TableClause.relations]

theorem Select.not_hasLateral_iff {select : Select} :
    ¬ select.HasLateral ↔ LateralFree select.clauses := by
  rw [HasLateral, relations_eq_flatMap, LateralFree, ← List.forall_mem_flatMap]
  simp only [not_exists, not_and, Bool.not_eq_true]

theorem Select.not_hasValues_iff {select : Select} :
    ¬ select.HasValues ↔ ValuesFree select.clauses := by
  rw [HasValues, relations_eq_flatMap, ValuesFree, ← List.forall_mem_flatMap]
  simp only [not_exists, not_and, Bool.not_eq_true]

/-- The rows of a page are those of its table, with one joined to it at most. -/
theorem Page.relations_select (page : Page) :
    ∀ relation ∈ page.select.relations, relation.isLateral = false ∧ relation.isValues = false := by
  rw [Select.relations_eq_flatMap]
  cases hextra : page.extraJoin with
  | none => simp [Page.select, Select.clauses, hextra, TableClause.relations, Source.relations,
      TableClause.isLateral, TableClause.isValues]
  | some extra => simp [Page.select, Select.clauses, hextra, TableClause.relations,
      Source.relations, Join.relations, TableClause.isLateral, TableClause.isValues]

/-- Whatever is put in place is a clause of the statement, and nothing else is. -/
theorem Select.mem_clauses_place {clauses : List TableClause} {select placed : Select}
    (h : select.place clauses = (true, placed)) {clause : TableClause} :
    clause ∈ placed.clauses ↔ clause ∈ select.clauses ∨ clause ∈ clauses := by
  induction clauses generalizing select with
  | nil =>
      rw [place, Prod.mk.injEq] at h
      simp [h.2]
  | cons first rest ih =>
      cases first with
      | join join =>
          rw [place] at h
          rw [ih h]
          simp [Select.clauses, or_assoc]
      | source source =>
          rw [place] at h
          split at h
          · cases h
          · rename_i hnone
            rw [ih h]
            have hsource : select.source = none := by simpa using hnone
            simp [Select.clauses, hsource, or_assoc, or_left_comm]

end Sql

namespace Plan

open Sql

/-! ### What is refused -/

/-- A run that gives what another one gives, but for the values with a lateral join.  What it
gives has no literal rows either. -/
structure Narrows {α : Type} (clauses : α → List TableClause) (first second : Except PlanError α) :
    Prop where
  widens : ∀ {value}, first = .ok value → second = .ok value ∧ Plain (clauses value)
  accepts : ∀ {value}, second = .ok value → LateralFree (clauses value) → first = .ok value

section Narrows

variable {α β : Type} {clauses : α → List TableClause} {later : β → List TableClause}

theorem Narrows.same {result : Except PlanError α}
    (h : ∀ value, result = .ok value → Plain (clauses value)) : Narrows clauses result result where
  widens hvalue := ⟨hvalue, h _ hvalue⟩
  accepts hvalue _ := hvalue

theorem Narrows.ok {value : α} (h : Plain (clauses value)) :
    Narrows clauses (.ok value) (.ok value) :=
  .same fun _ hvalue => Except.ok.inj hvalue ▸ h

/-- After what both begin with, a run may fail where another one joins laterally. -/
theorem Narrows.refused {action : Except PlanError β} {first second : β → Except PlanError α}
    (hfirst : ∀ found value, first found ≠ .ok value)
    (hsecond : ∀ found value, second found = .ok value → ¬ LateralFree (clauses value)) :
    Narrows clauses (action >>= first) (action >>= second) where
  widens hvalue := by
    obtain ⟨found, -, hvalue⟩ := bind_eq_ok.mp hvalue
    exact absurd hvalue (hfirst found _)
  accepts hvalue hfree := by
    obtain ⟨found, -, hvalue⟩ := bind_eq_ok.mp hvalue
    exact absurd hfree (hsecond found _ hvalue)

/-- Runs may go on from a value as long as its lateral joins are kept. -/
theorem Narrows.bind {first second : Except PlanError α} {more others : α → Except PlanError β}
    (h : Narrows clauses first second)
    (hnext : ∀ value, Plain (clauses value) → Narrows later (more value) (others value))
    (hkept : ∀ value result, others value = .ok result → LateralFree (later result) →
      LateralFree (clauses value)) :
    Narrows later (first >>= more) (second >>= others) where
  widens hresult := by
    obtain ⟨value, hvalue, hresult⟩ := bind_eq_ok.mp hresult
    obtain ⟨hsecond, hplain⟩ := h.widens hvalue
    obtain ⟨hothers, hlater⟩ := (hnext value hplain).widens hresult
    exact ⟨bind_eq_ok.mpr ⟨value, hsecond, hothers⟩, hlater⟩
  accepts hresult hfree := by
    obtain ⟨value, hvalue, hresult⟩ := bind_eq_ok.mp hresult
    have hfirst := h.accepts hvalue (hkept value _ hresult hfree)
    exact bind_eq_ok.mpr
      ⟨value, hfirst, (hnext value (h.widens hfirst).2).accepts hresult hfree⟩

theorem Narrows.ofClauses {first second : Except PlanError (List TableClause)}
    (h : Narrows id first second) :
    Narrows Contribution.clauses (do return .ofClauses (← first))
      (do return .ofClauses (← second)) := by
  refine h.bind (fun clauses hplain => .ok hplain) ?_
  rintro clauses parts ⟨⟩ hfree
  exact hfree

/-- Contributions put together have the lateral joins of either. -/
theorem Narrows.append {first second third fourth : Except PlanError Contribution}
    (h : Narrows Contribution.clauses first second)
    (hmore : Narrows Contribution.clauses third fourth) :
    Narrows Contribution.clauses
      (do
        let kept ← first
        let others ← third
        .ok (kept.append others))
      (do
        let kept ← second
        let others ← fourth
        .ok (kept.append others)) := by
  refine h.bind (fun kept hkept => hmore.bind (fun others hothers => .ok (hkept.append hothers)) ?_)
    ?_
  · rintro others parts ⟨⟩ hfree
    exact (lateralFree_append.mp hfree).2
  · intro kept parts hparts hfree
    obtain ⟨others, -, hparts⟩ := bind_eq_ok.mp hparts
    obtain rfl := Except.ok.inj hparts
    exact (lateralFree_append.mp hfree).1

end Narrows

/-! ### The clauses of one table -/

theorem not_lateralFree {clauses : List TableClause} {clause : TableClause}
    (hclause : clause ∈ clauses) (hlateral : clause.isLateral = true) : ¬ LateralFree clauses :=
  fun hfree => absurd (hfree clause hclause clause clause.mem_relations_self) (by simp [hlateral])

theorem plain_table (reference aliasName : String) :
    Plain [.source (.table reference aliasName)] := by
  constructor <;> simp [LateralFree, ValuesFree, TableClause.relations, Source.relations,
    TableClause.isLateral, TableClause.isValues]

theorem plain_left (reference aliasName : String) (on : Expression) :
    Plain [.join (.left reference aliasName on)] := by
  constructor <;> simp [LateralFree, ValuesFree, TableClause.relations, Join.relations,
    TableClause.isLateral, TableClause.isValues]

theorem plain_atRoot (page : Page) : Plain page.atRoot := by
  constructor <;> simp only [LateralFree, ValuesFree, Page.atRoot, List.forall_mem_singleton,
    TableClause.relations, Source.relations, List.forall_mem_cons]
  · exact ⟨rfl, fun relation hrelation => (page.relations_select relation hrelation).1⟩
  · exact ⟨rfl, fun relation hrelation => (page.relations_select relation hrelation).2⟩

section Clauses

variable (context : Context) (scope : List Json) (info : TableInfo)

theorem rootClauses_sqlite :
    Narrows id (rootClauses ⟨context, .sqlite, scope⟩ info)
      (rootClauses ⟨context, .postgres, scope⟩ info) := by
  refine .same fun clauses h => ?_
  cases rootClauses_eq_ok h with
  | whole => exact plain_table _ _
  | page => exact plain_atRoot _

theorem joinClauses_sqlite (parent : String) (condition : JoinCondition) :
    Narrows id (joinClauses ⟨context, .sqlite, scope⟩ info parent condition)
      (joinClauses ⟨context, .postgres, scope⟩ info parent condition) := by
  unfold joinClauses
  dsimp only
  split
  · refine .refused (fun page clauses h => by cases h) fun page clauses h => ?_
    obtain rfl := joined_eq_ok h
    exact not_lateralFree (List.mem_singleton_self _) rfl
  · exact .ok (plain_left _ _ _)

theorem junctionJoinClauses_sqlite (parent : String) (junction : Junction)
    (toJunction toTarget : JoinCondition) :
    Narrows id
      (junctionJoinClauses ⟨context, .sqlite, scope⟩ info parent junction toJunction toTarget)
      (junctionJoinClauses ⟨context, .postgres, scope⟩ info parent junction toJunction
        toTarget) := by
  unfold junctionJoinClauses
  dsimp only
  split
  · refine .refused (fun page clauses h => by cases h) fun page clauses h => ?_
    obtain ⟨paged, hjoined, h⟩ := bind_eq_ok.mp h
    obtain rfl := joined_eq_ok hjoined
    obtain rfl := Except.ok.inj h
    exact not_lateralFree (List.mem_append_left _ (List.mem_singleton_self _)) rfl
  · exact .ok ((plain_left _ _ _).append (plain_left _ _ _))

theorem batchClauses_sqlite (thisKey parentKey : Column) :
    Narrows Contribution.clauses
      (batchClauses ⟨context, .sqlite, scope⟩ info thisKey parentKey)
      (batchClauses ⟨context, .postgres, scope⟩ info thisKey parentKey) := by
  unfold batchClauses
  split
  · refine .refused (fun page parts h => by cases h) fun page parts h => ?_
    obtain ⟨clauses, hbatched, h⟩ := bind_eq_ok.mp h
    obtain rfl := Except.ok.inj (lift_dialect_eq_ok.mp hbatched)
    obtain rfl := Except.ok.inj h
    exact not_lateralFree (List.mem_cons_of_mem _ (List.mem_singleton_self _)) rfl
  · exact .ok (plain_table _ _)

theorem junctionBatchClauses_sqlite (junction : Junction) (toTarget : JoinCondition)
    (thisKey parentKey : Column) :
    Narrows Contribution.clauses
      (junctionBatchClauses ⟨context, .sqlite, scope⟩ info junction toTarget thisKey parentKey)
      (junctionBatchClauses ⟨context, .postgres, scope⟩ info junction toTarget thisKey
        parentKey) := by
  unfold junctionBatchClauses
  dsimp only
  split
  · refine .refused (fun page parts h => by cases h) fun page parts h => ?_
    obtain ⟨clauses, hbatched, h⟩ := bind_eq_ok.mp h
    obtain rfl := Except.ok.inj (lift_dialect_eq_ok.mp hbatched)
    obtain rfl := Except.ok.inj h
    exact not_lateralFree
      (List.mem_append_left _ (List.mem_cons_of_mem _ (List.mem_singleton_self _))) rfl
  · exact .ok ((plain_table _ _).append (plain_left _ _ _))

theorem relationClauses_sqlite (parent : Option String) (path : List String) :
    Narrows Contribution.clauses
      (relationClauses ⟨context, .sqlite, scope⟩ info parent path)
      (relationClauses ⟨context, .postgres, scope⟩ info parent path) := by
  -- no dialect joins a table to a root
  have herror : ∀ error : PlanError,
      Narrows Contribution.clauses (.error error) (.error error) :=
    fun error => .same fun parts h => by cases h
  unfold relationClauses
  cases info.relation with
  | none => exact (rootClauses_sqlite context scope info).ofClauses
  | some relation =>
      cases relation with
      | join condition =>
          cases parent with
          | none => exact herror _
          | some parent => exact (joinClauses_sqlite context scope info parent condition).ofClauses
      | batch thisKey parentKey =>
          cases parent with
          | none => exact batchClauses_sqlite context scope info thisKey parentKey
          | some parent => exact .ok plain_nil
      | junction junction =>
          dsimp only
          cases junction.fetch with
          | joins toJunction toTarget =>
              cases parent with
              | none => exact herror _
              | some parent =>
                  exact (junctionJoinClauses_sqlite context scope info parent junction toJunction
                    toTarget).ofClauses
          | batch toTarget thisKey parentKey =>
              cases parent with
              | none =>
                  exact junctionBatchClauses_sqlite context scope info junction toTarget thisKey
                    parentKey
              | some parent => exact .ok plain_nil

theorem ownContribution_sqlite (parent : Option String) (path : List String) :
    Narrows Contribution.clauses
      (ownContribution ⟨context, .sqlite, scope⟩ info parent path)
      (ownContribution ⟨context, .postgres, scope⟩ info parent path) := by
  refine (relationClauses_sqlite context scope info parent path).bind
    (fun relation hplain => .ok hplain) ?_
  rintro relation parts ⟨⟩ hfree
  exact hfree

end Clauses

/-! ### Tables and their children -/

section Trees

variable {context : Context} {scope : List Json}

/-- Nodes that SQLite refuses exactly if they join laterally. -/
def KeepsLateralFree (context : Context) (scope : List Json) (nodes : List Node) : Prop :=
  ∀ node ∈ nodes, ∀ parent path, Narrows Contribution.clauses
    (node.contribution ⟨context, .sqlite, scope⟩ parent path)
    (node.contribution ⟨context, .postgres, scope⟩ parent path)

theorem nodesContribution_sqlite {nodes : List Node} (h : KeepsLateralFree context scope nodes)
    (parent : String) (path : List String) :
    Narrows Contribution.clauses
      (nodesContribution ⟨context, .sqlite, scope⟩ parent path nodes)
      (nodesContribution ⟨context, .postgres, scope⟩ parent path nodes) := by
  induction nodes with
  | nil => exact .ok plain_nil
  | cons node rest ih =>
      rw [KeepsLateralFree, List.forall_mem_cons] at h
      exact (h.1 parent path).append (ih h.2)

theorem bucketsContribution_sqlite {buckets : List (String × List Node)}
    (h : KeepsLateralFree context scope (buckets.flatMap Prod.snd)) (parent : String)
    (path : List String) :
    Narrows Contribution.clauses
      (bucketsContribution ⟨context, .sqlite, scope⟩ parent path buckets)
      (bucketsContribution ⟨context, .postgres, scope⟩ parent path buckets) := by
  induction buckets with
  | nil => exact .ok plain_nil
  | cons bucket rest ih =>
      rw [KeepsLateralFree, List.flatMap_cons, List.forall_mem_append] at h
      rw [bucketsContribution, bucketsContribution, bucketContribution, bucketContribution]
      exact (nodesContribution_sqlite h.1 parent path).append (ih h.2)

/-- SQLite refuses the tables that need a lateral join, and a table above of them. -/
theorem Table.contribution_sqlite {table : Table Node}
    (h : KeepsLateralFree context scope table.children) (parent : Option String)
    (path : List String) :
    Narrows Contribution.clauses
      (table.contribution ⟨context, .sqlite, scope⟩ parent path)
      (table.contribution ⟨context, .postgres, scope⟩ parent path) := by
  obtain ⟨info, shared, typed⟩ := table
  rw [KeepsLateralFree, Table.children, List.forall_mem_append] at h
  have hown := ownContribution_sqlite context scope info parent path
  have hbelow := (bucketsContribution_sqlite h.2 info.aliasName (path ++ [info.aliasName])).append
    (nodesContribution_sqlite h.1 info.aliasName (path ++ [info.aliasName]))
  rw [contribution, contribution]
  by_cases hlater : (info.isBoundary && parent.isSome) = true
  · simp only [if_pos hlater]
    exact hown.bind (fun own hplain => .ok hplain)
      fun own parts h hfree => Except.ok.inj h ▸ hfree
  · have htable := hown.append hbelow
    simp only [bind_assoc] at htable
    simp only [if_neg hlater, Contribution.append_assoc]
    exact htable

theorem Node.contribution_sqlite (node : Node) : ∀ parent path,
    Narrows Contribution.clauses
      (node.contribution ⟨context, .sqlite, scope⟩ parent path)
      (node.contribution ⟨context, .postgres, scope⟩ parent path) := by
  induction node using Node.induction with
  | leaf node hleaf =>
      intro parent path
      cases node with
      | table child => cases hleaf
      | column | dependencies | composite | expression | nothing =>
          exact .ok plain_nil
  | table table ih => exact fun parent path => Table.contribution_sqlite ih (some parent) path

end Trees

/-! ### Statements -/

/-- Statements with the same relations, conditions and ordering that select columns under the
same aliases. -/
structure AgreeingStatements (first second : Select) : Prop where
  aliases : ∀ aliasName,
    aliasName ∈ first.list.columns.map Prod.fst ↔ aliasName ∈ second.list.columns.map Prod.fst
  source : second.source = first.source
  joins : second.joins = first.joins
  condition : second.condition = first.condition
  order : second.order = first.order
  limit : second.limit = first.limit
  offset : second.offset = first.offset

/-- Dropping items that are written alike loses no alias. -/
theorem mem_aliases_distinctItems {dialect : Dialect} {items : List (String × Expression)}
    {aliasName : String} :
    aliasName ∈ (distinctItems dialect items).map Prod.fst ↔ aliasName ∈ items.map Prod.fst := by
  constructor
  · exact fun h => List.map_subset Prod.fst (fun item => Assoc.mem_of_mem_distinctBy) h
  · intro h
    obtain ⟨item, hitem, rfl⟩ := List.mem_map.mp h
    obtain ⟨kept, hkept, htext⟩ := Assoc.exists_mem_distinctBy (renderItem dialect) hitem
    exact List.mem_map.mpr ⟨kept, hkept, alias_eq_of_renderItem_eq htext⟩

/-- Which dialect items are compared in decides only which of them are kept. -/
theorem assemble_agrees (first second : Dialect) (fieldName : String) (parts : Contribution) :
    AlikeResults (Option.Rel AgreeingStatements) (assemble first fieldName parts)
      (assemble second fieldName parts) := by
  refine assemble_congr rfl rfl rfl rfl fun select hlist => ?_
  refine ⟨fun aliasName => ?_, rfl, rfl, rfl, rfl, rfl, rfl⟩
  rw [hlist]
  exact mem_aliases_distinctItems.trans mem_aliases_distinctItems.symm

theorem exists_assemble_agrees {first : Dialect} {fieldName : String} {parts : Contribution}
    {select : Select} (h : assemble first fieldName parts = .ok (some select)) (second : Dialect) :
    ∃ other, assemble second fieldName parts = .ok (some other) ∧
      AgreeingStatements select other := by
  have halike := assemble_agrees first second fieldName parts
  rw [h] at halike
  generalize assemble second fieldName parts = result at halike ⊢
  cases halike with
  | ok hrelated =>
      cases hrelated with
      | some hagrees => exact ⟨_, rfl, hagrees⟩

theorem mem_clauses_of_assemble {dialect : Dialect} {fieldName : String} {parts : Contribution}
    {select : Select} (h : assemble dialect fieldName parts = .ok (some select))
    {clause : TableClause} : clause ∈ select.clauses ↔ clause ∈ parts.clauses := by
  unfold assemble at h
  dsimp only at h
  split at h
  · cases h
  · split at h
    · cases h
    · rename_i placed hplace
      obtain rfl := Option.some.inj (Except.ok.inj h)
      change clause ∈ placed.clauses ↔ _
      rw [Select.mem_clauses_place hplace]
      simp [Select.clauses, Select.ofList]

theorem not_hasLateral_of_assemble {dialect : Dialect} {fieldName : String} {parts : Contribution}
    {select : Select} (h : assemble dialect fieldName parts = .ok (some select)) :
    ¬ select.HasLateral ↔ LateralFree parts.clauses := by
  simp only [Select.not_hasLateral_iff, LateralFree, mem_clauses_of_assemble h]

theorem not_hasValues_of_assemble {dialect : Dialect} {fieldName : String} {parts : Contribution}
    {select : Select} (h : assemble dialect fieldName parts = .ok (some select)) :
    ¬ select.HasValues ↔ ValuesFree parts.clauses := by
  simp only [Select.not_hasValues_iff, ValuesFree, mem_clauses_of_assemble h]

theorem Table.statement_of_contribution {root : Table Node} {ctx : StatementContext}
    {parts : Contribution} (h : root.contribution ctx none [] = .ok parts) {result : Option Select}
    (hassemble : assemble ctx.dialect root.info.fieldName parts = .ok result) :
    root.statement ctx = .ok result := by
  rw [statement, h]
  change (liftM (assemble ctx.dialect root.info.fieldName parts) : Except PlanError _) = _
  rw [hassemble]
  rfl

/-- SQLite agrees with PostgreSQL wherever it answers.  For every table of any tree, with any
context and any keys, a statement of SQLite goes with a statement of PostgreSQL that differs
from it in the select list at most, and there not in the aliases; neither has a lateral join or
literal rows, in itself or in a subquery.  And SQLite answers with a statement wherever that of
PostgreSQL has no lateral join. -/
theorem Table.statement_sqlite (root : Table Node) (context : Context) (scope : List Json) :
    (∀ select, root.statement ⟨context, .sqlite, scope⟩ = .ok (some select) →
      ∃ other, root.statement ⟨context, .postgres, scope⟩ = .ok (some other) ∧
        AgreeingStatements select other ∧ ¬ select.HasLateral ∧ ¬ select.HasValues ∧
        ¬ other.HasLateral ∧ ¬ other.HasValues) ∧
    (∀ other, root.statement ⟨context, .postgres, scope⟩ = .ok (some other) →
      ¬ other.HasLateral →
        ∃ select, root.statement ⟨context, .sqlite, scope⟩ = .ok (some select)) := by
  have hroot : Narrows Contribution.clauses (root.contribution ⟨context, .sqlite, scope⟩ none [])
      (root.contribution ⟨context, .postgres, scope⟩ none []) :=
    Table.contribution_sqlite (fun node _ => node.contribution_sqlite) none []
  constructor
  · intro select h
    obtain ⟨parts, hparts, hassemble⟩ := statement_eq_ok h
    obtain ⟨hsame, hplain⟩ := hroot.widens hparts
    obtain ⟨other, hother, hagrees⟩ := exists_assemble_agrees hassemble .postgres
    exact ⟨other, statement_of_contribution hsame hother, hagrees,
      (not_hasLateral_of_assemble hassemble).mpr hplain.lateralFree,
      (not_hasValues_of_assemble hassemble).mpr hplain.valuesFree,
      (not_hasLateral_of_assemble hother).mpr hplain.lateralFree,
      (not_hasValues_of_assemble hother).mpr hplain.valuesFree⟩
  · intro other h hlateral
    obtain ⟨parts, hparts, hassemble⟩ := statement_eq_ok h
    have hfree := (not_hasLateral_of_assemble hassemble).mp hlateral
    obtain ⟨select, hselect, -⟩ := exists_assemble_agrees hassemble .sqlite
    exact ⟨select, statement_of_contribution (hroot.accepts hparts hfree) hselect⟩

/-- The titled posts, whose page is the FROM clause in both dialects. -/
theorem statement_sqlite_titledPosts :
    ∃ select other, titledPosts.statement ⟨.null, .sqlite, []⟩ = .ok (some select) ∧
      titledPosts.statement ⟨.null, .postgres, []⟩ = .ok (some other) ∧
      AgreeingStatements select other ∧ ¬ other.HasLateral ∧ ¬ other.HasValues ∧
      ∃ again, titledPosts.statement ⟨.null, .sqlite, []⟩ = .ok (some again) := by
  obtain ⟨select, hselect⟩ :
      ∃ select, titledPosts.statement ⟨.null, .sqlite, []⟩ = .ok (some select) := ⟨_, rfl⟩
  obtain ⟨hanswers, haccepts⟩ := titledPosts.statement_sqlite .null []
  obtain ⟨other, hother, hagrees, -, -, hlateral, hvalues⟩ := hanswers select hselect
  exact ⟨select, other, hselect, hother, hagrees, hlateral, hvalues,
    haccepts other hother hlateral⟩

/-- Tags through a junction are refused if they are paged, for their page would be joined
laterally. -/
example : (postsPlan postTags).statement ⟨.null, .sqlite, []⟩ =
    .error (.dialect ⟨.sqlite, .joinedMany⟩) := rfl

end Plan

end JoinPlan
