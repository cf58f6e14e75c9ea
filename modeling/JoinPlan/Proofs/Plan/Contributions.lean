import JoinPlan.Plan.Statement
import JoinPlan.Proofs.Failure
import JoinPlan.Proofs.Plan.Tree

/-!
# What a table contributes to a statement

Inversion of the walk that builds a statement: when it succeeds, the contribution
of a table is its own followed by those of its children, and a table fetched later
leaves its parent's key and nothing else.
-/

namespace JoinPlan.Plan

open Sql

namespace Contribution

def concat (parts : List Contribution) : Contribution :=
  parts.foldr append empty

@[simp]
theorem concat_nil : concat [] = empty := rfl

@[simp]
theorem concat_cons (first : Contribution) (rest : List Contribution) :
    concat (first :: rest) = first.append (concat rest) := rfl

theorem append_assoc (first second third : Contribution) :
    (first.append second).append third = first.append (second.append third) := by
  simp [append]

@[simp]
theorem empty_append (parts : Contribution) : empty.append parts = parts := rfl

theorem concat_append (first second : List Contribution) :
    concat (first ++ second) = (concat first).append (concat second) := by
  induction first with
  | nil => simp
  | cons part rest ih => simp [ih, append_assoc]

@[simp]
theorem items_append (first second : Contribution) :
    (first.append second).items = first.items ++ second.items := rfl

end Contribution

/-- Each node has the contribution at its place. -/
def Contributes (ctx : StatementContext) (parent : String) (path : List String)
    (nodes : List Node) (parts : List Contribution) : Prop :=
  List.Forall₂ (fun node part => node.contribution ctx parent path = .ok part) nodes parts

theorem nodesContribution_eq_ok {ctx : StatementContext} {parent : String} {path : List String}
    {nodes : List Node} {parts : Contribution}
    (h : nodesContribution ctx parent path nodes = .ok parts) :
    ∃ each, Contributes ctx parent path nodes each ∧ parts = .concat each := by
  induction nodes generalizing parts with
  | nil =>
      rw [nodesContribution, Except.ok.injEq] at h
      exact ⟨[], .nil, h.symm⟩
  | cons node rest ih =>
      rw [nodesContribution] at h
      obtain ⟨first, hfirst, h⟩ := bind_eq_ok.mp h
      obtain ⟨others, hothers, h⟩ := bind_eq_ok.mp h
      obtain ⟨each, heach, rfl⟩ := ih hothers
      exact ⟨first :: each, .cons hfirst heach, (Except.ok.inj h).symm⟩

theorem bucketsContribution_eq_ok {ctx : StatementContext} {parent : String} {path : List String}
    {buckets : List (String × List Node)} {parts : Contribution}
    (h : bucketsContribution ctx parent path buckets = .ok parts) :
    ∃ each, Contributes ctx parent path (buckets.flatMap Prod.snd) each ∧
      parts = .concat each := by
  induction buckets generalizing parts with
  | nil =>
      rw [bucketsContribution, Except.ok.injEq] at h
      exact ⟨[], .nil, h.symm⟩
  | cons bucket rest ih =>
      rw [bucketsContribution] at h
      obtain ⟨first, hfirst, h⟩ := bind_eq_ok.mp h
      obtain ⟨others, hothers, h⟩ := bind_eq_ok.mp h
      rw [bucketContribution] at hfirst
      obtain ⟨ofBucket, hbucket, rfl⟩ := nodesContribution_eq_ok hfirst
      obtain ⟨ofRest, hrest, rfl⟩ := ih hothers
      refine ⟨ofBucket ++ ofRest, List.rel_append hbucket hrest, ?_⟩
      rw [Contribution.concat_append]
      exact (Except.ok.inj h).symm

namespace Table

variable {ctx : StatementContext} {parent : Option String} {path : List String}
  {table : Table Node} {parts : Contribution}

/-- A table that is fetched by this statement: what it contributes itself, then
what its children do. -/
theorem contribution_eq_ok (hhere : (table.info.isBoundary && parent.isSome) = false)
    (h : table.contribution ctx parent path = .ok parts) :
    ∃ own each, ownContribution ctx table.info parent path = .ok own ∧
      Contributes ctx table.info.aliasName (path ++ [table.info.aliasName])
        table.statementChildren each ∧
      parts = own.append (.concat each) := by
  obtain ⟨info, shared, typed⟩ := table
  rw [contribution] at h
  obtain ⟨own, hown, h⟩ := bind_eq_ok.mp h
  rw [if_neg (by simpa using hhere)] at h
  obtain ⟨ofTyped, htyped, h⟩ := bind_eq_ok.mp h
  obtain ⟨ofShared, hshared, h⟩ := bind_eq_ok.mp h
  obtain ⟨eachTyped, hEachTyped, rfl⟩ := bucketsContribution_eq_ok htyped
  obtain ⟨eachShared, hEachShared, rfl⟩ := nodesContribution_eq_ok hshared
  refine ⟨own, eachTyped ++ eachShared, hown, List.rel_append hEachTyped hEachShared, ?_⟩
  rw [Contribution.concat_append, ← Contribution.append_assoc]
  exact (Except.ok.inj h).symm

/-- A table that is fetched later leaves the key of its parent. -/
theorem contribution_of_boundary {parent : String} {thisKey parentKey : Column}
    (hkeys : table.info.batchKeys? = some (thisKey, parentKey)) :
    table.contribution ctx (some parent) path = .ok (keyContribution parent path parentKey) := by
  obtain ⟨info, shared, typed⟩ := table
  have hboundary : info.isBoundary = true := by simp [TableInfo.isBoundary, hkeys]
  have hrelation : relationClauses ctx info (some parent) path =
      .ok (keyContribution parent path parentKey) := by
    unfold TableInfo.batchKeys? at hkeys
    unfold relationClauses
    cases hrel : info.relation with
    | none => simp [hrel] at hkeys
    | some relation =>
        cases relation with
        | join condition => simp [hrel] at hkeys
        | batch this other =>
            simp only [hrel, Option.some.injEq, Prod.mk.injEq] at hkeys
            simp [hkeys.2]
        | junction junction =>
            simp only [hrel] at hkeys ⊢
            cases hfetch : junction.fetch with
            | joins toJunction toTarget => simp [hfetch] at hkeys
            | batch toTarget this other =>
                simp only [hfetch, Option.some.injEq, Prod.mk.injEq] at hkeys
                simp [hkeys.2]
  rw [contribution, ownContribution, hrelation]
  simp [hboundary, bind, Except.bind, keyContribution, Contribution.ofItems,
    Contribution.append, Contribution.empty]

end Table

/-! ### How a table is introduced -/

theorem lift_request_eq_ok {α : Type} {action : Except RequestError α} {value : α} :
    (liftM action : Except PlanError α) = .ok value ↔ action = .ok value := by
  cases action with
  | error error => exact ⟨fun h => (by cases h), fun h => (by cases h)⟩
  | ok found => exact ⟨fun h => congrArg _ (Except.ok.inj h), fun h => congrArg _ (Except.ok.inj h)⟩

theorem lift_dialect_eq_ok {α : Type} {action : Except UnsupportedPage α} {value : α} :
    (liftM action : Except PlanError α) = .ok value ↔ action = .ok value := by
  cases action with
  | error error => exact ⟨fun h => (by cases h), fun h => (by cases h)⟩
  | ok found => exact ⟨fun h => congrArg _ (Except.ok.inj h), fun h => congrArg _ (Except.ok.inj h)⟩

theorem joined_eq_ok {page : Page} {dialect : Dialect} {form : PageForm} {on : Expression}
    {clauses : List TableClause}
    (h : (liftM (page.joined dialect form on) : Except PlanError _) = .ok clauses) :
    clauses = [.join (.leftLateral page.select page.aliasName on)] := by
  have hjoined := lift_dialect_eq_ok.mp h
  unfold Page.joined at hjoined
  split at hjoined
  · exact (Except.ok.inj hjoined).symm
  · cases hjoined

/-- The condition that two tables are joined on. -/
def builtJoin (ctx : StatementContext) (args : Arguments) (condition : JoinCondition)
    (parent child : String) : Expression :=
  .raw (condition.join (ctx.dialect.quote parent) (ctx.dialect.quote child) args ctx.context)

/-- What a table is introduced by: its rows as they are, or a page of them. -/
inductive WholeOrPaged {α : Type} (info : TableInfo) (cut : Except PlanError Page) (rows : α)
    (paged : Page → α) : α → Prop
  | whole (hunpaged : ¬ isPaged info = true) : WholeOrPaged info cut rows paged rows
  | page (hpaged : isPaged info = true) {page : Page} (hpage : cut = .ok page) :
      WholeOrPaged info cut rows paged (paged page)

section Introduction

variable {ctx : StatementContext} {info : TableInfo} {junction : Junction}
  {clauses : List TableClause} {parts : Contribution}

theorem rootClauses_eq_ok (h : rootClauses ctx info = .ok clauses) :
    WholeOrPaged info
      (page info info.reference info.aliasName
        (builtCondition ctx info.condition info.aliasName info.args) none)
      [.source (.table info.reference info.aliasName)] Page.atRoot clauses := by
  unfold rootClauses at h
  split at h
  · rename_i hpaged
    obtain ⟨page, hpage, h⟩ := bind_eq_ok.mp h
    exact Except.ok.inj h ▸ .page hpaged hpage
  · rename_i hunpaged
    exact Except.ok.inj h ▸ .whole hunpaged

theorem joinClauses_eq_ok {parent : String} {condition : JoinCondition}
    (h : joinClauses ctx info parent condition = .ok clauses) :
    WholeOrPaged info
      (page info info.reference info.aliasName
        (builtJoin ctx info.args condition parent info.aliasName ::
          builtCondition ctx info.condition info.aliasName info.args) none)
      [.join (.left info.reference info.aliasName
        (builtJoin ctx info.args condition parent info.aliasName))]
      (fun page => [.join (.leftLateral page.select page.aliasName
        (builtJoin ctx info.args condition parent info.aliasName))]) clauses := by
  unfold joinClauses at h
  dsimp only at h
  split at h
  · rename_i hpaged
    obtain ⟨page, hpage, h⟩ := bind_eq_ok.mp h
    obtain rfl := joined_eq_ok h
    exact .page hpaged hpage
  · rename_i hunpaged
    exact Except.ok.inj h ▸ .whole hunpaged

theorem junctionJoinClauses_eq_ok {parent : String} {toJunction toTarget : JoinCondition}
    (h : junctionJoinClauses ctx info parent junction toJunction toTarget = .ok clauses) :
    WholeOrPaged info
      (page info junction.reference junction.aliasName
        (builtJoin ctx info.args toJunction parent junction.aliasName :: ownConditions ctx info)
        (insideJoin info (builtJoin ctx info.args toTarget junction.aliasName info.aliasName)))
      [.join (.left junction.reference junction.aliasName
          (builtJoin ctx info.args toJunction parent junction.aliasName)),
        .join (.left info.reference info.aliasName
          (builtJoin ctx info.args toTarget junction.aliasName info.aliasName))]
      (fun page =>
        [.join (.leftLateral page.select page.aliasName
            (builtJoin ctx info.args toJunction parent junction.aliasName)),
          .join (.left info.reference info.aliasName
            (builtJoin ctx info.args toTarget junction.aliasName info.aliasName))]) clauses := by
  unfold junctionJoinClauses at h
  dsimp only at h
  split at h
  · rename_i hpaged
    obtain ⟨page, hpage, h⟩ := bind_eq_ok.mp h
    obtain ⟨paged, hjoined, h⟩ := bind_eq_ok.mp h
    obtain rfl := joined_eq_ok hjoined
    exact Except.ok.inj h ▸ .page hpaged hpage
  · rename_i hunpaged
    exact Except.ok.inj h ▸ .whole hunpaged

theorem batchClauses_eq_ok {thisKey parentKey : Column}
    (h : batchClauses ctx info thisKey parentKey = .ok parts) :
    WholeOrPaged info
      (page info info.reference info.aliasName
        (builtCondition ctx info.condition info.aliasName info.args) none)
      { Contribution.empty with
        clauses := [.source (.table info.reference info.aliasName)]
        conditions := [inScope ctx info.aliasName thisKey.name] }
      (fun page => .ofClauses
        [.source (Page.keySource (batchKeys ctx thisKey parentKey)),
          .join (.lateral (page.keyed (batchKeys ctx thisKey parentKey)).select page.aliasName
            (page.keyMatch (batchKeys ctx thisKey parentKey)))]) parts := by
  unfold batchClauses at h
  split at h
  · rename_i hpaged
    obtain ⟨page, hpage, h⟩ := bind_eq_ok.mp h
    obtain ⟨clauses, hclauses, h⟩ := bind_eq_ok.mp h
    have hbatched := lift_dialect_eq_ok.mp hclauses
    unfold Page.batchedOne at hbatched
    split at hbatched
    · obtain rfl := Except.ok.inj hbatched
      exact Except.ok.inj h ▸ .page hpaged hpage
    · cases hbatched
  · rename_i hunpaged
    exact Except.ok.inj h ▸ .whole hunpaged

theorem junctionBatchClauses_eq_ok {toTarget : JoinCondition} {thisKey parentKey : Column}
    (h : junctionBatchClauses ctx info junction toTarget thisKey parentKey = .ok parts) :
    WholeOrPaged info
      (page info junction.reference junction.aliasName (ownConditions ctx info)
        (insideJoin info (builtJoin ctx info.args toTarget junction.aliasName info.aliasName)))
      { Contribution.empty with
        clauses :=
          [.source (.table junction.reference junction.aliasName),
            .join (.left info.reference info.aliasName
              (builtJoin ctx info.args toTarget junction.aliasName info.aliasName))]
        conditions := [inScope ctx junction.aliasName thisKey.name] }
      (fun page => .ofClauses
        [.source (Page.keySource (batchKeys ctx thisKey parentKey)),
          .join (.leftLateral (page.keyed (batchKeys ctx thisKey parentKey)).select page.aliasName
            (page.keyMatch (batchKeys ctx thisKey parentKey))),
          .join (.left info.reference info.aliasName
            (builtJoin ctx info.args toTarget junction.aliasName info.aliasName))]) parts := by
  unfold junctionBatchClauses at h
  dsimp only at h
  split at h
  · rename_i hpaged
    obtain ⟨page, hpage, h⟩ := bind_eq_ok.mp h
    obtain ⟨clauses, hclauses, h⟩ := bind_eq_ok.mp h
    have hbatched := lift_dialect_eq_ok.mp hclauses
    unfold Page.batchedMany at hbatched
    split at hbatched
    · obtain rfl := Except.ok.inj hbatched
      exact Except.ok.inj h ▸ .page hpaged hpage
    · cases hbatched
  · rename_i hunpaged
    exact Except.ok.inj h ▸ .whole hunpaged

end Introduction

/-- How a statement introduces a table that it fetches: as its relation has it, at the root or
below the parent with an alias. -/
inductive Introduction (ctx : StatementContext) (info : TableInfo) :
    Option String → Contribution → Prop
  | root {parent : Option String} {clauses : List TableClause} (hrelation : info.relation = none)
      (h : rootClauses ctx info = .ok clauses) :
      Introduction ctx info parent (.ofClauses clauses)
  | join {condition : JoinCondition} {parent : String} {clauses : List TableClause}
      (hrelation : info.relation = some (.join condition))
      (h : joinClauses ctx info parent condition = .ok clauses) :
      Introduction ctx info (some parent) (.ofClauses clauses)
  | junctionJoin {junction : Junction} {toJunction toTarget : JoinCondition} {parent : String}
      {clauses : List TableClause} (hrelation : info.relation = some (.junction junction))
      (hfetch : junction.fetch = .joins toJunction toTarget)
      (h : junctionJoinClauses ctx info parent junction toJunction toTarget = .ok clauses) :
      Introduction ctx info (some parent) (.ofClauses clauses)
  | batch {thisKey parentKey : Column} {parts : Contribution}
      (hrelation : info.relation = some (.batch thisKey parentKey))
      (h : batchClauses ctx info thisKey parentKey = .ok parts) :
      Introduction ctx info none parts
  | junctionBatch {junction : Junction} {toTarget : JoinCondition} {thisKey parentKey : Column}
      {parts : Contribution} (hrelation : info.relation = some (.junction junction))
      (hfetch : junction.fetch = .batch toTarget thisKey parentKey)
      (h : junctionBatchClauses ctx info junction toTarget thisKey parentKey = .ok parts) :
      Introduction ctx info none parts

/-- The clauses that introduce a table are those its relation has for it, case by case. -/
theorem relationClauses_cases {ctx : StatementContext} {info : TableInfo}
    {parent : Option String} {path : List String} {parts : Contribution}
    (hhere : (info.isBoundary && parent.isSome) = false)
    (h : relationClauses ctx info parent path = .ok parts) :
    Introduction ctx info parent parts := by
  unfold relationClauses at h
  cases hrelation : info.relation with
  | none =>
      rw [hrelation] at h
      obtain ⟨clauses, hclauses, h⟩ := bind_eq_ok.mp h
      exact Except.ok.inj h ▸ .root hrelation hclauses
  | some relation =>
      cases relation with
      | join condition =>
          cases parent with
          | none => simp [hrelation] at h
          | some parent =>
              rw [hrelation] at h
              obtain ⟨clauses, hclauses, h⟩ := bind_eq_ok.mp h
              exact Except.ok.inj h ▸ .join hrelation hclauses
      | batch thisKey parentKey =>
          cases parent with
          | none => exact .batch hrelation (by simpa [hrelation] using h)
          | some parent => simp [TableInfo.isBoundary, TableInfo.batchKeys?, hrelation] at hhere
      | junction junction =>
          cases hfetch : junction.fetch with
          | joins toJunction toTarget =>
              cases parent with
              | none => simp [hrelation, hfetch] at h
              | some parent =>
                  simp only [hrelation, hfetch] at h
                  obtain ⟨clauses, hclauses, h⟩ := bind_eq_ok.mp h
                  exact Except.ok.inj h ▸ .junctionJoin hrelation hfetch hclauses
          | batch toTarget thisKey parentKey =>
              cases parent with
              | none => exact .junctionBatch hrelation hfetch (by simpa [hrelation, hfetch] using h)
              | some parent =>
                  simp [TableInfo.isBoundary, TableInfo.batchKeys?, hrelation, hfetch] at hhere

/-- Only a key left behind is an item that belongs to no child. -/
theorem Introduction.items {ctx : StatementContext} {info : TableInfo} {parent : Option String}
    {parts : Contribution} (h : Introduction ctx info parent parts) : parts.items = [] := by
  cases h with
  | root | join | junctionJoin => rfl
  | batch _ h => cases batchClauses_eq_ok h <;> rfl
  | junctionBatch _ _ h => cases junctionBatchClauses_eq_ok h <;> rfl

theorem ownContribution_items {ctx : StatementContext} {info : TableInfo} {parent : Option String}
    {path : List String} {own : Contribution}
    (hhere : (info.isBoundary && parent.isSome) = false)
    (h : ownContribution ctx info parent path = .ok own) : own.items = [] := by
  rw [ownContribution] at h
  obtain ⟨relation, hrelation, h⟩ := bind_eq_ok.mp h
  have hitems := (relationClauses_cases hhere hrelation).items
  rw [← Except.ok.inj h]
  simp [hitems, Contribution.empty]

end JoinPlan.Plan
