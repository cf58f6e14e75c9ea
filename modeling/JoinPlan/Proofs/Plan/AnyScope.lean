import JoinPlan.Proofs.Plan.Scoping

/-!
# Statements for any keys

The keys of a batch are read by the statement of the batched table alone, as the rows or the
list its own key is matched with.  Which keys they are decides nothing else: a statement
that cannot be written for some keys cannot be written for others, with the same error.
-/

namespace JoinPlan

/-- What an action fails with, if it does. -/
def failure? {ε α : Type} : Except ε α → Option ε
  | .ok _ => none
  | .error error => some error

theorem failure?_eq_some {ε α : Type} {action : Except ε α} {error : ε} :
    failure? action = some error ↔ action = .error error := by
  cases action <;> simp [failure?]

theorem failure?_eq_none {ε α : Type} {action : Except ε α} :
    failure? action = none ↔ ∃ value, action = .ok value := by
  cases action <;> simp [failure?]

theorem failure?_bind_congr {ε α β : Type} {first : Except ε α} {next rest : α → Except ε β}
    (h : ∀ value, failure? (next value) = failure? (rest value)) :
    failure? (first >>= next) = failure? (first >>= rest) := by
  cases first with
  | error error => rfl
  | ok value => exact h value

/-- Actions fail alike when their first steps do, and then whatever follows. -/
theorem failure?_bind {ε α β γ δ : Type} {first : Except ε α} {other : Except ε γ}
    {next : α → Except ε β} {rest : γ → Except ε δ} (hfirst : failure? first = failure? other)
    (hnext : ∀ value another, failure? (next value) = failure? (rest another)) :
    failure? (first >>= next) = failure? (other >>= rest) := by
  cases first with
  | error error =>
      obtain rfl := failure?_eq_some.mp hfirst.symm
      rfl
  | ok value =>
      obtain ⟨another, rfl⟩ := failure?_eq_none.mp hfirst.symm
      exact hnext value another

namespace Plan

open Sql

/-! ### Statements for other keys -/

section Scope

variable {context : Context} {dialect : Dialect} {info : TableInfo}

theorem failure?_batchClauses (scope other : List Json) (thisKey parentKey : Column) :
    failure? (batchClauses ⟨context, dialect, scope⟩ info thisKey parentKey) =
      failure? (batchClauses ⟨context, dialect, other⟩ info thisKey parentKey) := by
  unfold batchClauses
  split
  · refine failure?_bind_congr fun page => failure?_bind ?_ fun _ _ => rfl
    unfold Page.batchedOne
    split <;> rfl
  · rfl

theorem failure?_junctionBatchClauses (scope other : List Json) (junction : Junction)
    (toTarget : JoinCondition) (thisKey parentKey : Column) :
    failure? (junctionBatchClauses ⟨context, dialect, scope⟩ info junction toTarget thisKey
        parentKey) =
      failure? (junctionBatchClauses ⟨context, dialect, other⟩ info junction toTarget thisKey
        parentKey) := by
  unfold junctionBatchClauses
  dsimp only
  split
  · refine failure?_bind_congr fun page => failure?_bind ?_ fun _ _ => rfl
    unfold Page.batchedMany
    split <;> rfl
  · rfl

/-- Only the table of a batch is fetched for keys. -/
theorem relationClauses_scope (scope other : List Json) (parent : String) (path : List String) :
    relationClauses ⟨context, dialect, scope⟩ info (some parent) path =
      relationClauses ⟨context, dialect, other⟩ info (some parent) path := by
  unfold relationClauses
  cases info.relation with
  | none => rfl
  | some relation =>
      cases relation with
      | join condition => rfl
      | batch thisKey parentKey => rfl
      | junction junction =>
          dsimp only
          cases junction.fetch with
          | joins toJunction toTarget => rfl
          | batch toTarget thisKey parentKey => rfl

theorem failure?_relationClauses (scope other : List Json) (path : List String) :
    failure? (relationClauses ⟨context, dialect, scope⟩ info none path) =
      failure? (relationClauses ⟨context, dialect, other⟩ info none path) := by
  unfold relationClauses
  cases info.relation with
  | none => rfl
  | some relation =>
      cases relation with
      | join condition => rfl
      | batch thisKey parentKey => exact failure?_batchClauses scope other thisKey parentKey
      | junction junction =>
          dsimp only
          cases junction.fetch with
          | joins toJunction toTarget => rfl
          | batch toTarget thisKey parentKey =>
              exact failure?_junctionBatchClauses scope other junction toTarget thisKey parentKey

theorem nodesContribution_scope {scope other : List Json} {parent : String} {path : List String}
    {nodes : List Node}
    (h : ∀ node ∈ nodes, node.contribution ⟨context, dialect, scope⟩ parent path =
      node.contribution ⟨context, dialect, other⟩ parent path) :
    nodesContribution ⟨context, dialect, scope⟩ parent path nodes =
      nodesContribution ⟨context, dialect, other⟩ parent path nodes := by
  induction nodes with
  | nil => rfl
  | cons node rest ih =>
      rw [List.forall_mem_cons] at h
      rw [nodesContribution, nodesContribution, h.1, ih h.2]

theorem bucketsContribution_scope {scope other : List Json} {parent : String}
    {path : List String} {buckets : List (String × List Node)}
    (h : ∀ node ∈ buckets.flatMap Prod.snd,
      node.contribution ⟨context, dialect, scope⟩ parent path =
        node.contribution ⟨context, dialect, other⟩ parent path) :
    bucketsContribution ⟨context, dialect, scope⟩ parent path buckets =
      bucketsContribution ⟨context, dialect, other⟩ parent path buckets := by
  induction buckets with
  | nil => rfl
  | cons bucket rest ih =>
      rw [List.flatMap_cons, List.forall_mem_append] at h
      rw [bucketsContribution, bucketsContribution, bucketContribution, bucketContribution,
        nodesContribution_scope h.1, ih h.2]

theorem Node.contribution_scope (scope other : List Json) (node : Node) :
    ∀ parent path, node.contribution ⟨context, dialect, scope⟩ parent path =
      node.contribution ⟨context, dialect, other⟩ parent path := by
  induction node using Node.induction with
  | leaf node hleaf =>
      intro parent path
      cases node with
      | table child => cases hleaf
      | column | dependencies | composite | expression | nothing => rfl
  | table table ih =>
      intro parent path
      obtain ⟨info, shared, typed⟩ := table
      have hchildren := List.forall_mem_append.mp ih
      have hshared := nodesContribution_scope fun child hchild =>
        hchildren.1 child hchild info.aliasName (path ++ [info.aliasName])
      have htyped := bucketsContribution_scope fun child hchild =>
        hchildren.2 child hchild info.aliasName (path ++ [info.aliasName])
      rw [contribution, contribution, Table.contribution, Table.contribution, ownContribution,
        ownContribution, relationClauses_scope scope other]
      dsimp only at hshared htyped ⊢
      rw [hshared, htyped]
      rfl

/-- Whether a table contributes to a statement does not depend on the keys. -/
theorem Table.failure?_contribution (scope other : List Json) (table : Table Node)
    (path : List String) :
    failure? (table.contribution ⟨context, dialect, scope⟩ none path) =
      failure? (table.contribution ⟨context, dialect, other⟩ none path) := by
  obtain ⟨info, shared, typed⟩ := table
  rw [contribution, contribution]
  apply failure?_bind
  · exact failure?_bind (failure?_relationClauses scope other path) fun _ _ => rfl
  · intro own another
    split
    · rfl
    · refine failure?_bind ?_ fun _ _ => failure?_bind ?_ fun _ _ => rfl
      · rw [bucketsContribution_scope fun child _ => child.contribution_scope scope other _ _]
      · rw [nodesContribution_scope fun child _ => child.contribution_scope scope other _ _]

end Scope

section Statement

variable {schema : Schema} {table : Table Node}

/-- The statement of a sound plan can be put together from what its tables contribute. -/
theorem Table.failure?_statementText (hsound : ∀ inner ∈ table.subtree, inner.Sound schema)
    (ctx : StatementContext) :
    failure? (table.statementText ctx) = failure? (table.contribution ctx none []) := by
  rw [statementText, statement]
  cases hparts : table.contribution ctx none [] with
  | error error => rfl
  | ok parts =>
      obtain ⟨select, hselect⟩ :
          ∃ select, assemble ctx.dialect table.info.fieldName parts = .ok select := by
        by_cases hitems : parts.items = []
        · exact ⟨none, by
            simp [assemble, distinctItems, Assoc.distinctBy, Assoc.distinctByFrom, hitems]⟩
        · obtain ⟨select, hselect, -⟩ := assemble_eq_ok ctx.dialect table.info.fieldName
            (contribution_covers hsound hparts).source hitems
          exact ⟨some select, hselect⟩
      simp only [bind, Except.bind, hselect]
      cases select <;> rfl

/-- Whether the statement of a batch can be written does not depend on the keys. -/
theorem Table.statementText_error_scope (hsound : ∀ inner ∈ table.subtree, inner.Sound schema)
    {context : Context} {dialect : Dialect} {scope : List Json} {error : PlanError}
    (h : table.statementText ⟨context, dialect, scope⟩ = .error error) (other : List Json) :
    table.statementText ⟨context, dialect, other⟩ = .error error := by
  rw [← failure?_eq_some, failure?_statementText hsound] at h ⊢
  rw [← h]
  exact table.failure?_contribution other scope []

end Statement

end Plan

end JoinPlan
