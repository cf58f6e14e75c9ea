import JoinPlan.Proofs.Plan.Scoping

/-!
# Plans are well formed

The tables of a plan have what their statements need, so building a statement finds no
mistake in the options of the schema, except for a root that is declared to be joined: it
can only fail for what the request asks, or for what the dialect cannot write.
-/

namespace JoinPlan.Plan

open Sql

/-! ### No mistake in the schema -/

/-- An action that finds no mistake in the options of the schema. -/
def Configured {α : Type} (action : Except PlanError α) : Prop :=
  ∀ error, action ≠ .error (.configuration error)

section Configured

variable {α β : Type}

theorem Configured.ok (value : α) : Configured (.ok value) := nofun

theorem Configured.bind {first : Except PlanError α} {next : α → Except PlanError β}
    (hfirst : Configured first) (hnext : ∀ value, Configured (next value)) :
    Configured (first >>= next) := by
  cases first with
  | error cause =>
      intro error h
      exact hfirst error (congrArg _ (Except.error.inj h))
  | ok value => exact hnext value

theorem Configured.lift_request (action : Except RequestError α) :
    Configured (liftM action) := by
  intro error h
  cases action <;> cases h

theorem Configured.lift_dialect (action : Except UnsupportedPage α) :
    Configured (liftM action) := by
  intro error h
  cases action <;> cases h

end Configured

/-! ### One table -/

/-- Whether a table is joined to its parent, directly or through a junction. -/
def TableInfo.joinsParent (info : TableInfo) : Prop :=
  (∃ condition, info.relation = some (.join condition)) ∨
    ∃ junction toJunction toTarget, info.relation = some (.junction junction) ∧
      junction.fetch = .joins toJunction toTarget

/-- What sorts the pages of a table. -/
structure TableInfo.Sorted (info : TableInfo) : Prop where
  paginated : info.paginate = true → info.effectiveSortKey? = none →
    info.effectiveOrderBy?.isSome = true
  limited : info.limit.isSome = true → info.effectiveOrderBy?.isSome = true

theorem Provided.sorted {schema : Schema} {info : TableInfo} {shared : List Node}
    (h : Provided schema info shared) : info.Sorted :=
  ⟨fun hpaginate hterms => (h.total hpaginate hterms).1, h.limit⟩

section Info

variable {ctx : StatementContext} {info : TableInfo}

theorem pageParameters_configured (hsorted : info.Sorted) (hpaged : isPaged info = true) :
    Configured (pageParameters info) := by
  unfold pageParameters
  refine .bind (.lift_request _) fun arguments => ?_
  cases hterms : info.effectiveSortKey? with
  | some terms => exact .lift_request _
  | none =>
      have horder : info.effectiveOrderBy?.isSome = true := by
        rcases (Bool.or_eq_true _ _).mp hpaged with hpaginate | hlimit
        · exact hsorted.paginated hpaginate hterms
        · exact hsorted.limited hlimit
      obtain ⟨terms, hterms⟩ := Option.isSome_iff_exists.mp horder
      rw [hterms]
      exact .lift_request _

theorem page_configured (hsorted : info.Sorted) (hpaged : isPaged info = true)
    (reference aliasName : String) (conditions : List Expression)
    (extraJoin : Option (String × String × Expression)) :
    Configured (page info reference aliasName conditions extraJoin) :=
  .bind (pageParameters_configured hsorted hpaged) fun _ => .ok _

theorem rootClauses_configured (hsorted : info.Sorted) : Configured (rootClauses ctx info) := by
  unfold rootClauses
  split
  · rename_i hpaged
    exact .bind (page_configured hsorted hpaged _ _ _ _) fun _ => .ok _
  · exact .ok _

theorem joinClauses_configured (hsorted : info.Sorted) (parent : String)
    (condition : JoinCondition) : Configured (joinClauses ctx info parent condition) := by
  unfold joinClauses
  dsimp only
  split
  · rename_i hpaged
    exact .bind (page_configured hsorted hpaged _ _ _ _) fun _ => .lift_dialect _
  · exact .ok _

theorem junctionJoinClauses_configured (hsorted : info.Sorted) (parent : String)
    (junction : Junction) (toJunction toTarget : JoinCondition) :
    Configured (junctionJoinClauses ctx info parent junction toJunction toTarget) := by
  unfold junctionJoinClauses
  dsimp only
  split
  · rename_i hpaged
    exact .bind (page_configured hsorted hpaged _ _ _ _) fun _ =>
      .bind (.lift_dialect _) fun _ => .ok _
  · exact .ok _

theorem batchClauses_configured (hsorted : info.Sorted) (thisKey parentKey : Column) :
    Configured (batchClauses ctx info thisKey parentKey) := by
  unfold batchClauses
  split
  · rename_i hpaged
    exact .bind (page_configured hsorted hpaged _ _ _ _) fun _ =>
      .bind (.lift_dialect _) fun _ => .ok _
  · exact .ok _

theorem junctionBatchClauses_configured (hsorted : info.Sorted) (junction : Junction)
    (toTarget : JoinCondition) (thisKey parentKey : Column) :
    Configured (junctionBatchClauses ctx info junction toTarget thisKey parentKey) := by
  unfold junctionBatchClauses
  dsimp only
  split
  · rename_i hpaged
    exact .bind (page_configured hsorted hpaged _ _ _ _) fun _ =>
      .bind (.lift_dialect _) fun _ => .ok _
  · exact .ok _

/-- The relation of a table can be written below a parent, and at the root of a statement
unless the table is to be joined. -/
theorem relationClauses_configured (hsorted : info.Sorted) {parent : Option String}
    (hparent : parent = none → ¬ info.joinsParent) (path : List String) :
    Configured (relationClauses ctx info parent path) := by
  unfold relationClauses
  cases hrelation : info.relation with
  | none => exact .bind (rootClauses_configured hsorted) fun _ => .ok _
  | some relation =>
      cases relation with
      | join condition =>
          cases parent with
          | none => exact absurd (Or.inl ⟨condition, hrelation⟩) (hparent rfl)
          | some parent =>
              exact .bind (joinClauses_configured hsorted parent condition) fun _ => .ok _
      | batch thisKey parentKey =>
          cases parent with
          | none => exact batchClauses_configured hsorted thisKey parentKey
          | some parent => exact .ok _
      | junction junction =>
          dsimp only
          cases hfetch : junction.fetch with
          | joins toJunction toTarget =>
              cases parent with
              | none => exact absurd (Or.inr ⟨_, _, _, hrelation, hfetch⟩) (hparent rfl)
              | some parent =>
                  exact .bind (junctionJoinClauses_configured hsorted parent junction toJunction
                    toTarget) fun _ => .ok _
          | batch toTarget thisKey parentKey =>
              cases parent with
              | none =>
                  exact junctionBatchClauses_configured hsorted junction toTarget thisKey parentKey
              | some parent => exact .ok _

theorem ownContribution_configured (hsorted : info.Sorted) {parent : Option String}
    (hparent : parent = none → ¬ info.joinsParent) (path : List String) :
    Configured (ownContribution ctx info parent path) :=
  .bind (relationClauses_configured hsorted hparent path) fun _ => .ok _

/-- A table that is to be joined cannot be at the root of a statement. -/
theorem ownContribution_of_joinsParent (h : info.joinsParent) (path : List String) :
    ownContribution ctx info none path = .error (.configuration (.rootJoin info.fieldName)) := by
  rcases h with ⟨condition, hrelation⟩ | ⟨junction, toJunction, toTarget, hrelation, hfetch⟩
  · simp [ownContribution, relationClauses, hrelation, bind, Except.bind]
  · simp [ownContribution, relationClauses, hrelation, hfetch, bind, Except.bind]

end Info

/-! ### Tables and what is joined below them -/

section Walk

variable {schema : Schema} {ctx : StatementContext}

theorem nodesContribution_configured {parent : String} {path : List String} {nodes : List Node}
    (h : ∀ node ∈ nodes, Configured (node.contribution ctx parent path)) :
    Configured (nodesContribution ctx parent path nodes) := by
  induction nodes with
  | nil => exact .ok _
  | cons node rest ih =>
      rw [List.forall_mem_cons] at h
      exact .bind h.1 fun _ => .bind (ih h.2) fun _ => .ok _

theorem bucketsContribution_configured {parent : String} {path : List String}
    {buckets : List (String × List Node)}
    (h : ∀ node ∈ buckets.flatMap Prod.snd, Configured (node.contribution ctx parent path)) :
    Configured (bucketsContribution ctx parent path buckets) := by
  induction buckets with
  | nil => exact .ok _
  | cons bucket rest ih =>
      rw [List.flatMap_cons, List.forall_mem_append] at h
      have hbucket : Configured (bucketContribution ctx parent path bucket) := by
        rw [bucketContribution]
        exact nodesContribution_configured h.1
      exact .bind hbucket fun _ => .bind (ih h.2) fun _ => .ok _

theorem Table.contribution_configured {table : Table Node} {parent : Option String}
    {path : List String} (hsorted : table.info.Sorted)
    (hparent : parent = none → ¬ table.info.joinsParent)
    (hchildren : ∀ child ∈ table.children, Configured
      (child.contribution ctx table.info.aliasName (path ++ [table.info.aliasName]))) :
    Configured (table.contribution ctx parent path) := by
  obtain ⟨info, shared, typed⟩ := table
  rw [contribution]
  refine .bind (ownContribution_configured hsorted hparent path) fun own => ?_
  split
  · exact .ok _
  · rw [children, List.forall_mem_append] at hchildren
    exact .bind (bucketsContribution_configured hchildren.2) fun _ =>
      .bind (nodesContribution_configured hchildren.1) fun _ => .ok _

theorem Node.contribution_configured (node : Node)
    (hsound : ∀ table ∈ node.subtree, table.Sound schema) :
    ∀ parent path, Configured (node.contribution ctx parent path) := by
  induction node using Node.induction with
  | leaf node hleaf =>
      intro parent path
      cases node with
      | table child => cases hleaf
      | column | dependencies | composite | expression | nothing => exact .ok _
  | table table ih =>
      intro parent path
      rw [contribution]
      rw [subtree, Table.subtree_eq, List.forall_mem_cons] at hsound
      refine Table.contribution_configured hsound.1.provided.sorted (by simp) fun child hchild => ?_
      exact ih child hchild
        (fun inner hinner => hsound.2 inner (List.mem_flatMap.mpr ⟨child, hchild, hinner⟩)) _ _

end Walk

/-! ### Statements -/

section Statement

variable {schema : Schema} {root : Table Node} {ctx : StatementContext}

/-- The key of a sound table is in its statement. -/
theorem Table.Sound.items_ne_nil (hsound : root.Sound schema) {parts : Contribution}
    (h : root.contribution ctx none [] = .ok parts) : parts.items ≠ [] := by
  obtain ⟨-, ⟨_, uniqueKey, _⟩, -, -, key, hkey, hfetches⟩ := hsound.provided.key
  have hchild : key ∈ root.statementChildren :=
    mem_statementChildren.mpr (List.mem_append_left _ hkey)
  have hfetched : ∃ item, item ∈ key.fetched ctx root.info.aliasName := by
    cases hfetches with
    | one name aliasName => exact ⟨_, List.mem_singleton_self _⟩
    | many names aliasName => exact ⟨_, List.mem_singleton_self _⟩
  obtain ⟨item, hitem⟩ := hfetched
  have hplaced : (⟨[root.info.aliasName], root⟩ : Placed) ∈ root.joined [] := by
    rw [joined_eq]
    exact List.mem_cons_self
  exact List.ne_nil_of_mem ((mem_rootContribution_items h _).mpr
    ⟨_, hplaced, Placed.mem_items.mpr ⟨key, hchild, List.mem_map_of_mem hitem⟩⟩)

/-- A sound table that is not to be joined has a statement, unless the request or the
dialect is at fault. -/
theorem Table.statement_configured (ctx : StatementContext)
    (hsound : ∀ table ∈ root.subtree, table.Sound schema)
    (hroot : ¬ root.info.joinsParent) :
    Configured (root.statement ctx) ∧ root.statement ctx ≠ .ok none := by
  have hparts : Configured (root.contribution ctx none []) := by
    refine contribution_configured (hsound root root.mem_subtree_self).provided.sorted
      (fun _ => hroot) fun child hchild => ?_
    have hbelow : ∀ inner ∈ child.subtree, inner.Sound schema := by
      rw [subtree_eq, List.forall_mem_cons] at hsound
      exact fun inner hinner => hsound.2 inner (List.mem_flatMap.mpr ⟨child, hchild, hinner⟩)
    exact child.contribution_configured hbelow root.info.aliasName _
  cases hfound : root.contribution ctx none [] with
  | error error =>
      rw [statement, hfound]
      refine ⟨fun cause h => ?_, by simp [bind, Except.bind]⟩
      exact hparts cause (hfound.trans (congrArg _ (Except.error.inj h)))
  | ok parts =>
      obtain ⟨select, hselect, -⟩ := assemble_eq_ok ctx.dialect root.info.fieldName
        (contribution_covers hsound hfound).source
        ((hsound root root.mem_subtree_self).items_ne_nil hfound)
      have hstatement : root.statement ctx = .ok (some select) := by
        rw [statement, hfound]
        simp [bind, Except.bind, hselect, liftM, monadLift, MonadLift.monadLift]
      rw [hstatement]
      exact ⟨.ok _, by simp⟩

theorem Table.statement_of_joinsParent (h : root.info.joinsParent) :
    root.statement ctx = .error (.configuration (.rootJoin root.info.fieldName)) := by
  obtain ⟨info, shared, typed⟩ := root
  rw [statement, contribution, ownContribution_of_joinsParent h]
  rfl

end Statement

/-! ### Roots that are to be joined -/

/-- Whether a field is declared to be joined, directly or through a junction. -/
def DeclaresJoin (options : FieldOptions) : Prop :=
  options.sqlJoin.isSome = true ∨
    ∃ junction, options.junction = some junction ∧ junction.sqlJoins.isSome = true

/-- Whether the requested field is declared to be joined. -/
def RequestsJoin (schema : Schema) (request : Request) : Prop :=
  ∃ type field others definition, schema.type? request.parentType = some type ∧
    request.fields = field :: others ∧ type.field? field.name = some definition ∧
    DeclaresJoin definition.options

theorem Reached.declaresJoin {options : FieldOptions} {info : TableInfo} {nodes : List Node}
    (h : Reached options info.relation nodes) (hjoins : info.joinsParent) :
    DeclaresJoin options := by
  generalize hrelation : info.relation = relation at h
  rcases hjoins with ⟨condition, hjoin⟩ | ⟨junction, toJunction, toTarget, hjunction, hfetched⟩
  · rw [hrelation] at hjoin
    subst hjoin
    cases h with
    | join hdeclared => exact Or.inl (by simp [hdeclared])
  · rw [hrelation] at hjunction
    subst hjunction
    cases h with
    | junctionJoins hdeclared hsql hfetch => exact Or.inr ⟨_, hdeclared, by simp [hsql]⟩
    | junctionBatch hfetch howner hidentity => simp [hfetch] at hfetched

section Compiled

variable {env : Environment} {minify : Bool} {request : Request} {root table : Table Node}

/-- The root of a plan is reached as the options of the requested field have it. -/
theorem compileOn_reached {type : TypeDefinition} {names after : Namespace}
    (h : compileOn env request type names = .ok (root, after)) :
    ∃ field others definition nodes, request.fields = field :: others ∧
      type.field? field.name = some definition ∧
      Reached definition.options root.info.relation nodes := by
  obtain ⟨field, asked, hfield, hrest⟩ := Compile.bind_eq_ok.mp h
  obtain ⟨node, between, hnode, hpruned⟩ := Compile.bind_eq_ok.mp hrest
  obtain ⟨hmerged, rfl⟩ := Compile.lift_request_eq_ok hfield
  have hfirst : ∃ first others, request.fields = first :: others ∧ first.name = field.name := by
    unfold mergedField at hmerged
    split at hmerged
    · cases hmerged
    · rename_i first others hfields
      obtain rfl := Except.ok.inj hmerged
      exact ⟨first, others, hfields, rfl⟩
  obtain ⟨first, others, hfields, hname⟩ := hfirst
  rcases compileField_eq_ok hnode with ⟨rfl, -⟩ | ⟨found, -, hleaf⟩ |
    ⟨tableField, found, place, htableName, hbacked, htable⟩
  · exact absurd hpruned Compile.not_fail_eq_ok
  · have hnone : node.table? = none := (compileLeaf_leaves hleaf).1 node (List.mem_singleton_self _)
    cases node with
    | table table => cases hnone
    | column | dependencies | composite | expression | nothing =>
        exact absurd hpruned Compile.not_fail_eq_ok
  · obtain ⟨made, opened, hmade, htable⟩ := Compile.bind_eq_ok.mp htable
    obtain ⟨children, filled, -, htable⟩ := Compile.bind_eq_ok.mp htable
    obtain ⟨rfl, rfl⟩ := Compile.pure_eq_ok.mp htable
    obtain ⟨nodes, hreached⟩ := (newTable_isSetUp hbacked hmade).reached
    obtain ⟨found, hfound, hoptions⟩ := hbacked.options
    rw [htableName, Scope.field?, Option.map_eq_some_iff] at hfound
    obtain ⟨definition, hdefinition, rfl⟩ := hfound
    refine ⟨first, others, definition, nodes, hfields, hname ▸ hdefinition, ?_⟩
    obtain ⟨rfl, -⟩ := Prod.mk.inj (Except.ok.inj hpruned)
    have hinfo := (Table.prune_pruned (⟨{ made.info with isAbstract := tableField.kind.isAbstract },
      children.shared ++ lastColumns { made.info with
        isAbstract := tableField.kind.isAbstract } none, children.typed⟩ : Table Node) between).1
    have hdeclared : definition.options = tableField.options := hoptions
    rw [hdeclared]
    exact hinfo ▸ hreached

/-- What the plan of a request joins at its root was declared to be joined. -/
theorem compile_requestsJoin (h : compile env minify request = .ok root)
    (hjoins : root.info.joinsParent) : RequestsJoin env.schema request := by
  obtain ⟨after, hrun⟩ := run'_eq_ok h
  obtain ⟨type, htype, hcompiled⟩ := compileWith_eq_ok hrun
  obtain ⟨field, others, definition, nodes, hfields, hdefinition, hreached⟩ :=
    compileOn_reached hcompiled
  exact ⟨type, field, others, definition, htype, hfields, hdefinition,
    hreached.declaresJoin hjoins⟩

/-- A row that is fetched by its key is not joined to anything. -/
theorem compileNode_not_joinsParent {dialect : Dialect} {typeName : String}
    {found : NodeCondition} (h : compileNode env dialect minify typeName found request = .ok root) :
    ¬ root.info.joinsParent := by
  intro hjoins
  obtain ⟨after, hrun⟩ := run'_eq_ok h
  obtain ⟨name, condition, hcompiled⟩ := compileNodeWith_eq_ok hrun
  obtain ⟨field, others, definition, nodes, -, hdefinition, hreached⟩ :=
    compileOn_reached hcompiled
  have hdeclares := hreached.declaresJoin hjoins
  have hoptions : definition.options.sqlJoin = none ∧ definition.options.junction = none := by
    have hmem := Assoc.mem_of_get?_eq_some hdefinition
    simp only [nodeType, List.mem_singleton, Prod.mk.injEq] at hmem
    simp [hmem.2, FieldOptions.empty]
  simp [DeclaresJoin, hoptions] at hdeclares

theorem not_joinsParent_of_isBoundary {info : TableInfo} (h : info.isBoundary = true) :
    ¬ info.joinsParent := by
  rintro (⟨condition, hrelation⟩ | ⟨junction, toJunction, toTarget, hrelation, hfetch⟩)
  · simp [TableInfo.isBoundary, TableInfo.batchKeys?, hrelation] at h
  · simp [TableInfo.isBoundary, TableInfo.batchKeys?, hrelation, hfetch] at h

/-- The plans of requests and of node fetches are well formed: every table has what its
statements need, and everything below the root is related to its parent.  The statements
of the root and of the boundaries are therefore there, unless the request or the dialect
is at fault, or the requested field is declared to be joined and so cannot be a root. -/
theorem compiled_well_formed (h : compile env minify request = .ok root ∨
      ∃ dialect typeName found, compileNode env dialect minify typeName found request = .ok root) :
    (∀ table ∈ root.subtree, table.Sound env.schema) ∧
      ∀ table ∈ root.subtree, table = root ∨ table.info.isBoundary = true → ∀ ctx,
        table.statement ctx ≠ .ok none ∧
          ∀ error, table.statement ctx = .error (.configuration error) →
            table = root ∧ error = .rootJoin root.info.fieldName ∧
              RequestsJoin env.schema request := by
  have hroot : Compiled env minify root := by
    rcases h with h | ⟨dialect, typeName, found, h⟩
    · exact .request h
    · exact .node h
  have hsound := hroot.sound
  refine ⟨hsound, fun table htable hplace ctx => ?_⟩
  have hbelow : ∀ inner ∈ table.subtree, inner.Sound env.schema := fun inner hinner =>
    hsound inner ((Table.subtree_sublist table htable).subset hinner)
  by_cases hjoins : table.info.joinsParent
  · have hself : table = root :=
      hplace.resolve_right fun hboundary => not_joinsParent_of_isBoundary hboundary hjoins
    subst hself
    rw [Table.statement_of_joinsParent hjoins]
    refine ⟨nofun, fun error herror => ⟨rfl, ?_, ?_⟩⟩
    · exact (PlanError.configuration.inj (Except.error.inj herror)).symm
    · rcases h with h | ⟨dialect, typeName, found, h⟩
      · exact compile_requestsJoin h hjoins
      · exact absurd hjoins (compileNode_not_joinsParent h)
  · obtain ⟨hconfigured, hsome⟩ := Table.statement_configured ctx hbelow hjoins
    exact ⟨hsome, fun error herror => absurd herror (hconfigured error)⟩

end Compiled

/-- The plan of posts with a page of tags each. -/
theorem compiled_well_formed_postTags :
    compile ⟨tagsSchema "tags" taggingOptions, .null⟩ false (tagsRequest "tags") =
        .ok (postsPlan postTags) ∧
      (∀ table ∈ (postsPlan postTags).subtree, table.Sound (tagsSchema "tags" taggingOptions)) ∧
      ∀ table ∈ (postsPlan postTags).subtree,
        table = postsPlan postTags ∨ table.info.isBoundary = true → ∀ ctx,
          table.statement ctx ≠ .ok none ∧
            ∀ error, table.statement ctx = .error (.configuration error) →
              table = postsPlan postTags ∧ error = .rootJoin "posts" ∧
                RequestsJoin (tagsSchema "tags" taggingOptions) (tagsRequest "tags") :=
  ⟨compile_postTags, compiled_well_formed (Or.inl compile_postTags)⟩

/-- The posts of a user cannot be requested without the user they are joined to. -/
example :
    ∃ root, compile clashingEnvironment false
        { parentType := "U", fields := [⟨"p", [], []⟩], fragments := [] } = .ok root ∧
      root.statement postgresContext = .error (.configuration (.rootJoin "p")) :=
  ⟨_, rfl, rfl⟩

end JoinPlan.Plan
