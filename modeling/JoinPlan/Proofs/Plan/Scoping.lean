import JoinPlan.Proofs.Plan.Clauses
import JoinPlan.Proofs.Plan.OneMeaning
import JoinPlan.Proofs.Plan.Sound

/-!
# Everything a statement refers to is in scope

The clauses of a sound plan's statement introduce its tables one after the other, a table
before those below it, so what a table refers to was introduced with it or before it.
-/

namespace JoinPlan.Plan

open Sql

/-! ### Contributions in scope -/

/-- A contribution in which everything is in scope, given the relations before it. -/
structure Contribution.InScope (licence : Licence) (before : List String)
    (parts : Contribution) : Prop where
  clauses : ClausesScoped licence before parts.clauses
  items : ∀ item ∈ parts.items, item.2.Scoped licence (before ++ introduced parts.clauses)
  conditions : ∀ condition ∈ parts.conditions,
    condition.Scoped licence (before ++ introduced parts.clauses)
  order : ∀ term ∈ parts.order, term.target.Scoped licence (before ++ introduced parts.clauses)

/-- What tables joined below others contribute: the clauses introduce their aliases, and
the pages of tables paged by row numbers count all rows. -/
structure Contribution.Joins (licence : Licence) (tables : List (Table Node))
    (before : List String) (parts : Contribution) : Prop where
  joins : JoinsOnly parts.clauses
  aliases : introduced parts.clauses = tables.flatMap fun table => table.info.clauseAliases
  inScope : parts.InScope licence before
  counts : ∀ table ∈ tables, table.info.paginate = true → table.info.effectiveSortKey? = none →
    ∃ select, (table.info.junctionAlias, select) ∈ parts.clauses.filterMap TableClause.subquery? ∧
      select.Counts

@[simp]
theorem Contribution.clauses_append (first second : Contribution) :
    (first.append second).clauses = first.clauses ++ second.clauses := rfl

section Contribution

variable {licence : Licence} {before : List String} {first second : Contribution}

theorem Contribution.InScope.append (hlicence : licence.Monotone)
    (hfirst : first.InScope licence before)
    (hsecond : second.InScope licence (before ++ introduced first.clauses)) :
    (first.append second).InScope licence before := by
  have hintroduced : before ++ introduced (first.append second).clauses =
      before ++ introduced first.clauses ++ introduced second.clauses := by
    simp
  have hmono : ∀ {expression : Expression},
      expression.Scoped licence (before ++ introduced first.clauses) →
        expression.Scoped licence (before ++ introduced (first.append second).clauses) := by
    intro expression h
    rw [hintroduced]
    exact h.mono hlicence (List.subset_append_left _ _)
  refine ⟨hfirst.clauses.append hsecond.clauses, ?_, ?_, ?_⟩
  · intro item hitem
    rcases List.mem_append.mp hitem with h | h
    · exact hmono (hfirst.items item h)
    · exact hintroduced ▸ hsecond.items item h
  · intro condition hcondition
    rcases List.mem_append.mp hcondition with h | h
    · exact hmono (hfirst.conditions condition h)
    · exact hintroduced ▸ hsecond.conditions condition h
  · intro term hterm
    rcases List.mem_append.mp hterm with h | h
    · exact hmono (hfirst.order term h)
    · exact hintroduced ▸ hsecond.order term h

theorem Contribution.Joins.empty : Contribution.empty.Joins licence [] before :=
  ⟨⟨[], rfl⟩, rfl, ⟨trivial, by simp [Contribution.empty], by simp [Contribution.empty],
    by simp [Contribution.empty]⟩, by simp⟩

theorem Contribution.Joins.append (hlicence : licence.Monotone)
    {tables others : List (Table Node)} (hfirst : first.Joins licence tables before)
    (hsecond : second.Joins licence others (before ++ introduced first.clauses)) :
    (first.append second).Joins licence (tables ++ others) before := by
  refine ⟨hfirst.joins.append hsecond.joins, ?_, hfirst.inScope.append hlicence hsecond.inScope,
    ?_⟩
  · rw [List.flatMap_append, ← hfirst.aliases, ← hsecond.aliases]
    exact introduced_append _ _
  · intro table htable hpaginate hterms
    simp only [Contribution.clauses_append, List.filterMap_append, List.mem_append]
    rcases List.mem_append.mp htable with h | h
    · obtain ⟨select, hmem, hcounts⟩ := hfirst.counts table h hpaginate hterms
      exact ⟨select, Or.inl hmem, hcounts⟩
    · obtain ⟨select, hmem, hcounts⟩ := hsecond.counts table h hpaginate hterms
      exact ⟨select, Or.inr hmem, hcounts⟩

/-- A contribution to the select list alone. -/
theorem Contribution.Joins.ofItems {items : List (String × Expression)}
    (hitems : ∀ item ∈ items, item.2.Scoped licence before) :
    (Contribution.ofItems items).Joins licence [] before := by
  refine ⟨⟨[], rfl⟩, rfl, ⟨trivial, ?_, by simp [Contribution.ofItems, Contribution.empty],
    by simp [Contribution.ofItems, Contribution.empty]⟩, by simp⟩
  intro item hitem
  simpa [Contribution.ofItems, Contribution.empty] using hitems item hitem

end Contribution

/-! ### What a table contributes itself -/

section Own

variable {licence : Licence} {ctx : StatementContext} {info : TableInfo} {before : List String}

theorem clauseAliases_subset_iff {scope : List String} :
    info.clauseAliases ⊆ scope ↔
      info.aliasName ∈ scope ∧ ∀ owner, info.junctionOwner? = some owner → owner ∈ scope := by
  cases howner : info.junctionOwner? <;>
    simp [TableInfo.clauseAliases, howner, and_comm]

theorem ownOrder_scoped {scope : List String} (haliases : info.clauseAliases ⊆ scope) :
    ∀ term ∈ ownOrder info, term.target.Scoped licence scope := by
  obtain ⟨hown, hjunction⟩ := clauseAliases_subset_iff.mp haliases
  have hterms : ∀ {aliasName : String}, aliasName ∈ scope → ∀ terms,
      ∀ term ∈ orderTermsOf aliasName terms, term.target.Scoped licence scope := by
    intro aliasName halias terms
    cases terms with
    | none => simp [orderTermsOf]
    | some terms => exact scoped_orderTerms halias terms
  unfold ownOrder
  dsimp only
  split
  · simp only [List.forall_mem_append]
    exact ⟨hterms hown _, hterms hown _⟩
  · rename_i junction hfound
    have halias : junction.aliasName ∈ scope :=
      hjunction _ (by simp [TableInfo.junctionOwner?, hfound])
    simp only [List.forall_mem_append]
    exact ⟨⟨⟨hterms halias _, hterms hown _⟩, hterms halias _⟩, hterms hown _⟩

theorem ownConditions_inScope (hgrants : Grants licence ctx info) {scope : List String}
    (haliases : info.clauseAliases ⊆ scope) :
    ∀ condition ∈ ownConditions ctx info, condition.Scoped licence scope := by
  obtain ⟨hown, hjunction⟩ := clauseAliases_subset_iff.mp haliases
  exact ownConditions_scoped hgrants (fun _ => hown) fun junction hfound =>
    hjunction _ (by simp [TableInfo.junctionOwner?, hfound])

/-- What a table contributes itself besides the clauses: its conditions and its ordering. -/
theorem ownContribution_inScope (hgrants : Grants licence ctx info) {parent : Option String}
    {path : List String} {own : Contribution}
    (h : ownContribution ctx info parent path = .ok own) :
    ∃ relation, relationClauses ctx info parent path = .ok relation ∧
      own.clauses = relation.clauses ∧
      (info.clauseAliases ⊆ before ++ introduced relation.clauses →
        relation.InScope licence before → own.InScope licence before) := by
  rw [ownContribution] at h
  obtain ⟨relation, hrelation, h⟩ := bind_eq_ok.mp h
  obtain rfl := Except.ok.inj h
  refine ⟨relation, hrelation, rfl, fun hsub hscoped => ⟨hscoped.clauses, ?_, ?_, ?_⟩⟩
  · exact hscoped.items
  · intro condition hcondition
    simp only [Contribution.append, List.mem_append] at hcondition
    rcases hcondition with hown | hkeys
    · split at hown
      · exact ownConditions_inScope hgrants hsub condition hown
      · cases hown
    · exact hscoped.conditions condition hkeys
  · intro term hterm
    simp only [Contribution.append, List.mem_append] at hterm
    rcases hterm with hown | hrest
    · split at hown
      · exact ownOrder_scoped hsub term hown
      · cases hown
    · exact hscoped.order term hrest

/-- A table fetched with its parent is related to it by clauses that join it. -/
theorem relationClauses_joins (hgrants : Grants licence ctx info)
    (hrelated : info.relation.isSome = true) (hboundary : info.isBoundary = false)
    {parent : String} (hparent : parent ∈ before) {path : List String} {relation : Contribution}
    (h : relationClauses ctx info (some parent) path = .ok relation) :
    ∃ clauses, relation = .ofClauses clauses ∧ JoinsOnly clauses ∧
      Introduces licence info before info.clauseAliases clauses := by
  cases relationClauses_cases (by simp [hboundary]) h with
  | root hrelation => simp [hrelation] at hrelated
  | join hrelation hclauses =>
      exact ⟨_, rfl, joinClauses_introduces hgrants hrelation hparent hclauses⟩
  | junctionJoin hrelation hfetch hclauses =>
      exact ⟨_, rfl, junctionJoinClauses_introduces hgrants hrelation hfetch hparent hclauses⟩

/-- A table joined to a parent in scope. -/
theorem ownContribution_joins {table : Table Node} (hgrants : Grants licence ctx table.info)
    (hrelated : table.info.relation.isSome = true) (hboundary : table.info.isBoundary = false)
    {parent : String} (hparent : parent ∈ before) {path : List String} {own : Contribution}
    (h : ownContribution ctx table.info (some parent) path = .ok own) :
    own.Joins licence [table] before := by
  obtain ⟨relation, hrelation, hown, hscoped⟩ := ownContribution_inScope hgrants h
  obtain ⟨clauses, rfl, hjoins, hintroduces⟩ :=
    relationClauses_joins hgrants hrelated hboundary hparent hrelation
  have hclauses : own.clauses = clauses := hown
  refine ⟨hclauses ▸ hjoins, ?_, hscoped ?_ ?_, ?_⟩
  · rw [hclauses, hintroduces.aliases, List.flatMap_singleton]
  · rw [← hown, hclauses, hintroduces.aliases]
    exact List.subset_append_right _ _
  · exact ⟨hintroduces.inScope, by simp [Contribution.ofClauses, Contribution.empty],
      by simp [Contribution.ofClauses, Contribution.empty],
      by simp [Contribution.ofClauses, Contribution.empty]⟩
  · rw [hclauses]
    simpa using hintroduces.counts

/-- The table of a statement is read from clauses that start with FROM. -/
theorem relationClauses_starts (hgrants : Grants licence ctx info) {path : List String}
    {relation : Contribution} (h : relationClauses ctx info none path = .ok relation) :
    IntroducesBatch licence info relation := by
  cases relationClauses_cases (by simp) h with
  | root hrelation hclauses =>
      obtain ⟨hsource, hintroduces⟩ := rootClauses_introduces hgrants hrelation hclauses
      exact ⟨hsource, hintroduces, by simp [Contribution.ofClauses, Contribution.empty], rfl, rfl⟩
  | batch hrelation hparts => exact batchClauses_introduces hgrants hrelation hparts
  | junctionBatch hrelation hfetch hparts =>
      exact junctionBatchClauses_introduces hgrants hrelation hfetch hparts

/-- What the table of a statement contributes itself. -/
structure Contribution.Starts (licence : Licence) (table : Table Node) (own : Contribution) :
    Prop where
  source : StartsWithSource own.clauses
  introduces : Introduces licence table.info [] (table.info.keyAliases ++ table.info.clauseAliases)
    own.clauses
  inScope : own.InScope licence []

theorem ownContribution_starts {table : Table Node} (hgrants : Grants licence ctx table.info)
    {path : List String} {own : Contribution}
    (h : ownContribution ctx table.info none path = .ok own) : own.Starts licence table := by
  obtain ⟨relation, hrelation, hown, hscoped⟩ := ownContribution_inScope hgrants h
  have hbatch := relationClauses_starts hgrants hrelation
  refine ⟨hown ▸ hbatch.source, hown ▸ hbatch.clauses, hscoped ?_ ?_⟩
  · rw [List.nil_append, hbatch.clauses.aliases]
    exact List.subset_append_right _ _
  · exact ⟨hbatch.clauses.inScope, by simp [hbatch.items], hbatch.conditions,
      by simp [hbatch.order]⟩

end Own

/-! ### Tables and what is joined below them -/

section Walk

variable {ctx : StatementContext} {tables : List (Table Node)} {schema : Schema}

theorem grants_builtBy (ctx : StatementContext) {table : Table Node} (htable : table ∈ tables) :
    Grants (builtBy ctx tables) ctx table.info := fun use _ _ hbuilds htext haliases =>
  ⟨table, htable, use, .own hbuilds, htext, haliases⟩

theorem Contributes.joins {licence : Licence} (hlicence : licence.Monotone) {parent : String}
    {path : List String} {nodes : List Node} {each : List Contribution}
    (heach : Contributes ctx parent path nodes each) {scope : List String}
    (hnodes : ∀ node ∈ nodes, ∀ part before, scope ⊆ before →
      node.contribution ctx parent path = .ok part →
        part.Joins licence ((node.joined path).map Placed.table) before)
    {before : List String} (hscope : scope ⊆ before) :
    (Contribution.concat each).Joins licence
      ((nodes.flatMap (Node.joined path)).map Placed.table) before := by
  induction heach generalizing before with
  | nil => exact .empty
  | @cons node part nodes parts hpart hrest ih =>
      rw [List.forall_mem_cons] at hnodes
      rw [List.flatMap_cons, List.map_append, Contribution.concat_cons]
      exact (hnodes.1 part before hscope hpart).append hlicence
        (ih hnodes.2 (List.Subset.trans hscope (List.subset_append_left _ _)))

/-- The columns of a leaf are read from its table or from the junction. -/
theorem Node.leaf_joins {owner : Table Node} (howner : owner ∈ tables) {node : Node}
    (hnode : node ∈ owner.children) (hleaf : node.table? = none)
    (hbelongs : node.BelongsTo owner.info.junctionOwner?) {path : List String}
    {part : Contribution} {before : List String} (hscope : owner.info.clauseAliases ⊆ before)
    (h : node.contribution ctx owner.info.aliasName path = .ok part) :
    part.Joins (builtBy ctx tables) ((node.joined path).map Placed.table) before := by
  obtain ⟨hown, hjunction⟩ := clauseAliases_subset_iff.mp hscope
  have hread : ∀ other, node.owner? = other → other.getD owner.info.aliasName ∈ before := by
    rintro (_ | other) hother
    · exact hown
    · exact hjunction other (hbelongs.owner other hother)
  rw [joined_of_leaf hleaf]
  cases node with
  | table child => cases hleaf
  | nothing =>
      rw [← Except.ok.inj h]
      exact .empty
  | column column =>
      rw [← Except.ok.inj h]
      exact .ofItems (by simpa [columnItem, Expression.Scoped] using hread column.owner rfl)
  | dependencies columns other =>
      rw [← Except.ok.inj h]
      refine .ofItems fun item hitem => ?_
      obtain ⟨entry, -, rfl⟩ := List.mem_map.mp hitem
      exact hread _ rfl
  | composite names fieldName aliasName other =>
      rw [← Except.ok.inj h]
      exact .ofItems (by simpa [Expression.Scoped] using hread other rfl)
  | expression sql fieldName aliasName args other =>
      rw [← Except.ok.inj h]
      refine .ofItems ?_
      simp only [List.mem_singleton, forall_eq]
      exact ⟨owner, howner, _, .expression hnode, rfl,
        by simpa [Use.aliases] using hread other rfl⟩

/-- A table fetched with its parent, and what is joined below it. -/
theorem Table.contribution_joins {table : Table Node} (htable : table ∈ tables)
    (hrelated : table.info.relation.isSome = true) (hboundary : table.info.isBoundary = false)
    (hchildren : ∀ child ∈ table.children, ∀ {path part before},
      table.info.clauseAliases ⊆ before →
        child.contribution ctx table.info.aliasName path = .ok part →
          part.Joins (builtBy ctx tables) ((child.joined path).map Placed.table) before)
    {parent : String} {path before : List String} (hparent : parent ∈ before)
    {parts : Contribution} (h : table.contribution ctx (some parent) path = .ok parts) :
    parts.Joins (builtBy ctx tables) ((table.joined path).map Placed.table) before := by
  obtain ⟨own, each, hown, heach, rfl⟩ := contribution_eq_ok (by simp [hboundary]) h
  have hfirst :=
    ownContribution_joins (grants_builtBy ctx htable) hrelated hboundary hparent hown
  have hscope : table.info.clauseAliases ⊆ before ++ introduced own.clauses := by
    rw [hfirst.aliases, List.flatMap_singleton]
    exact List.subset_append_right _ _
  have hrest := heach.joins (builtBy_monotone ctx tables)
    (fun child hchild _ _ => hchildren child (mem_statementChildren.mp hchild)) hscope
  rw [joined_eq, List.map_cons]
  exact hfirst.append (builtBy_monotone ctx tables) hrest

theorem Node.contribution_joins (node : Node) :
    ∀ {owner : Table Node}, owner ∈ tables → node ∈ owner.children →
      node.SoundBelow schema owner.info.junctionOwner? → (∀ table ∈ node.subtree, table ∈ tables) →
      ∀ {path part before}, owner.info.clauseAliases ⊆ before →
        node.contribution ctx owner.info.aliasName path = .ok part →
          part.Joins (builtBy ctx tables) ((node.joined path).map Placed.table) before := by
  induction node using Node.induction with
  | leaf node hleaf =>
      intro owner howner hnode hsound _ path part before hscope h
      exact leaf_joins howner hnode hleaf hsound.belongs hscope h
  | table table ih =>
      intro owner howner hnode hsound hsubtree path part before hscope h
      obtain ⟨hown, -⟩ := clauseAliases_subset_iff.mp hscope
      cases fetchedBelow h with
      | later hkeys =>
          rw [joined_of_batchKeys hkeys]
          exact .ofItems (by simpa [Expression.Scoped] using hown)
      | here hkeys h =>
          have hall : ∀ inner ∈ table.subtree, inner ∈ tables := by
            rw [subtree] at hsubtree
            exact hsubtree
          have htable : table ∈ tables := hall table table.mem_subtree_self
          rw [joined_of_not_batched hkeys]
          exact table.contribution_joins htable (hsound.belongs.related table rfl)
            (by simp [TableInfo.isBoundary, hkeys])
            (fun child hchild => ih child hchild htable hchild (hsound.sound.2 child hchild)
              fun inner hinner => hall inner (Table.mem_subtree_of_mem_children hchild hinner))
            hown h

end Walk

/-! ### Statements -/

/-- The tables that a table's statement joins, its own first. -/
def Table.joinedTables (root : Table Node) : List (Table Node) :=
  (root.joined []).map Placed.table

/-- What all tables of a statement contribute together. -/
structure Contribution.Covers (licence : Licence) (root : Table Node) (parts : Contribution) :
    Prop where
  source : StartsWithSource parts.clauses
  aliases : introduced parts.clauses =
    root.info.keyAliases ++ root.joinedTables.flatMap fun table => table.info.clauseAliases
  inScope : parts.InScope licence []
  counts : ∀ table ∈ root.joinedTables, table.info.paginate = true →
    table.info.effectiveSortKey? = none →
      ∃ select, (table.info.junctionAlias, select) ∈
        parts.clauses.filterMap TableClause.subquery? ∧ select.Counts

section Statement

variable {schema : Schema} {root : Table Node} {ctx : StatementContext}

theorem Table.contribution_covers (hsound : ∀ table ∈ root.subtree, table.Sound schema)
    {parts : Contribution} (h : root.contribution ctx none [] = .ok parts) :
    parts.Covers (builtBy ctx root.subtree) root := by
  have hlicence := builtBy_monotone ctx root.subtree
  have hroot : root ∈ root.subtree := root.mem_subtree_self
  obtain ⟨own, each, hown, heach, rfl⟩ := contribution_eq_ok (by simp) h
  have hfirst := ownContribution_starts (grants_builtBy ctx hroot) hown
  have hscope : root.info.clauseAliases ⊆ introduced own.clauses := by
    rw [hfirst.introduces.aliases]
    exact List.subset_append_right _ _
  have hchildren : ∀ child ∈ root.children,
      child.SoundBelow schema root.info.junctionOwner? ∧
        ∀ inner ∈ child.subtree, inner ∈ root.subtree := fun child hchild =>
    have hbelow : ∀ inner ∈ child.subtree, inner ∈ root.subtree := fun inner hinner =>
      mem_subtree_of_mem_children hchild hinner
    ⟨⟨(hsound root hroot).children child hchild,
      fun inner hinner => hsound inner (hbelow inner hinner)⟩, hbelow⟩
  have hrest := heach.joins hlicence
    (fun child hchild _ _ =>
      have hmem := mem_statementChildren.mp hchild
      child.contribution_joins hroot hmem (hchildren child hmem).1 (hchildren child hmem).2)
    hscope
  have htables : root.joinedTables = root :: (root.statementChildren.flatMap
      (Node.joined ([] ++ [root.info.aliasName]))).map Placed.table := by
    rw [joinedTables, joined_eq, List.map_cons]
  refine ⟨hfirst.source.append hrest.joins, ?_, hfirst.inScope.append hlicence hrest.inScope, ?_⟩
  · rw [Contribution.clauses_append, introduced_append, hfirst.introduces.aliases, hrest.aliases,
      htables, List.flatMap_cons, List.append_assoc]
  · intro table htable hpaginate hterms
    simp only [Contribution.clauses_append, List.filterMap_append, List.mem_append]
    rw [htables, List.mem_cons] at htable
    rcases htable with rfl | hjoined
    · obtain ⟨select, hmem, hcounts⟩ := hfirst.introduces.counts hpaginate hterms
      exact ⟨select, Or.inl hmem, hcounts⟩
    · obtain ⟨select, hmem, hcounts⟩ := hrest.counts table hjoined hpaginate hterms
      exact ⟨select, Or.inr hmem, hcounts⟩

/-- The statement of a contribution that starts with FROM. -/
theorem assemble_eq_ok (dialect : Dialect) (fieldName : String) {parts : Contribution}
    (hsource : StartsWithSource parts.clauses) (hitems : parts.items ≠ []) :
    ∃ select, assemble dialect fieldName parts = .ok (some select) ∧
      select.clauses = parts.clauses ∧ select.list = .items (distinctItems dialect parts.items) ∧
      select.condition = .conjunction parts.conditions ∧ select.order = parts.order := by
  have hdistinct : (distinctItems dialect parts.items).isEmpty = false := by
    rw [List.isEmpty_eq_false_iff]
    exact fun h => hitems (distinctItems_eq_nil h)
  obtain ⟨select, hplace, hclauses, hlist⟩ :=
    hsource.exists_place (.items (distinctItems dialect parts.items))
  refine ⟨{ select with condition := .conjunction parts.conditions, order := parts.order }, ?_,
    hclauses, hlist, rfl, rfl⟩
  simp [assemble, hdistinct, hplace]

/-- A statement has the clauses, conditions and ordering of its contribution. -/
theorem Table.statement_parts (hsound : ∀ table ∈ root.subtree, table.Sound schema)
    {select : Select} (h : root.statement ctx = .ok (some select)) :
    ∃ parts : Contribution, root.contribution ctx none [] = .ok parts ∧
      select.clauses = parts.clauses ∧
      select.list = .items (distinctItems ctx.dialect parts.items) ∧
      select.condition = .conjunction parts.conditions ∧ select.order = parts.order := by
  obtain ⟨parts, hparts, hassemble⟩ := statement_eq_ok h
  have hitems : parts.items ≠ [] := by
    intro hnil
    simp [assemble, distinctItems, Assoc.distinctBy, Assoc.distinctByFrom, hnil] at hassemble
  obtain ⟨found, hfound, hsame⟩ := assemble_eq_ok ctx.dialect root.info.fieldName
    (contribution_covers hsound hparts).source hitems
  rw [hfound] at hassemble
  obtain rfl := Option.some.inj (Except.ok.inj hassemble)
  exact ⟨parts, hparts, hsame⟩

/-- A statement has the clauses, conditions and ordering that its tables contribute. -/
theorem Table.statement_covers (hsound : ∀ table ∈ root.subtree, table.Sound schema)
    {select : Select} (h : root.statement ctx = .ok (some select)) :
    ∃ parts : Contribution, parts.Covers (builtBy ctx root.subtree) root ∧
      select.clauses = parts.clauses ∧
      select.list = .items (distinctItems ctx.dialect parts.items) ∧
      select.condition = .conjunction parts.conditions ∧ select.order = parts.order := by
  obtain ⟨parts, hparts, hsame⟩ := statement_parts hsound h
  exact ⟨parts, contribution_covers hsound hparts, hsame⟩

end Statement

theorem getD_junctionOwner? (info : TableInfo) :
    info.junctionOwner?.getD info.aliasName = info.junctionAlias := rfl

/-- Everything a statement of a plan refers to is in scope: in the select list, the
conditions and the orderings, in the conditions of joins, inside of pages, and in what the
options of tables build.  The number of rows of a list paged by row numbers is read from
its page, which counts them. -/
theorem Table.statement_in_scope {env : Environment} {minify : Bool} {root : Table Node}
    (hroot : Compiled env minify root) {table : Table Node} (htable : table ∈ root.subtree)
    {ctx : StatementContext} {select : Select} (h : table.statement ctx = .ok (some select)) :
    select.Scoped (builtBy ctx table.subtree) [] ∧
      ∀ paged ∈ table.joinedTables, paged.info.paginate = true →
        paged.info.effectiveSortKey? = none →
        ∃ aliasName owner page,
          .column ⟨totalColumn, totalColumn, aliasName, owner⟩ ∈ paged.shared ∧
            (owner.getD paged.info.aliasName, page) ∈
              select.clauses.filterMap TableClause.subquery? ∧ page.Counts := by
  have hsound : ∀ inner ∈ table.subtree, inner.Sound env.schema := fun inner hinner =>
    hroot.sound inner ((subtree_sublist table htable).subset hinner)
  obtain ⟨parts, hcovers, hclauses, hlist, hcondition, horder⟩ := statement_covers hsound h
  constructor
  · apply Select.scoped_of_clauses
    · exact hclauses ▸ hcovers.source
    · exact hclauses ▸ hcovers.inScope.clauses
    · rw [hlist, hclauses]
      exact fun item hitem => hcovers.inScope.items item (Assoc.mem_of_mem_distinctBy hitem)
    · rw [hcondition, hclauses]
      exact Expression.scoped_conjunction hcovers.inScope.conditions
    · rw [horder, hclauses]
      exact hcovers.inScope.order
  · intro paged hpaged hpaginate hterms
    obtain ⟨placed, hplaced, rfl⟩ := List.mem_map.mp hpaged
    have hmem : placed.table ∈ table.subtree := (leads_of_mem_joined hplaced).mem
    obtain ⟨-, aliasName, htotal⟩ := (hsound placed.table hmem).provided.total hpaginate hterms
    obtain ⟨page, hpage, hcounts⟩ := hcovers.counts placed.table hpaged hpaginate hterms
    refine ⟨aliasName, _, page, htotal, ?_, hcounts⟩
    rw [getD_junctionOwner?, hclauses]
    exact hpage

/-! ### A list through a junction -/

/-- Posts with a connection of tags as the named field. -/
def tagsSchema (field : String) (options : FieldOptions) : Schema where
  types :=
    [("Post", tableType "posts"
      [(field, ⟨.named "Tags", { options with sqlPaginate := true }⟩)]),
     ("Query", { tableType "" [("posts", plainField (.list (.named "Post")))] with
        table := none }),
     ("Tag", tableType "tags" [("name", plainField (.named "String"))]),
     ("TagEdge", { tableType "" [("node", plainField (.named "Tag"))] with table := none }),
     ("Tags", { tableType "" [("edges", plainField (.list (.named "TagEdge"))),
        ("pageInfo", plainField (.named "PageInfo"))] with table := none })]

/-- A request for the names of the first two tags of every post. -/
def tagsRequest (field : String) : Request where
  parentType := "Query"
  fields := [⟨"posts", [], [.field field [("first", .number (.int 2))]
    [.field "edges" [] [.field "node" [] [.field "name" [] []]]]]⟩]
  fragments := []

def taggings : Junction where
  reference := "taggings"
  aliasName := "taggings"
  includes := []
  condition := none
  orderBy := none
  sortKey := none
  fetch := .joins (.template "\x7bparent\x7d.id = \x7bchild\x7d.post_id")
    (.template "\x7bparent\x7d.tag_id = \x7bchild\x7d.id")

/-- Tags joined through a junction, ordered by their names. -/
def taggingOptions : FieldOptions :=
  { FieldOptions.empty with
    junction := some {
      sqlTable := .literal "taggings"
      sqlJoins := some (.template "\x7bparent\x7d.id = \x7bchild\x7d.post_id",
        .template "\x7bparent\x7d.tag_id = \x7bchild\x7d.id")
      sqlBatch := none
      uniqueKey := none
      condition := none
      orderBy := none
      sortKey := none
      includes := none }
    condition := some (.template "NOT \x7btable\x7d.hidden")
    orderBy := some (.literal (.column "name")) }

/-- The tags of a post, paged by row numbers: the page is that of the junction. -/
def postTags : Table Node where
  info := { plainInfo "tags" "tags" true (some (.junction taggings)) with
    typeName := "Tag"
    args := [("first", .number (.int 2))]
    paginate := true
    orderBy := some [⟨"name", .ascending⟩]
    condition := some (.template "NOT \x7btable\x7d.hidden") }
  shared :=
    [.column (ownedColumn "id"), .column ⟨totalColumn, totalColumn, totalColumn, some "taggings"⟩,
      .column (ownedColumn "name")]
  typed := []

/-- The plan of posts with a list of each. -/
def postsPlan (list : Table Node) : Table Node where
  info := { plainInfo "posts" "posts" true none with typeName := "Post", reference := "posts" }
  shared := [.column (ownedColumn "id"), .table list]
  typed := []

theorem compile_postTags :
    compile ⟨tagsSchema "tags" taggingOptions, .null⟩ false (tagsRequest "tags") =
      .ok (postsPlan postTags) := by
  cbv

/-- Posts with a page of tags each: the page joins the tags to sort the taggings by their
names, and counts the taggings. -/
theorem statement_in_scope_postTags :
    Compiled ⟨tagsSchema "tags" taggingOptions, .null⟩ false (postsPlan postTags) ∧
      postsPlan postTags ∈ (postsPlan postTags).subtree ∧
      ∃ select, (postsPlan postTags).statement postgresContext = .ok (some select) ∧
        select.Scoped (builtBy postgresContext (postsPlan postTags).subtree) [] ∧
        ∀ paged ∈ (postsPlan postTags).joinedTables, paged.info.paginate = true →
          paged.info.effectiveSortKey? = none →
          ∃ aliasName owner page,
            .column ⟨totalColumn, totalColumn, aliasName, owner⟩ ∈ paged.shared ∧
              (owner.getD paged.info.aliasName, page) ∈
                select.clauses.filterMap TableClause.subquery? ∧ page.Counts := by
  have hcompiled : Compiled ⟨tagsSchema "tags" taggingOptions, .null⟩ false (postsPlan postTags) :=
    .request compile_postTags
  have hroot := (postsPlan postTags).mem_subtree_self
  exact ⟨hcompiled, hroot, _, rfl, Table.statement_in_scope hcompiled hroot rfl⟩

end JoinPlan.Plan
