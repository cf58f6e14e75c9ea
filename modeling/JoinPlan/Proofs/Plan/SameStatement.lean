import JoinPlan.Proofs.Plan.Merging
import JoinPlan.Proofs.Plan.SelectList

/-!
# Merging dependencies keeps the statements

The columns needed among children are in the select list whether they are spread over several
nodes or merged into one, and no other part of a statement is made from them.  So a tree gives
the same statements before and after merging, but for the order of what is selected.
-/

namespace JoinPlan

/-- Two results that are the same error, or values related to each other. -/
inductive AlikeResults {ε α β : Type} (alike : α → β → Prop) : Except ε α → Except ε β → Prop
  | error (error : ε) : AlikeResults alike (.error error) (.error error)
  | ok {value : α} {other : β} (h : alike value other) : AlikeResults alike (.ok value) (.ok other)

theorem AlikeResults.bind {ε α β γ δ : Type} {alike : α → β → Prop} {next : γ → δ → Prop}
    {first : Except ε α} {second : Except ε β} {more : α → Except ε γ} {others : β → Except ε δ}
    (h : AlikeResults alike first second)
    (hnext : ∀ value other, alike value other → AlikeResults next (more value) (others other)) :
    AlikeResults next (first >>= more) (second >>= others) := by
  cases h with
  | error error => exact .error error
  | ok halike => exact hnext _ _ halike

theorem AlikeResults.same {ε α : Type} {alike : α → α → Prop} (h : ∀ value, alike value value)
    (result : Except ε α) : AlikeResults alike result result := by
  cases result with
  | error error => exact .error error
  | ok value => exact .ok (h value)

namespace Sql

/-- Clauses are put in place whatever a statement selects. -/
theorem Select.place_with_list (list : SelectList) (clauses : List TableClause)
    (select : Select) :
    ({ select with list }).place clauses =
      ((select.place clauses).1, { (select.place clauses).2 with list }) := by
  induction clauses generalizing select with
  | nil => rfl
  | cons clause rest ih =>
      cases clause with
      | join join => exact ih { select with joins := select.joins ++ [join] }
      | source source =>
          rw [place, place]
          split
          · rfl
          · exact ih { select with source := some source }

end Sql

namespace Plan

open Sql

/-! ### Contributions -/

/-- Contributions that agree but for the order of the items, and for items that only the first
is sure to have. -/
structure Contribution.Lacks (lost : List (String × Expression)) (first second : Contribution) :
    Prop where
  items : ∀ item, item ∈ first.items ↔ item ∈ second.items ∨ item ∈ lost
  clauses : second.clauses = first.clauses
  conditions : second.conditions = first.conditions
  order : second.order = first.order

namespace Contribution.Lacks

variable {lost more : List (String × Expression)} {first second third fourth : Contribution}

theorem refl (parts : Contribution) : Lacks [] parts parts :=
  ⟨by simp, rfl, rfl, rfl⟩

theorem append (h : Lacks lost first second) (hmore : Lacks more third fourth) :
    Lacks (lost ++ more) (first.append third) (second.append fourth) := by
  refine ⟨fun item => ?_, ?_, ?_, ?_⟩
  · simp only [Contribution.append, List.mem_append, h.items, hmore.items]
    tauto
  · simp only [Contribution.append, h.clauses, hmore.clauses]
  · simp only [Contribution.append, h.conditions, hmore.conditions]
  · simp only [Contribution.append, h.order, hmore.order]

/-- Items that are contributed on one side alone. -/
theorem drop (items : List (String × Expression)) (h : Lacks lost first second) :
    Lacks (items ++ lost) ((Contribution.ofItems items).append first) second := by
  refine ⟨fun item => ?_, h.clauses, h.conditions, h.order⟩
  simp only [Contribution.append, Contribution.ofItems, Contribution.empty, List.mem_append,
    h.items]
  tauto

/-- What is lacking is contributed in the end. -/
theorem restore (h : Lacks lost first second) {items : List (String × Expression)}
    (hitems : ∀ item, item ∈ items ↔ item ∈ lost) :
    Lacks [] first (second.append (.ofItems items)) := by
  refine ⟨fun item => ?_, ?_, ?_, ?_⟩
  · simp only [Contribution.append, Contribution.ofItems, Contribution.empty, List.mem_append,
      h.items, hitems, List.not_mem_nil, or_false]
  all_goals simp [Contribution.append, Contribution.ofItems, Contribution.empty, h.clauses,
    h.conditions, h.order]

end Contribution.Lacks

section Contributions

variable {ctx : StatementContext} {parent : String} {path : List String}

/-- The items of the columns that nodes need. -/
def neededItems (parent : String) (path : List String) (nodes : List Node) :
    List (String × Expression) :=
  (nodes.flatMap Node.needs).map fun need => columnItem parent path need.1 need.2.1 need.2.2

theorem contribution_dependencies (ctx : StatementContext) (parent : String) (path : List String)
    (columns : List (String × String)) (owner : Option String) :
    (Node.dependencies columns owner).contribution ctx parent path =
      .ok (.ofItems (neededItems parent path [.dependencies columns owner])) := by
  simp [Node.contribution, neededItems, Node.needs, Function.comp_def]

theorem nodesContribution_append_eq (first second : List Node) :
    nodesContribution ctx parent path (first ++ second) = (do
      let kept ← nodesContribution ctx parent path first
      let others ← nodesContribution ctx parent path second
      .ok (kept.append others)) := by
  induction first with
  | nil =>
      rw [List.nil_append, nodesContribution]
      cases nodesContribution ctx parent path second <;> rfl
  | cons node rest ih =>
      rw [List.cons_append, nodesContribution, nodesContribution, ih]
      cases node.contribution ctx parent path with
      | error error => rfl
      | ok kept =>
          cases nodesContribution ctx parent path rest with
          | error error => rfl
          | ok others =>
              cases nodesContribution ctx parent path second with
              | error error => rfl
              | ok last => exact congrArg Except.ok (Contribution.append_assoc _ _ _).symm

theorem nodesContribution_dependencies {nodes : List Node}
    (h : ∀ node ∈ nodes, ∃ columns owner, node = .dependencies columns owner) :
    nodesContribution ctx parent path nodes = .ok (.ofItems (neededItems parent path nodes)) := by
  induction nodes with
  | nil => rfl
  | cons node rest ih =>
      rw [List.forall_mem_cons] at h
      obtain ⟨⟨columns, owner, rfl⟩, hrest⟩ := h
      rw [nodesContribution, contribution_dependencies, ih hrest]
      simp [neededItems, Contribution.append, Contribution.ofItems, Contribution.empty, bind,
        Except.bind]

/-- Nodes that contribute alike before and after what is below them is merged. -/
def KeepsContributions (names : Namespace) (ctx : StatementContext) (nodes : List Node) : Prop :=
  ∀ node ∈ nodes, ∀ parent path,
    AlikeResults (Contribution.Lacks []) (node.contribution ctx parent path)
      ((node.prune names).1.contribution ctx parent path)

variable {names : Namespace}

theorem nodesContribution_keptNodes {nodes : List Node}
    (h : KeepsContributions names ctx nodes) (parent : String) (path : List String) :
    AlikeResults (Contribution.Lacks (neededItems parent path nodes))
      (nodesContribution ctx parent path nodes)
      (nodesContribution ctx parent path (keptNodes names nodes)) := by
  induction nodes with
  | nil => exact .ok (.refl _)
  | cons node rest ih =>
      rw [KeepsContributions, List.forall_mem_cons] at h
      have hrest := ih h.2
      cases hnode : node.dependencies? with
      | none =>
          have hkept : keptNodes names (node :: rest) =
              (node.prune names).1 :: keptNodes names rest := by
            simp [keptNodes, hnode]
          have hneeded : neededItems parent path (node :: rest) =
              [] ++ neededItems parent path rest := by
            simp [neededItems, Node.needs_of_none hnode]
          rw [hkept, hneeded, nodesContribution, nodesContribution]
          refine (h.1 parent path).bind fun first second hfirst => ?_
          exact hrest.bind fun others kept hothers => .ok (hfirst.append hothers)
      | some entry =>
          cases node with
          | dependencies columns owner =>
              have hneeded : neededItems parent path (.dependencies columns owner :: rest) =
                  neededItems parent path [.dependencies columns owner] ++
                    neededItems parent path rest := by
                simp [neededItems]
              rw [hneeded, nodesContribution, contribution_dependencies]
              change AlikeResults _ (nodesContribution ctx parent path rest >>= _)
                (nodesContribution ctx parent path (keptNodes names rest))
              generalize nodesContribution ctx parent path rest = before at hrest ⊢
              generalize nodesContribution ctx parent path (keptNodes names rest) = after at hrest ⊢
              cases hrest with
              | error error => exact .error error
              | ok hothers => exact .ok (hothers.drop _)
          | table | column | composite | expression | nothing => cases hnode

/-- Merged nodes contribute what the nodes did. -/
theorem nodesContribution_merged {nodes after : List Node} (hmerged : Merged names nodes after)
    (h : KeepsContributions names ctx nodes) (parent : String) (path : List String) :
    AlikeResults (Contribution.Lacks []) (nodesContribution ctx parent path nodes)
      (nodesContribution ctx parent path after) := by
  obtain ⟨merged, rfl, hdependencies⟩ := hmerged.split
  have hneeded : ∀ item, item ∈ neededItems parent path merged ↔
      item ∈ neededItems parent path nodes := by
    have hneeds := hmerged.needs
    rw [List.flatMap_append, needs_keptNodes, List.nil_append] at hneeds
    intro item
    simp only [neededItems, List.mem_map, hneeds]
  have hkept := nodesContribution_keptNodes h parent path
  rw [nodesContribution_append_eq, nodesContribution_dependencies hdependencies]
  generalize nodesContribution ctx parent path nodes = before at hkept ⊢
  generalize nodesContribution ctx parent path (keptNodes names nodes) = kept at hkept ⊢
  cases hkept with
  | error error => exact .error error
  | ok halike => exact .ok (halike.restore hneeded)

theorem bucketsContribution_merged {buckets : List (String × List Node)}
    (hissued : NeedsIssued names (buckets.flatMap Prod.snd))
    (h : KeepsContributions names ctx (buckets.flatMap Prod.snd)) (parent : String)
    (path : List String) :
    AlikeResults (Contribution.Lacks []) (bucketsContribution ctx parent path buckets)
      (bucketsContribution ctx parent path
        (buckets.map fun bucket => (bucket.1, mergedIn names bucket.2))) := by
  induction buckets with
  | nil => exact .ok (.refl _)
  | cons bucket rest ih =>
      rw [KeepsContributions, List.flatMap_cons, List.forall_mem_append] at h
      rw [List.flatMap_cons, needsIssued_append] at hissued
      have hfirst := nodesContribution_merged (merged_mergedIn hissued.1) h.1 parent path
      rw [List.map_cons, bucketsContribution, bucketsContribution, bucketContribution,
        bucketContribution]
      refine hfirst.bind fun first merged halike => ?_
      exact (ih hissued.2 h.2).bind fun others more hothers => .ok (halike.append hothers)

end Contributions

/-- Merging keeps what a tree contributes to a statement, wherever it is joined. -/
theorem Table.contribution_merged {names : Namespace} {ctx : StatementContext}
    {root : Table Node} (h : root.Issued names) (parent : Option String) (path : List String) :
    AlikeResults (Contribution.Lacks []) (root.contribution ctx parent path)
      ((root.merged names).contribution ctx parent path) := by
  induction root using Table.induction generalizing parent path with
  | step root ih =>
      have hchildren : KeepsContributions names ctx root.children := by
        intro node hnode parent path
        cases node with
        | table child =>
            have hmem := Table.mem_tables.mpr hnode
            have hissued := h.of_mem_tables hmem
            change AlikeResults _ (child.contribution ctx (some parent) path)
              ((child.prune names).1.contribution ctx (some parent) path)
            rw [Table.prune_of_issued hissued]
            exact ih child hmem hissued (some parent) path
        | column | dependencies | composite | expression | nothing => exact .same .refl _
      obtain ⟨info, shared, typed⟩ := root
      rw [KeepsContributions, Table.children, List.forall_mem_append] at hchildren
      rw [Table.merged, Table.contribution, Table.contribution]
      cases ownContribution ctx info parent path with
      | error error => exact .error error
      | ok own =>
          change AlikeResults _ (if _ then _ else _) (if _ then _ else _)
          split
          · exact .ok (.refl own)
          · have hbuckets := bucketsContribution_merged h.typed hchildren.2 info.aliasName
              (path ++ [info.aliasName])
            have hnodes := nodesContribution_merged (merged_mergedIn h.shared) hchildren.1
              info.aliasName (path ++ [info.aliasName])
            refine hbuckets.bind fun ofTyped merged htyped => ?_
            refine hnodes.bind fun ofShared others hshared => .ok ?_
            exact ((Contribution.Lacks.refl own).append htyped).append hshared

/-! ### Statements -/

/-- Select lists of the same items.  Of items that are written alike a list has one, and these
are written alike in both lists. -/
structure SameItems (dialect : Dialect) (list other : SelectList) : Prop where
  items : ∃ items others, (∀ item, item ∈ items ↔ item ∈ others) ∧
    list = .items (distinctItems dialect items) ∧ other = .items (distinctItems dialect others)
  written : (list.columns.map (renderItem dialect)).Perm (other.columns.map (renderItem dialect))

/-- Statements that differ in the order of their select lists at most. -/
structure SameStatement (dialect : Dialect) (first second : Select) : Prop where
  list : SameItems dialect first.list second.list
  source : second.source = first.source
  joins : second.joins = first.joins
  condition : second.condition = first.condition
  order : second.order = first.order
  limit : second.limit = first.limit
  offset : second.offset = first.offset

theorem nodup_written (dialect : Dialect) (items : List (String × Expression)) :
    ((distinctItems dialect items).map (renderItem dialect)).Nodup :=
  (Assoc.nodup_distinctByFrom _ items []).map_on fun _ hfirst _ hsecond heq =>
    Assoc.eq_of_mem_distinctBy hfirst hsecond heq

theorem mem_written {dialect : Dialect} {items : List (String × Expression)} {text : String} :
    text ∈ (distinctItems dialect items).map (renderItem dialect) ↔
      ∃ item ∈ items, renderItem dialect item = text := by
  rw [List.mem_map]
  constructor
  · rintro ⟨item, hitem, heq⟩
    exact ⟨item, Assoc.mem_of_mem_distinctBy hitem, heq⟩
  · rintro ⟨item, hitem, rfl⟩
    exact Assoc.exists_mem_distinctBy (renderItem dialect) hitem

theorem sameItems_distinctItems {dialect : Dialect} {items others : List (String × Expression)}
    (h : ∀ item, item ∈ items ↔ item ∈ others) :
    SameItems dialect (.items (distinctItems dialect items))
      (.items (distinctItems dialect others)) := by
  refine ⟨⟨items, others, h, rfl, rfl⟩, ?_⟩
  apply (List.perm_ext_iff_of_nodup (nodup_written _ _) (nodup_written _ _)).mpr
  intro text
  simp only [mem_written, h]

theorem isEmpty_distinctItems (dialect : Dialect) (items : List (String × Expression)) :
    (distinctItems dialect items).isEmpty = items.isEmpty := by
  rw [Bool.eq_iff_iff, List.isEmpty_iff, List.isEmpty_iff]
  constructor
  · exact distinctItems_eq_nil
  · rintro rfl
    rfl

/-- Contributions that differ in their items at most are put together alike, up to the select
list. -/
theorem assemble_congr {first second : Dialect} {fieldName : String} {parts others : Contribution}
    {alike : Select → Select → Prop} (hclauses : others.clauses = parts.clauses)
    (hconditions : others.conditions = parts.conditions) (horder : others.order = parts.order)
    (hempty : others.items.isEmpty = parts.items.isEmpty)
    (halike : ∀ select : Select, select.list = .items (distinctItems first parts.items) →
      alike select { select with list := .items (distinctItems second others.items) }) :
    AlikeResults (Option.Rel alike) (assemble first fieldName parts)
      (assemble second fieldName others) := by
  have hplace : (Select.ofList (.items (distinctItems second others.items))).place parts.clauses =
      _ := Select.place_with_list (.items (distinctItems second others.items)) parts.clauses
    (Select.ofList (.items (distinctItems first parts.items)))
  have hlist := Select.place_list parts.clauses
    (Select.ofList (.items (distinctItems first parts.items)))
  unfold assemble
  dsimp only
  rw [isEmpty_distinctItems, isEmpty_distinctItems, hclauses, hconditions, horder, hempty, hplace]
  generalize (Select.ofList (.items (distinctItems first parts.items))).place parts.clauses =
    result at hlist ⊢
  obtain ⟨placed, select⟩ := result
  dsimp only
  split
  · exact .ok .none
  · cases placed with
    | false => exact .error _
    | true => exact .ok (.some (halike { select with condition := _, order := _ } hlist))

theorem assemble_alike {dialect : Dialect} {fieldName : String} {first second : Contribution}
    (h : Contribution.Lacks [] first second) :
    AlikeResults (Option.Rel (SameStatement dialect)) (assemble dialect fieldName first)
      (assemble dialect fieldName second) := by
  have hitems : ∀ item, item ∈ first.items ↔ item ∈ second.items := by simpa using h.items
  have hempty : second.items.isEmpty = first.items.isEmpty := by
    rw [Bool.eq_iff_iff, List.isEmpty_iff, List.isEmpty_iff]
    simp only [List.eq_nil_iff_forall_not_mem, hitems]
  refine assemble_congr h.clauses h.conditions h.order hempty fun select hlist => ?_
  exact ⟨hlist ▸ sameItems_distinctItems hitems, rfl, rfl, rfl, rfl, rfl, rfl⟩

theorem Table.statement_merged {names : Namespace} {root : Table Node} (h : root.Issued names)
    (ctx : StatementContext) :
    AlikeResults (Option.Rel (SameStatement ctx.dialect)) (root.statement ctx)
      ((root.merged names).statement ctx) := by
  refine (Table.contribution_merged h none []).bind fun first second halike => ?_
  have hassembled : AlikeResults (Option.Rel (SameStatement ctx.dialect))
      (assemble ctx.dialect root.info.fieldName first)
      (assemble ctx.dialect (root.merged names).info.fieldName second) := assemble_alike halike
  generalize assemble ctx.dialect root.info.fieldName first = before at hassembled ⊢
  generalize assemble ctx.dialect (root.merged names).info.fieldName second = after
    at hassembled ⊢
  cases hassembled with
  | error error => exact .error (PlanError.configuration error)
  | ok hsame => exact .ok hsame

/-- Merging dependencies preserves every statement.  Take a tree whose dependencies carry the
aliases that one namespace issued, as they do in every compiled tree (`Compiled.eq_prune_issued`).
Merging them in that namespace leaves the namespace and the places of the tables as they are.  At
every table, in the shared children and in those of each concrete type, the children that are no
dependencies keep their order; behind them comes one node for each table that owns columns needed,
and these nodes have the columns needed before, each once.  The statement of every table, for any
context, dialect and keys, is the same error, or the same statement up to the order of its select
list. -/
theorem prune_preserves_statements {names : Namespace} {root : Table Node}
    (hissued : root.Issued names) :
    (root.prune names).2 = names ∧
      (root.prune names).1.subtree = root.subtree.map (fun table => (table.prune names).1) ∧
      ∀ table ∈ root.subtree,
        (table.prune names).1.info = table.info ∧
        Merged names table.shared (table.prune names).1.shared ∧
        List.Forall₂ (fun bucket after => after.1 = bucket.1 ∧ Merged names bucket.2 after.2)
          table.typed (table.prune names).1.typed ∧
        ∀ ctx, AlikeResults (Option.Rel (SameStatement ctx.dialect)) (table.statement ctx)
          ((table.prune names).1.statement ctx) := by
  have hmerged : ∀ table ∈ root.subtree, (table.prune names).1 = table.merged names :=
    fun table htable => congrArg Prod.fst (Table.prune_of_issued (hissued.of_mem_subtree htable))
  refine ⟨by rw [Table.prune_of_issued hissued], ?_, fun table htable => ?_⟩
  · rw [hmerged root root.mem_subtree_self, Table.subtree_merged hissued]
    exact List.map_congr_left fun table htable => (hmerged table htable).symm
  · have htree := hissued.of_mem_subtree htable
    rw [hmerged table htable]
    refine ⟨rfl, merged_mergedIn htree.shared, ?_, Table.statement_merged htree⟩
    apply List.forall₂_map_right_iff.mpr
    apply List.forall₂_same.mpr
    intro bucket hbucket
    refine ⟨rfl, merged_mergedIn fun need hneed => htree.typed need ?_⟩
    rw [List.flatMap_assoc]
    exact List.mem_flatMap.mpr ⟨bucket, hbucket, hneed⟩

/-- A minified namespace that was asked for some columns. -/
def askedFor (columns : List String) : Namespace :=
  columns.foldl (fun names column => (names.column column).2) (.fresh true)

/-- Staff, with names and emails for two computed fields, and with their teams in batches, where
the type of a team needs the email once more. -/
def staff : Table Node where
  info := plainInfo "staff" "staff" true none
  shared :=
    [.column (ownedColumn "id"),
      .dependencies [("first_name", "a"), ("last_name", "b")] none,
      .dependencies [("first_name", "a"), ("email", "c")] none,
      .table {
        info := plainInfo "teams" "teams" true
          (some (.batch (ownedColumn "staff_id") (ownedColumn "id")))
        shared :=
          [.dependencies [("tag", "d")] (some "team_tags"), .column (ownedColumn "staff_id")]
        typed := [("Office", [.dependencies [("email", "c")] none,
          .dependencies [("email", "c"), ("last_name", "b")] none])] }]
  typed := []

theorem staff_issued : staff.Issued (askedFor ["first_name", "last_name", "email", "tag"]) := by
  decide

/-- The statement for the staff, and the one for their teams. -/
theorem prune_preserves_statements_staff :
    staff.Issued (askedFor ["first_name", "last_name", "email", "tag"]) ∧
      ∀ table ∈ staff.subtree, ∀ ctx,
        AlikeResults (Option.Rel (SameStatement ctx.dialect)) (table.statement ctx)
          ((table.prune (askedFor ["first_name", "last_name", "email", "tag"])).1.statement ctx) :=
  ⟨staff_issued, fun table htable =>
    ((prune_preserves_statements staff_issued).2.2 table htable).2.2.2⟩

end Plan

end JoinPlan
