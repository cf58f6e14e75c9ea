import JoinPlan.Proofs.Plan.Parts
import JoinPlan.Proofs.Plan.Scoping
import JoinPlan.Proofs.Sql.Conjunction
import JoinPlan.Proofs.Sql.Evaluation

/-!
# The rows a WHERE clause keeps

The WHERE clause of a statement holds the conditions of its tables and the scope of its
batch.  A left join keeps the rows that nothing is joined to, but conditions of the joined
table exclude them again if they stand there: only a paginated table keeps its conditions
inside of its page.
-/

namespace JoinPlan

namespace Sql

/-- Whether a condition is true of a row: an AND is where both its sides are. -/
def Expression.IsTrueOf (database : Database) (row : Bindings) : Expression → Prop
  | .and left right => left.IsTrueOf database row ∧ right.IsTrueOf database row
  | condition => ∃ value, condition.value? database row = some value ∧ isTrue value = true

section IsTrueOf

variable {database : Database} {row : Bindings}

theorem isTrueOf_always : Expression.always.IsTrueOf database row := ⟨.bool true, rfl, rfl⟩

theorem isTrueOf_foldl_and {first : Expression} {rest : List Expression} :
    (rest.foldl .and first).IsTrueOf database row ↔
      first.IsTrueOf database row ∧ ∀ condition ∈ rest, condition.IsTrueOf database row := by
  induction rest generalizing first with
  | nil => simp
  | cons second rest ih =>
      rw [List.foldl_cons, ih, List.forall_mem_cons, Expression.IsTrueOf, and_assoc]

theorem isTrueOf_conjunction {conditions : List Expression} :
    (Expression.conjunction conditions).IsTrueOf database row ↔
      ∀ condition ∈ conditions, condition.IsTrueOf database row := by
  have hkept : (∀ condition ∈ conditions, condition.IsTrueOf database row) ↔
      ∀ condition ∈ conditions.filter (fun condition => !condition.isAlways),
        condition.IsTrueOf database row := by
    refine ⟨fun h condition hmem => h condition (List.mem_of_mem_filter hmem),
      fun h condition hmem => ?_⟩
    cases halways : condition.isAlways with
    | true => exact Expression.eq_always halways ▸ isTrueOf_always
    | false => exact h condition (List.mem_filter.mpr ⟨hmem, by simp [halways]⟩)
  rw [hkept, Expression.conjunction]
  split
  · rename_i hnil
    simp [hnil, isTrueOf_always]
  · rename_i first rest hcons
    rw [hcons, List.forall_mem_cons, isTrueOf_foldl_and]

end IsTrueOf

end Sql

namespace Plan

open Sql

/-! ### What tables add to the WHERE clause -/

/-- The scope of a batch, for a table fetched in batches whose page does not have it. -/
def scopeConditions (ctx : StatementContext) (info : TableInfo) : List Expression :=
  match info.batchKeys? with
  | some (thisKey, _) =>
      if isPaged info then [] else [inScope ctx info.junctionAlias thisKey.name]
  | none => []

/-- The conditions a table adds to the WHERE clause of its statement. -/
def whereConditions (ctx : StatementContext) (info : TableInfo) : List Expression :=
  (if info.paginate then [] else ownConditions ctx info) ++ scopeConditions ctx info

section Conditions

variable {ctx : StatementContext} {info : TableInfo}

theorem batchClauses_conditions {thisKey parentKey : Column} {parts : Contribution}
    (h : batchClauses ctx info thisKey parentKey = .ok parts) :
    parts.conditions = if isPaged info then [] else [inScope ctx info.aliasName thisKey.name] := by
  cases batchClauses_eq_ok h with
  | whole hunpaged => rw [if_neg hunpaged]
  | page hpaged => exact (if_pos hpaged).symm

theorem junctionBatchClauses_conditions {junction : Junction} {toTarget : JoinCondition}
    {thisKey parentKey : Column} {parts : Contribution}
    (h : junctionBatchClauses ctx info junction toTarget thisKey parentKey = .ok parts) :
    parts.conditions =
      if isPaged info then [] else [inScope ctx junction.aliasName thisKey.name] := by
  cases junctionBatchClauses_eq_ok h with
  | whole hunpaged => rw [if_neg hunpaged]
  | page hpaged => exact (if_pos hpaged).symm

/-- Introducing a table asks for nothing but the scope of a batch. -/
theorem Introduction.conditions {parent : Option String} {parts : Contribution}
    (h : Introduction ctx info parent parts) : parts.conditions = scopeConditions ctx info := by
  unfold scopeConditions
  cases h with
  | root hrelation | join hrelation =>
      simp [TableInfo.batchKeys?, hrelation, Contribution.ofClauses, Contribution.empty]
  | junctionJoin hrelation hfetch =>
      simp [TableInfo.batchKeys?, hrelation, hfetch, Contribution.ofClauses, Contribution.empty]
  | batch hrelation hparts =>
      simp [TableInfo.batchKeys?, hrelation, TableInfo.junctionAlias, TableInfo.junction?,
        batchClauses_conditions hparts]
  | junctionBatch hrelation hfetch hparts =>
      simp [TableInfo.batchKeys?, hrelation, hfetch, TableInfo.junctionAlias,
        TableInfo.junction?, junctionBatchClauses_conditions hparts]

theorem IsPart.conditions {table : Table Node} {own : Contribution} (h : IsPart ctx table own) :
    own.conditions = whereConditions ctx table.info := by
  obtain ⟨parent, path, hhere, hown⟩ := h
  rw [ownContribution] at hown
  obtain ⟨relation, hrelation, hown⟩ := bind_eq_ok.mp hown
  obtain rfl := Except.ok.inj hown
  have hfetched : (!table.info.isBoundary || parent.isNone) = true := by
    cases hboundary : table.info.isBoundary <;> simp_all
  have hscope := (relationClauses_cases hhere hrelation).conditions
  cases hpaginate : table.info.paginate <;>
    simp [Contribution.append, whereConditions, hfetched, hscope, hpaginate]

theorem Contribution.conditions_concat (each : List Contribution) :
    (concat each).conditions = each.flatMap conditions := by
  induction each with
  | nil => rfl
  | cons first rest ih =>
      rw [concat_cons, List.flatMap_cons, ← ih]
      rfl

theorem flatMap_conditions {tables : List (Table Node)} {each : List Contribution}
    (h : List.Forall₂ (IsPart ctx) tables each) :
    each.flatMap Contribution.conditions =
      tables.flatMap fun table => whereConditions ctx table.info := by
  induction h with
  | nil => rfl
  | cons hown _ ih => rw [List.flatMap_cons, List.flatMap_cons, ih, hown.conditions]

end Conditions

/-! ### The WHERE clause of a statement -/

section Statement

variable {table : Table Node} {ctx : StatementContext} {select : Select}

/-- The WHERE clause of a statement is what its tables add to it, and nothing else. -/
theorem Table.condition_of_statement (h : table.statement ctx = .ok (some select)) :
    select.condition =
      .conjunction (table.joinedTables.flatMap fun joined => whereConditions ctx joined.info) := by
  obtain ⟨parts, hparts, hassemble⟩ := statement_eq_ok h
  obtain ⟨each, heach, hbare⟩ := contribution_root_madeOf hparts
  have hconditions : parts.conditions = (Contribution.concat each).conditions := by
    rw [← hbare]
    rfl
  rw [condition_of_assemble hassemble, hconditions, Contribution.conditions_concat,
    flatMap_conditions heach]
  rfl

/-- The tables left joined below a statement's own table. -/
def Table.joinedBelow (table : Table Node) : List (Table Node) := table.joinedTables.tail

theorem Table.joinedTables_eq (table : Table Node) :
    table.joinedTables = table :: table.joinedBelow := by
  rw [joinedBelow, joinedTables, joined_eq, List.map_cons, List.tail_cons]

theorem Node.isBoundary_of_mem_joined (node : Node) :
    ∀ {path : List String} {placed : Placed}, placed ∈ node.joined path →
      placed.table.info.isBoundary = false := by
  induction node using Node.induction with
  | leaf node hleaf =>
      intro path placed h
      rw [joined_of_leaf hleaf] at h
      cases h
  | table table ih =>
      intro path placed h
      rw [joined] at h
      split at h
      · cases h
      · rename_i hboundary
        rw [Table.joined_eq] at h
        rcases List.mem_cons.mp h with rfl | h
        · exact eq_false_of_ne_true hboundary
        · obtain ⟨child, hchild, hplaced⟩ := List.mem_flatMap.mp h
          exact ih child (Table.mem_statementChildren.mp hchild) hplaced

/-- A table joined below another is not fetched in batches. -/
theorem Table.whereConditions_of_joinedBelow {joined : Table Node}
    (h : joined ∈ table.joinedBelow) :
    whereConditions ctx joined.info =
      if joined.info.paginate then [] else ownConditions ctx joined.info := by
  rw [joinedBelow, joinedTables, joined_eq, List.map_cons, List.tail_cons] at h
  obtain ⟨placed, hplaced, rfl⟩ := List.mem_map.mp h
  obtain ⟨child, -, hplaced⟩ := List.mem_flatMap.mp hplaced
  have hboundary := child.isBoundary_of_mem_joined hplaced
  simp only [TableInfo.isBoundary, Option.isSome_eq_false_iff, Option.isNone_iff_eq_none]
    at hboundary
  rw [whereConditions, scopeConditions, hboundary, List.append_nil]

/-- A row meets the WHERE clause of a statement exactly if it meets what the statement's own
table adds to it and the conditions of every table left joined below without a page.  So if
tables with conditions are joined as pages alone, then a row of the statement's table stays
with what its own conditions and the scope of the batch say, whatever is joined to it. -/
theorem Table.where_isTrueOf_iff (h : table.statement ctx = .ok (some select))
    (database : Database) (row : Bindings) :
    (select.condition.IsTrueOf database row ↔
      (∀ condition ∈ whereConditions ctx table.info, condition.IsTrueOf database row) ∧
        ∀ joined ∈ table.joinedBelow, joined.info.paginate = false →
          ∀ condition ∈ ownConditions ctx joined.info, condition.IsTrueOf database row) ∧
    ((∀ joined ∈ table.joinedBelow,
        joined.info.paginate = true ∨ ownConditions ctx joined.info = []) →
      (∀ condition ∈ ownConditions ctx table.info, condition.IsTrueOf database row) →
      (∀ thisKey parentKey, table.info.batchKeys? = some (thisKey, parentKey) →
        (inScope ctx table.info.junctionAlias thisKey.name).IsTrueOf database row) →
      select.condition.IsTrueOf database row) := by
  have hiff : select.condition.IsTrueOf database row ↔
      (∀ condition ∈ whereConditions ctx table.info, condition.IsTrueOf database row) ∧
        ∀ joined ∈ table.joinedBelow, joined.info.paginate = false →
          ∀ condition ∈ ownConditions ctx joined.info, condition.IsTrueOf database row := by
    rw [condition_of_statement h, isTrueOf_conjunction, List.forall_mem_flatMap, joinedTables_eq,
      List.forall_mem_cons]
    refine and_congr_right fun _ => forall_congr' fun joined => forall_congr' fun hjoined => ?_
    rw [whereConditions_of_joinedBelow hjoined]
    cases joined.info.paginate <;> simp
  refine ⟨hiff, fun hpaged hown hscope => hiff.mpr ⟨?_, ?_⟩⟩
  · intro condition hcondition
    rcases List.mem_append.mp hcondition with hmem | hmem
    · split at hmem
      · cases hmem
      · exact hown condition hmem
    · unfold scopeConditions at hmem
      split at hmem
      · rename_i thisKey parentKey hkeys
        split at hmem
        · cases hmem
        · obtain rfl := List.mem_singleton.mp hmem
          exact hscope thisKey parentKey hkeys
      · cases hmem
  · intro joined hjoined hpaginate
    rcases hpaged joined hjoined with htrue | hnone
    · rw [hpaginate] at htrue
      cases htrue
    · rw [hnone]
      exact List.forall_mem_nil _

end Statement

/-- Every post stays, whether or not it has tags that are not hidden. -/
theorem where_isTrueOf_iff_postTags :
    compile ⟨tagsSchema "tags" taggingOptions, .null⟩ false (tagsRequest "tags") =
        .ok (postsPlan postTags) ∧
      ∃ select, (postsPlan postTags).statement postgresContext = .ok (some select) ∧
        ∀ database row, select.condition.IsTrueOf database row := by
  obtain ⟨select, hselect⟩ :
      ∃ select, (postsPlan postTags).statement postgresContext = .ok (some select) := ⟨_, rfl⟩
  refine ⟨compile_postTags, select, hselect, fun database row => ?_⟩
  apply (Table.where_isTrueOf_iff hselect database row).2
  · intro joined hjoined
    obtain rfl : joined = postTags := List.mem_singleton.mp hjoined
    exact .inl rfl
  · exact List.forall_mem_nil _
  · exact nofun

/-! ### A parent without children -/

/-- Posts of users that are published, of which a user has all or the first few. -/
def publishedOptions (limit : Option Nat) : FieldOptions :=
  { FieldOptions.empty with
    sqlJoin := some (.template "\x7bparent\x7d.id = \x7bchild\x7d.author")
    condition := some (.template "\x7btable\x7d.published")
    orderBy := limit.map fun _ => .literal (.column "id")
    limit := limit.map .literal }

def publishedSchema (limit : Option Nat) : Schema where
  types :=
    [("Post", tableType "posts" []),
     ("Query", { tableType "" [("users", plainField (.list (.named "User")))] with
        table := none }),
     ("User", tableType "users" [("posts", ⟨.list (.named "Post"), publishedOptions limit⟩)])]

def usersRequest : Request where
  parentType := "Query"
  fields := [⟨"users", [], [.field "posts" [] []]⟩]
  fragments := []

/-- A user without posts; what stands of a post is whether it is published. -/
def lonelyUser : Database where
  table reference := if reference = "users" then [[("id", .number (.int 1))]] else []
  raw _ row := row.column "posts" "published"

/-- The statement that all users are fetched by, with their posts or the first few. -/
structure FetchesUsers (limit : Option Nat) (root : Table Node) (select : Select) : Prop where
  compiled : compile ⟨publishedSchema limit, .null⟩ false usersRequest = .ok root
  statement : root.statement postgresContext = .ok (some select)
  unconditional : ownConditions postgresContext root.info = []
  unscoped : root.info.batchKeys? = none

/-- A user without posts is not fetched, although nothing is asked of users: the condition on
the posts stands in the WHERE clause, also where their page has it already. -/
theorem exists_parent_not_kept :
    (∃ root select, FetchesUsers none root select ∧
      ¬ select.condition.IsTrueOf lonelyUser
        [("users", [("id", .number (.int 1))]), ("posts", [])] ∧
      lonelyUser.rows? select = some []) ∧
    ∃ root select, FetchesUsers (some 3) root select ∧
      ¬ select.condition.IsTrueOf lonelyUser
        [("users", [("id", .number (.int 1))]), ("posts", [])] := by
  constructor
  · refine ⟨_, _, ⟨rfl, rfl, rfl, rfl⟩, ?_, rfl⟩
    rintro ⟨value, hvalue, htrue⟩
    cases hvalue
    cases htrue
  · refine ⟨_, _, ⟨rfl, rfl, rfl, rfl⟩, ?_⟩
    rintro ⟨value, hvalue, htrue⟩
    cases hvalue
    cases htrue

end Plan

end JoinPlan
