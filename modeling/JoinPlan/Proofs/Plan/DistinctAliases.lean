import JoinPlan.Proofs.Plan.Scoping
import Mathlib.Data.List.Perm.Subperm

/-!
# Relations of a statement have aliases of their own

The tables that a statement joins are some of the plan's, so their aliases and those of
their junctions are distinct.  The page of a batch is joined to the rows of its key values,
whose alias is a word that was not handed out: it clashes with a table of that alias.
Columns among a table's children that are another table's are those of its junction.
-/

namespace JoinPlan.Plan

open Sql

/-! ### The tables a statement joins -/

theorem subperm_flatMap {α β : Type} {f g : α → List β} {items : List α}
    (h : ∀ item ∈ items, (f item).Subperm (g item)) :
    (items.flatMap f).Subperm (items.flatMap g) := by
  induction items with
  | nil => exact .refl _
  | cons item rest ih =>
      rw [List.forall_mem_cons] at h
      rw [List.flatMap_cons, List.flatMap_cons]
      exact h.1.append (ih h.2)

theorem Table.statementChildren_perm (table : Table Node) :
    table.statementChildren.Perm table.children :=
  List.perm_append_comm

theorem Table.joined_subperm {table : Table Node} (path : List String)
    (hchildren : ∀ child ∈ table.children, ∀ path,
      ((child.joined path).map Placed.table).Subperm child.subtree) :
    ((table.joined path).map Placed.table).Subperm table.subtree := by
  rw [joined_eq, subtree_eq, List.map_cons, List.map_flatMap]
  rw [List.subperm_cons]
  have hbelow := subperm_flatMap fun child hchild =>
    hchildren child (mem_statementChildren.mp hchild) (path ++ [table.info.aliasName])
  exact hbelow.trans (table.statementChildren_perm.flatMap_right Node.subtree).subperm

theorem Node.joined_subperm (node : Node) :
    ∀ path, ((node.joined path).map Placed.table).Subperm node.subtree := by
  induction node using Node.induction with
  | leaf node hleaf =>
      intro path
      rw [joined_of_leaf hleaf]
      exact List.nil_subperm
  | table table ih =>
      intro path
      rw [joined, subtree]
      split
      · exact List.nil_subperm
      · exact table.joined_subperm path ih

/-- The tables a statement joins are tables of the plan, each once. -/
theorem Table.joinedTables_subperm (root : Table Node) :
    root.joinedTables.Subperm root.subtree :=
  root.joined_subperm [] fun child _ => child.joined_subperm

/-! ### Their aliases -/

theorem TableInfo.clauseAliases_perm (info : TableInfo) :
    info.clauseAliases.Perm info.tableAliases :=
  List.perm_append_singleton _ _

theorem flatMap_clauseAliases_perm (tables : List (Table Node)) :
    (tables.flatMap fun table => table.info.clauseAliases).Perm (tableAliases tables) :=
  List.Perm.flatMap_left tables fun table _ => table.info.clauseAliases_perm

theorem tableAliases_nodup_of_subperm {tables others : List (Table Node)}
    (hsub : tables.Subperm others) (hnodup : (tableAliases others).Nodup) :
    (tableAliases tables).Nodup := by
  obtain ⟨between, hperm, hsublist⟩ := hsub
  exact ((hperm.flatMap_right _).nodup_iff).mp (hnodup.sublist (hsublist.flatMap _))

section Statement

variable {env : Environment} {minify : Bool} {root table : Table Node} {ctx : StatementContext}
  {select : Select}

/-- The aliases of the tables and junctions that a statement of a plan joins are distinct. -/
theorem Compiled.joinedTables_nodup (hroot : Compiled env minify root)
    (htable : table ∈ root.subtree) : (tableAliases table.joinedTables).Nodup := by
  apply tableAliases_nodup_of_subperm table.joinedTables_subperm
  exact hroot.tableAliases_nodup.sublist ((Table.subtree_sublist table htable).flatMap _)

/-- The relations of a statement have aliases of their own, unless it pages a batch and one
of its tables or junctions is called as the rows of the key values. -/
theorem Table.introduced_nodup_iff (hroot : Compiled env minify root)
    (htable : table ∈ root.subtree) (h : table.statement ctx = .ok (some select)) :
    (introduced select.clauses).Nodup ↔
      (table.info.isBoundary = true → isPaged table.info = true →
        batchAlias ∉ tableAliases table.joinedTables) := by
  have hsound : ∀ inner ∈ table.subtree, inner.Sound env.schema := fun inner hinner =>
    hroot.sound inner ((subtree_sublist table htable).subset hinner)
  obtain ⟨parts, hcovers, hclauses, -⟩ := statement_covers hsound h
  have hperm := flatMap_clauseAliases_perm table.joinedTables
  have hdistinct := hroot.joinedTables_nodup htable
  rw [hclauses, hcovers.aliases, (hperm.append_left _).nodup_iff, TableInfo.keyAliases]
  cases hboundary : table.info.isBoundary <;> cases hpaged : isPaged table.info <;>
    simp [hdistinct]

end Statement

/-! ### A batch of pages -/

/-- Tags fetched in a batch, ordered by their names. -/
def batchedTagOptions : FieldOptions :=
  { FieldOptions.empty with
    sqlBatch := some ⟨"post_id", "id"⟩
    orderBy := some (.literal (.column "name")) }

/-- The batched tags of posts, paged by row numbers. -/
def batchedTags (field : String) : Table Node where
  info := { plainInfo field field true
      (some (.batch (ownedColumn "post_id") (ownedColumn "id"))) with
    typeName := "Tag"
    reference := "tags"
    args := [("first", .number (.int 2))]
    paginate := true
    orderBy := some [⟨"name", .ascending⟩] }
  shared := [.column (ownedColumn "id"), .column (ownedColumn totalColumn),
    .column (ownedColumn "name"), .column (ownedColumn "post_id")]
  typed := []

theorem compile_batchedTags :
    compile ⟨tagsSchema "tags" batchedTagOptions, .null⟩ false (tagsRequest "tags") =
      .ok (postsPlan (batchedTags "tags")) := by
  cbv

/-- The tags of the first post. -/
def firstPost : StatementContext := { postgresContext with scope := [.number (.int 1)] }

theorem introduced_nodup_batchedTags :
    Compiled ⟨tagsSchema "tags" batchedTagOptions, .null⟩ false (postsPlan (batchedTags "tags")) ∧
      batchedTags "tags" ∈ (postsPlan (batchedTags "tags")).subtree ∧
      ∃ select, (batchedTags "tags").statement firstPost = .ok (some select) ∧
        (introduced select.clauses).Nodup := by
  have hcompiled : Compiled ⟨tagsSchema "tags" batchedTagOptions, .null⟩ false
      (postsPlan (batchedTags "tags")) := .request compile_batchedTags
  have htable : batchedTags "tags" ∈ (postsPlan (batchedTags "tags")).subtree :=
    List.mem_cons_of_mem _ List.mem_cons_self
  obtain ⟨select, hselect⟩ :
      ∃ select, (batchedTags "tags").statement firstPost = .ok (some select) := ⟨_, rfl⟩
  refine ⟨hcompiled, htable, select, hselect, ?_⟩
  apply (Table.introduced_nodup_iff hcompiled htable hselect).mpr
  decide

/-- A paged batch of the field `temp` joins its page to key values of the same alias. -/
theorem exists_repeated_alias :
    ∃ root table select,
      compile ⟨tagsSchema "temp" batchedTagOptions, .null⟩ false (tagsRequest "temp") = .ok root ∧
        table ∈ root.subtree ∧ table.info.isBoundary = true ∧
        table.statement firstPost = .ok (some select) ∧
        introduced select.clauses = ["temp", "temp"] ∧ ¬ (introduced select.clauses).Nodup := by
  refine ⟨postsPlan (batchedTags "temp"), batchedTags "temp", _, by cbv,
    List.mem_cons_of_mem _ List.mem_cons_self, rfl, rfl, rfl, ?_⟩
  decide

/-! ### Columns of a junction -/

/-- The aliases of the tables and junctions of a plan are distinct, and a column of another table
among a table's children, shared or typed, belongs to that table's own junction. -/
theorem Compiled.aliases_distinct_and_owned {env : Environment} {minify : Bool}
    {root : Table Node} (hroot : Compiled env minify root) :
    (tableAliases root.subtree).Nodup ∧
      ∀ table ∈ root.subtree, ∀ child ∈ table.children, ∀ owner, child.owner? = some owner →
        ∃ junction, table.info.junction? = some junction ∧ junction.aliasName = owner := by
  refine ⟨hroot.tableAliases_nodup, fun table htable child hchild owner howner => ?_⟩
  have hbelongs := (hroot.sound table htable).children child hchild
  exact Option.map_eq_some_iff.mp (hbelongs.owner owner howner)

/-- Posts whose tags are batched through taggings that have some of a tag's fields. -/
def weightedSchema : Schema where
  types :=
    [("Post", tableType "posts" [("tags", ⟨.list (.named "Tag"), { FieldOptions.empty with
        junction := some {
          sqlTable := .literal "taggings"
          sqlJoins := none
          sqlBatch := some ⟨"post_id", "id", .template "\x7bparent\x7d.tag_id = \x7bchild\x7d.id"⟩
          uniqueKey := some (.many ["post_id", "tag_id"])
          condition := none
          orderBy := none
          sortKey := none
          includes := some (.literal
            [("label", { FieldOptions.empty with sqlDeps := some ["weight", "since"] }),
             ("weight", FieldOptions.empty)]) } }⟩)]),
     ("Query", { tableType "" [("posts", plainField (.list (.named "Post")))] with
        table := none }),
     ("Tag", tableType "tags" [("label", plainField (.named "String")),
        ("name", plainField (.named "String")), ("weight", plainField (.named "Int"))])]

def weightedRequest : Request where
  parentType := "Query"
  fields := [⟨"posts", [], [.field "tags" []
    [.field "name" [] [], .field "weight" [] [], .field "label" [] []]]⟩]
  fragments := []

/-- A column of the taggings. -/
def taggingColumn (name : String) : Column := ⟨name, name, name, some "taggings"⟩

/-- The tags of a post with what their taggings say of them, the dependencies of a label last. -/
def weightedTags : Table Node where
  info := { plainInfo "tags" "tags" true (some (.junction { taggings with
      fetch := .batch (.template "\x7bparent\x7d.tag_id = \x7bchild\x7d.id")
        (taggingColumn "post_id") (ownedColumn "id")
      includes := [("label", { FieldOptions.empty with sqlDeps := some ["weight", "since"] }),
        ("weight", FieldOptions.empty)] })) with
    typeName := "Tag" }
  shared :=
    [.composite ["post_id", "tag_id"] "pos#tag" "pos#tag" (some "taggings"),
      .column (ownedColumn "id"), .column (ownedColumn "name"),
      .column (taggingColumn "weight"), .column (taggingColumn "post_id"),
      .dependencies [("weight", "weight"), ("since", "since")] (some "taggings")]
  typed := []

theorem compile_weightedTags :
    compile ⟨weightedSchema, .null⟩ false weightedRequest = .ok (postsPlan weightedTags) := by
  cbv

theorem aliases_distinct_and_owned_weightedTags :
    Compiled ⟨weightedSchema, .null⟩ false (postsPlan weightedTags) ∧
      tableAliases (postsPlan weightedTags).subtree = ["posts", "tags", "taggings"] ∧
      (tableAliases (postsPlan weightedTags).subtree).Nodup ∧
      ∀ table ∈ (postsPlan weightedTags).subtree, ∀ child ∈ table.children, ∀ owner,
        child.owner? = some owner →
          ∃ junction, table.info.junction? = some junction ∧ junction.aliasName = owner := by
  have hcompiled : Compiled ⟨weightedSchema, .null⟩ false (postsPlan weightedTags) :=
    .request compile_weightedTags
  obtain ⟨hnodup, howned⟩ := Compiled.aliases_distinct_and_owned hcompiled
  exact ⟨hcompiled, rfl, hnodup, howned⟩

end JoinPlan.Plan
