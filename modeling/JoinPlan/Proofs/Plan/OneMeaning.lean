import JoinPlan.Proofs.Plan.Compiled
import JoinPlan.Proofs.Plan.OutputAlias
import JoinPlan.Proofs.Plan.SelectList
import Mathlib

/-!
# Output aliases and what they mean

Columns of different tables of a statement have different output aliases, because
the aliases on the way to a table can be read back and no two tables share one.
Columns of one table are not told apart: if it fetches two different columns under
one alias, the output alias they share has two meanings.  A table also fetches the
columns of the junction it is reached by, so these are not told from its own either.

The sample plans, here and in the modules on top of this one, are evaluated with `cbv`.  It
looks for equations of the functions on the way, and the library is imported whole to have
them at hand.
-/

namespace JoinPlan.Plan

open Sql

/-! ### Where the tables of a statement stand -/

namespace Table

theorem mem_joined {table : Table Node} {path : List String} {placed : Placed} :
    placed ∈ table.joined path ↔ placed = ⟨path ++ [table.info.aliasName], table⟩ ∨
      ∃ child ∈ table.tables, child.info.isBoundary = false ∧
        placed ∈ child.joined (path ++ [table.info.aliasName]) := by
  rw [joined_eq, List.mem_cons, List.mem_flatMap]
  apply or_congr_right
  constructor
  · rintro ⟨node, hnode, hplaced⟩
    cases node with
    | table child =>
        rw [Node.joined] at hplaced
        split at hplaced
        · simp at hplaced
        · rename_i hboundary
          exact ⟨child, mem_tables.mpr (mem_statementChildren.mp hnode), by simpa using hboundary,
            hplaced⟩
    | column | dependencies | composite | expression | nothing => simp [Node.joined] at hplaced
  · rintro ⟨child, hchild, hboundary, hplaced⟩
    refine ⟨.table child, mem_statementChildren.mpr (mem_tables.mp hchild), ?_⟩
    rw [Node.joined, if_neg (by simp [hboundary])]
    exact hplaced

/-- A table of a statement stands at the end of a path that starts at the
statement's own table and leads through tables of the plan. -/
structure Leads (root : Table Node) (path : List String) (placed : Placed) : Prop where
  mem : placed.table ∈ root.subtree
  first : path ++ [root.info.aliasName] <+: placed.path
  last : placed.path.getLast? = some placed.table.info.aliasName
  way : ∀ aliasName ∈ placed.path, aliasName ∈ path ∨
    ∃ table ∈ root.subtree, table.info.aliasName = aliasName

theorem leads_of_mem_joined {root : Table Node} :
    ∀ {path : List String} {placed : Placed}, placed ∈ root.joined path →
      root.Leads path placed := by
  induction root using Table.induction with
  | step root ih =>
      intro path placed h
      rcases mem_joined.mp h with rfl | ⟨child, hchild, -, hplaced⟩
      · refine ⟨root.mem_subtree_self, List.prefix_refl _, by simp, ?_⟩
        intro aliasName hmem
        rcases List.mem_append.mp hmem with hpath | hown
        · exact Or.inl hpath
        · exact Or.inr ⟨root, root.mem_subtree_self, (List.mem_singleton.mp hown).symm⟩
      · have hleads := ih child hchild hplaced
        have hsub : ∀ inner ∈ child.subtree, inner ∈ root.subtree := by
          intro inner hinner
          rw [subtree_eq root]
          exact List.mem_cons_of_mem _ ((subtree_sublist_of_mem_tables hchild).subset hinner)
        refine ⟨hsub _ hleads.mem, (List.prefix_append _ _).trans hleads.first, hleads.last, ?_⟩
        intro aliasName hmem
        rcases hleads.way aliasName hmem with hpath | ⟨inner, hinner, heq⟩
        · rcases List.mem_append.mp hpath with hbefore | hown
          · exact Or.inl hbefore
          · exact Or.inr ⟨root, root.mem_subtree_self, (List.mem_singleton.mp hown).symm⟩
        · exact Or.inr ⟨inner, hsub inner hinner, heq⟩

/-- The path to a table but for its start determines it. -/
theorem path_eq_of_drop_eq {root : Table Node} {first second : Placed}
    (hfirst : root.Leads [] first) (hsecond : root.Leads [] second)
    (heq : first.path.drop 1 = second.path.drop 1) : first.path = second.path := by
  obtain ⟨way, hway⟩ := hfirst.first
  obtain ⟨other, hother⟩ := hsecond.first
  rw [← hway, ← hother] at heq ⊢
  simp only [List.nil_append, List.singleton_append, List.drop_succ_cons, List.drop_zero] at heq ⊢
  rw [heq]

theorem eq_of_path_eq {root : Table Node} (hnodup : (tableAliases root.subtree).Nodup)
    {first second : Placed} (hfirst : root.Leads [] first) (hsecond : root.Leads [] second)
    (heq : first.path = second.path) : first = second := by
  have halias : first.table.info.aliasName = second.table.info.aliasName := by
    rw [← Option.some.injEq, ← hfirst.last, ← hsecond.last, heq]
  have htable : first.table = second.table := by
    by_contra hne
    have hdisjoint := (List.nodup_flatMap.mp hnodup).2
    have hsymm : Std.Symm (Function.onFun List.Disjoint fun table : Table Node =>
        table.info.tableAliases) := ⟨fun _ _ h _ hleft hright => h hright hleft⟩
    have hown : first.table.info.aliasName ∈ second.table.info.tableAliases := by
      simp [TableInfo.tableAliases, halias]
    exact hdisjoint.forall hfirst.mem hsecond.mem hne List.mem_cons_self hown
  cases first
  cases second
  cases heq
  cases htable
  rfl

end Table

/-! ### Meanings -/

/-- A statement in which every output alias stands for one expression. -/
def OneMeaning (select : Select) : Prop :=
  ∀ first ∈ select.list.columns, ∀ second ∈ select.list.columns,
    first.1 = second.1 → first.2 = second.2

/-- A statement in which columns of two tables never have one output alias.  The columns of
a junction are those of the table behind it. -/
def Table.FetchesApart (ctx : StatementContext) (table : Table Node) : Prop :=
  ∀ placed ∈ table.joined [], ∀ column ∈ placed.table.fetched ctx,
    ∀ other ∈ table.joined [], ∀ otherColumn ∈ other.table.fetched ctx,
      outputAlias placed.path column.1 = outputAlias other.path otherColumn.1 →
        placed = other ∧ column.1 = otherColumn.1

/-- A table that fetches one expression under each alias of a column, be it its own column
or one of its junction. -/
def Table.Consistent (ctx : StatementContext) (table : Table Node) : Prop :=
  ∀ first ∈ table.fetched ctx, ∀ second ∈ table.fetched ctx, first.1 = second.1 →
    first.2.render ctx.dialect = second.2.render ctx.dialect

/-- Aliases that can be read back from the output aliases of a table's columns. -/
structure Placed.Clear (ctx : StatementContext) (placed : Placed) : Prop where
  way : ∀ aliasName ∈ placed.path.drop 1, ClearTable aliasName
  columns : ∀ column ∈ placed.table.fetched ctx, ClearColumn column.1

theorem Node.mem_words_of_mem_fetched {ctx : StatementContext} {parent : String} {node : Node}
    {column : String × Expression} (h : column ∈ node.fetched ctx parent) :
    column.1 ∈ node.words := by
  cases node with
  | table child =>
      rw [mem_words_table]
      cases hkeys : child.info.batchKeys? with
      | none => simp [fetched, hkeys] at h
      | some keys =>
          simp only [fetched, hkeys, List.mem_singleton] at h
          simp [TableInfo.words, hkeys, h]
  | dependencies columns owner =>
      obtain ⟨entry, hentry, rfl⟩ := List.mem_map.mp h
      rw [words_of_leaf rfl]
      exact List.mem_map_of_mem hentry
  | column | composite | expression | nothing =>
      rw [words_of_leaf rfl]
      simp_all [fetched, leafAliases]

theorem Table.words_subset {root table : Table Node} (htable : table ∈ root.subtree) :
    (Node.table table).words ⊆ (Node.table root).words := by
  have hsub := (subtree_sublist table htable).subset
  intro word hword
  obtain ⟨inner, hinner, hmem⟩ := List.mem_flatMap.mp hword
  exact List.mem_flatMap.mpr ⟨inner, hsub hinner, hmem⟩

/-- Minified aliases can always be read back. -/
theorem Placed.clear_of_unmarked {root : Table Node} {ctx : StatementContext}
    (hwords : ∀ word ∈ (Node.table root).words, Unmarked word) {placed : Placed}
    (hleads : root.Leads [] placed) : placed.Clear ctx := by
  have hsubset := Table.words_subset hleads.mem
  constructor
  · intro aliasName hmem
    rcases hleads.way aliasName (List.mem_of_mem_drop hmem) with hnil | ⟨table, htable, rfl⟩
    · simp at hnil
    · apply ClearTable.of_underscore_notMem
      apply hwords
      exact Table.words_subset htable
        (Node.mem_words_table.mpr (Or.inl (by simp [TableInfo.words])))
  · intro column hcolumn
    obtain ⟨node, hnode, hfetched⟩ := List.mem_flatMap.mp hcolumn
    apply ClearColumn.of_underscore_notMem
    apply hwords
    apply hsubset
    apply Node.mem_words_table.mpr
    exact Or.inr (List.mem_flatMap.mpr
      ⟨node, Table.mem_statementChildren.mp hnode, Node.mem_words_of_mem_fetched hfetched⟩)

theorem Table.fetchesApart_of_clear {ctx : StatementContext} {table : Table Node}
    (hnodup : (tableAliases table.subtree).Nodup)
    (hclear : ∀ placed ∈ table.joined [], placed.Clear ctx) : table.FetchesApart ctx := by
  intro placed hplaced column hcolumn other hother otherColumn hotherColumn halias
  have hleads := leads_of_mem_joined hplaced
  have hotherLeads := leads_of_mem_joined hother
  obtain ⟨hway, hcolumnAlias⟩ := outputAlias_injective (hclear placed hplaced).way
    (hclear other hother).way ((hclear placed hplaced).columns column hcolumn)
    ((hclear other hother).columns otherColumn hotherColumn) halias
  exact ⟨eq_of_path_eq hnodup hleads hotherLeads (path_eq_of_drop_eq hleads hotherLeads hway),
    hcolumnAlias⟩

theorem Table.consistent_of_oneMeaning {ctx : StatementContext} {table : Table Node}
    {select : Select} (h : table.statement ctx = .ok (some select)) (hone : OneMeaning select)
    {placed : Placed} (hplaced : placed ∈ table.joined []) : placed.table.Consistent ctx := by
  intro first hfirst second hsecond halias
  obtain ⟨kept, hkept, hkeptAlias, hkeptText⟩ :=
    exists_mem_statement_columns h hplaced (List.mem_map_of_mem hfirst)
  obtain ⟨other, hother, hotherAlias, hotherText⟩ :=
    exists_mem_statement_columns h hplaced (List.mem_map_of_mem hsecond)
  have hkeptOther : kept.1 = other.1 := by
    rw [hkeptAlias, hotherAlias]
    exact congrArg (outputAlias placed.path) halias
  have hsame : kept = other := Prod.ext hkeptOther (hone kept hkept other hother hkeptOther)
  have htext : renderItem ctx.dialect (placeColumn placed.path first) =
      renderItem ctx.dialect (placeColumn placed.path second) := by
    rw [← hkeptText, ← hotherText, hsame]
  have hrender := render_eq_of_renderItem_eq htext
  exact hrender

theorem Table.oneMeaning_of_consistent {ctx : StatementContext} {table : Table Node}
    {select : Select} (h : table.statement ctx = .ok (some select))
    (hapart : table.FetchesApart ctx)
    (hconsistent : ∀ placed ∈ table.joined [], placed.table.Consistent ctx) :
    OneMeaning select := by
  intro first hfirst second hsecond halias
  obtain ⟨placed, hplaced, hitem⟩ := mem_statement_columns h hfirst
  obtain ⟨other, hother, hotherItem⟩ := mem_statement_columns h hsecond
  obtain ⟨column, hcolumn, rfl⟩ := List.mem_map.mp hitem
  obtain ⟨otherColumn, hotherColumn, rfl⟩ := List.mem_map.mp hotherItem
  obtain ⟨rfl, hcolumnAlias⟩ :=
    hapart placed hplaced column hcolumn other hother otherColumn hotherColumn halias
  have hmeaning := hconsistent placed hplaced column hcolumn otherColumn hotherColumn hcolumnAlias
  have htext : renderItem ctx.dialect (placeColumn placed.path column) =
      renderItem ctx.dialect (placeColumn placed.path otherColumn) := by
    rw [renderItem, renderItem, halias]
    exact congrArg (fun text => text ++ " AS " ++ _) hmeaning
  exact congrArg Prod.snd (columns_injOn_text h hfirst hsecond htext)

/-- In a statement of a plan, whether minified or with aliases that can be read back, no two
tables have an output alias in common, and every output alias has one meaning, unless some
table fetches two expressions under one alias. -/
theorem Table.columns_one_meaning {env : Environment} {minify : Bool} {root : Table Node}
    (hroot : Compiled env minify root) {table : Table Node} (htable : table ∈ root.subtree)
    {ctx : StatementContext} {select : Select} (h : table.statement ctx = .ok (some select))
    (hclear : minify = false → ∀ placed ∈ table.joined [], placed.Clear ctx) :
    table.FetchesApart ctx ∧
      (OneMeaning select ↔ ∀ placed ∈ table.joined [], placed.table.Consistent ctx) := by
  have hsub := subtree_sublist table htable
  have hnodup : (tableAliases table.subtree).Nodup :=
    hroot.tableAliases_nodup.sublist (hsub.flatMap _)
  have hlegible : ∀ placed ∈ table.joined [], placed.Clear ctx := by
    intro placed hplaced
    cases minify with
    | false => exact hclear rfl placed hplaced
    | true =>
        have hwords : ∀ word ∈ (Node.table table).words, Unmarked word :=
          fun word hword => hroot.unmarked word (words_subset htable hword)
        exact Placed.clear_of_unmarked hwords (leads_of_mem_joined hplaced)
  have hapart := fetchesApart_of_clear hnodup hlegible
  exact ⟨hapart, fun hone _ => consistent_of_oneMeaning h hone, oneMeaning_of_consistent h hapart⟩

/-! ### Clashes -/

/-- An object type backed by a table, whose rows are told apart by `id`. -/
def tableType (sqlTable : String) (fields : List (String × FieldDefinition)) :
    TypeDefinition where
  kind := .object
  fields := fields
  interfaces := []
  possibleTypes := []
  table := some ⟨.literal sqlTable, .one "id", none⟩

def plainField (type : TypeRef) : FieldDefinition := ⟨type, FieldOptions.empty⟩

/-- The field `id` of a user is kept in a column of another name, and a column of
users is called as an output alias of their posts. -/
def clashingSchema : Schema where
  types :=
    [("Q", { tableType "q" [("u", plainField (.named "U"))] with table := none }),
     ("U", tableType "users"
      [("id", ⟨.named "ID", { FieldOptions.empty with sqlColumn := some "ident" }⟩),
       ("p__id", plainField (.named "ID")),
       ("p", ⟨.list (.named "P"), { FieldOptions.empty with
          sqlJoin := some (.template "\x7bparent\x7d.id = \x7bchild\x7d.author") }⟩)]),
     ("P", tableType "posts" [("id", plainField (.named "ID"))])]

def clashingEnvironment : Environment := ⟨clashingSchema, .null⟩

def userRequest (selections : List Selection) : Request where
  parentType := "Q"
  fields := [⟨"u", [], selections⟩]
  fragments := []

def postgresContext : StatementContext := ⟨.null, .postgres, []⟩

/-- The plan of a user with some nodes after the key. -/
def userPlan (nodes : List Node) : Table Node where
  info := { plainInfo "u" "u" false none with typeName := "U", reference := "users" }
  shared := .column (ownedColumn "id") :: nodes
  typed := []

/-- The posts of a user. -/
def userPosts : Node :=
  .table {
    info := { plainInfo "p" "p" true
        (some (.join (.template "\x7bparent\x7d.id = \x7bchild\x7d.author"))) with
      typeName := "P", reference := "posts" }
    shared := [.column (ownedColumn "id"), .column (ownedColumn "id")]
    typed := [] }

theorem compile_userPosts :
    compile clashingEnvironment false (userRequest [.field "p" [] [.field "id" [] []]]) =
      .ok (userPlan [userPosts]) := by
  cbv

theorem compile_clash :
    compile clashingEnvironment false
        (userRequest [.field "p__id" [] [], .field "p" [] [.field "id" [] []]]) =
      .ok (userPlan [.column (ownedColumn "p__id"), userPosts]) := by
  cbv

theorem statement_clash :
    ∃ select, (userPlan [.column (ownedColumn "p__id"), userPosts]).statement postgresContext =
        .ok (some select) ∧
      select.list.columns =
        [("id", .column "u" "id"), ("p__id", .column "u" "p__id"), ("p__id", .column "p" "id")] :=
  ⟨_, rfl, rfl⟩

/-- A user with the posts alone: the tables share no output alias, and each has one meaning. -/
theorem columns_one_meaning_userPosts :
    Compiled clashingEnvironment false (userPlan [userPosts]) ∧
      (∀ placed ∈ (userPlan [userPosts]).joined [], placed.Clear postgresContext) ∧
      ∃ select, (userPlan [userPosts]).statement postgresContext = .ok (some select) ∧
        (userPlan [userPosts]).FetchesApart postgresContext ∧ OneMeaning select := by
  have hcompiled : Compiled clashingEnvironment false (userPlan [userPosts]) :=
    .request compile_userPosts
  have hclear : ∀ placed ∈ (userPlan [userPosts]).joined [], placed.Clear postgresContext := by
    intro placed hplaced
    constructor
    · revert placed
      decide
    · revert placed
      decide
  obtain ⟨hapart, hiff⟩ :=
    Table.columns_one_meaning hcompiled (Table.mem_subtree_self _) rfl fun _ => hclear
  refine ⟨hcompiled, hclear, _, rfl, hapart, hiff.mpr ?_⟩
  unfold Table.Consistent
  decide

/-- The key and the field of one table clash however aliases are spelled; and with
readable aliases a column of a user clashes with one of the posts, although neither
table is at odds with itself. -/
theorem exists_two_meanings :
    (∀ minify, ∃ root select,
      compile clashingEnvironment minify (userRequest [.field "id" [] []]) = .ok root ∧
        root.statement postgresContext = .ok (some select) ∧ ¬ OneMeaning select) ∧
    ∃ root select, compile clashingEnvironment false
        (userRequest [.field "p__id" [] [], .field "p" [] [.field "id" [] []]]) = .ok root ∧
      (∀ placed ∈ root.joined [], placed.table.Consistent postgresContext) ∧
      root.statement postgresContext = .ok (some select) ∧ ¬ OneMeaning select := by
  constructor
  · intro minify
    cases minify with
    | false =>
        refine ⟨_, _, rfl, rfl, fun h => ?_⟩
        have hsame := h ("id", .column "u" "id") List.mem_cons_self
          ("id", .column "u" "ident") (List.mem_cons_of_mem _ List.mem_cons_self) rfl
        simp at hsame
    | true =>
        refine ⟨_, _, rfl, rfl, fun h => ?_⟩
        have hsame := h ("b", .column "a" "id") List.mem_cons_self
          ("b", .column "a" "ident") (List.mem_cons_of_mem _ List.mem_cons_self) rfl
        simp at hsame
  · obtain ⟨select, hselect, hcolumns⟩ := statement_clash
    refine ⟨_, select, compile_clash, ?_, hselect, fun h => ?_⟩
    · unfold Table.Consistent
      decide
    · rw [OneMeaning, hcolumns] at h
      have hsame := h ("p__id", .column "u" "p__id") (by simp)
        ("p__id", .column "p" "id") (by simp) rfl
      simp at hsame

end JoinPlan.Plan
