import JoinPlan.Proofs.AliasHistory
import JoinPlan.Proofs.Plan.AskedNames
import JoinPlan.Proofs.Plan.OneMeaning

/-!
# Minified output aliases can be read back

A minified alias holds no underscore, so an output alias put together from some of them is cut
into the aliases of the tables on the way and that of the column in one way only.  As no two
names of columns share a minified alias, columns of a statement that share an output alias stand
below one path and were asked for by one name.
-/

namespace JoinPlan.Plan

open Namespace Sql

/-! ### Any answers -/

/-- Whether an output alias put together from the answers of a namespace tells the tables on the
way, but for the first, and the column. -/
def LegibleAnswers (answers : List Answer) : Prop :=
  ∀ first second, first ⊆ tablesAmong answers → second ⊆ tablesAmong answers →
    ∀ one ∈ answers, ∀ other ∈ answers, one.kind = .column → other.kind = .column →
      outputAlias first one.aliasName = outputAlias second other.aliasName →
        first.drop 1 = second.drop 1 ∧ one.aliasName = other.aliasName ∧ one.name = other.name

theorem clearTable_of_subset_tablesAmong {answers : List Answer} (h : MinifiedHistory answers)
    {path : List String} (hpath : path ⊆ tablesAmong answers) :
    ∀ aliasName ∈ path.drop 1, ClearTable aliasName := by
  intro aliasName hmem
  obtain ⟨answer, hanswer, -, rfl⟩ := mem_tablesAmong.mp (hpath (List.mem_of_mem_drop hmem))
  exact .of_underscore_notMem (h.underscore_notMem hanswer)

theorem legible_of_minifiedHistory {answers : List Answer} (h : MinifiedHistory answers) :
    LegibleAnswers answers := by
  intro first second hfirst hsecond one hone other hother honeKind hotherKind heq
  obtain ⟨hway, halias⟩ := outputAlias_injective (clearTable_of_subset_tablesAmong h hfirst)
    (clearTable_of_subset_tablesAmong h hsecond) (.of_underscore_notMem (h.underscore_notMem hone))
    (.of_underscore_notMem (h.underscore_notMem hother)) heq
  exact ⟨hway, halias, (h.columns one hone other hother honeKind hotherKind).mp halias⟩

/-! ### The columns of a statement -/

/-- Whether a table of a statement fetches an item as a column that was asked for by a name. -/
def Placed.Fetches (ctx : StatementContext) (placed : Placed) (name : String)
    (item : String × Expression) : Prop :=
  ∃ child ∈ placed.table.tagged, ∃ column ∈ child.2.fetched ctx placed.table.info.aliasName,
    (name, column.1) ∈ child.2.asked child.1 ∧ item = placeColumn placed.path column

/-- Every column a child fetches was asked for by some name. -/
theorem Node.exists_asked {ctx : StatementContext} {parent : String} {node : Node}
    {column : String × Expression} (h : column ∈ node.fetched ctx parent)
    (bucket : Option String) : ∃ name, (name, column.1) ∈ node.asked bucket := by
  cases node with
  | table child =>
      cases hkeys : child.info.batchKeys? with
      | none => simp [fetched, hkeys] at h
      | some keys =>
          simp only [fetched, hkeys, List.mem_singleton] at h
          exact ⟨keys.2.fieldName, by simp [asked, columnEntries, hkeys, h]⟩
  | dependencies columns owner =>
      obtain ⟨entry, hentry, rfl⟩ := List.mem_map.mp h
      exact ⟨entry.1, hentry⟩
  | column | composite | expression =>
      obtain rfl := List.mem_singleton.mp h
      exact ⟨_, List.mem_singleton_self _⟩
  | nothing => simp [fetched] at h

theorem Placed.exists_fetches {ctx : StatementContext} {placed : Placed}
    {item : String × Expression} (h : item ∈ placed.items ctx) :
    ∃ name, placed.Fetches ctx name item := by
  obtain ⟨node, hnode, hitem⟩ := Placed.mem_items.mp h
  obtain ⟨column, hcolumn, rfl⟩ := List.mem_map.mp hitem
  obtain ⟨bucket, hchild⟩ := Table.mem_children_iff.mp (Table.mem_statementChildren.mp hnode)
  obtain ⟨name, hname⟩ := Node.exists_asked hcolumn bucket
  exact ⟨name, _, hchild, column, hcolumn, hname, rfl⟩

theorem Placed.Fetches.gives {names : Namespace} {ctx : StatementContext} {placed : Placed}
    {name : String} {item : String × Expression} (h : placed.Fetches ctx name item)
    (hasked : placed.table.Asked names) :
    names.Knows name ∧ item.1 = outputAlias placed.path (names.column name).1 := by
  obtain ⟨child, hchild, column, -, hname, rfl⟩ := h
  obtain ⟨hknown, halias⟩ := hasked child hchild _ hname
  exact ⟨hknown, congrArg (outputAlias placed.path) halias.symm⟩

/-- A statement whose output aliases tell, by the names that a namespace noted, where a column
stands and what was asked for. -/
structure Table.Legible (names : Namespace) (ctx : StatementContext) (table : Table Node)
    (select : Select) : Prop where
  /-- Every item is a column of a table of the statement. -/
  fetched : ∀ item ∈ select.list.columns,
    ∃ placed ∈ table.joined [], ∃ name, placed.Fetches ctx name item
  /-- A column has the alias noted for its name, behind the aliases on the way to its table. -/
  noted : ∀ placed ∈ table.joined [], ∀ name item, placed.Fetches ctx name item →
    ∃ aliasName, Assoc.get? name names.columns = some aliasName ∧
      item.1 = outputAlias placed.path aliasName
  /-- The output alias tells the path and the name. -/
  apart : ∀ placed ∈ table.joined [], ∀ other ∈ table.joined [], ∀ name otherName item otherItem,
    placed.Fetches ctx name item → other.Fetches ctx otherName otherItem →
      (item.1 = otherItem.1 ↔ placed.path = other.path ∧ name = otherName)

section Statement

variable {env : Environment} {root table : Table Node} {names : Namespace}
  {ctx : StatementContext} {placed other : Placed}

theorem Table.asked_of_mem_joined (hroot : Compiles env true root names)
    (htable : table ∈ root.subtree) (hplaced : placed ∈ table.joined []) :
    placed.table.Asked names := by
  have hinner := (leads_of_mem_joined hplaced).mem
  exact hroot.asked.2 _ ((subtree_sublist table htable).subset hinner)

theorem Table.clear_of_mem_joined (hroot : Compiles env true root names)
    (htable : table ∈ root.subtree) (hplaced : placed ∈ table.joined []) : placed.Clear ctx := by
  have hwords : ∀ word ∈ (Node.table table).words, Unmarked word :=
    fun word hword => hroot.compiled.unmarked word (words_subset htable hword)
  exact Placed.clear_of_unmarked hwords (leads_of_mem_joined hplaced)

/-- Columns of a statement share an output alias exactly if their tables stand at one path and
they were asked for by one name. -/
theorem Placed.Fetches.outputAlias_eq_iff (hroot : Compiles env true root names)
    (htable : table ∈ root.subtree) (hplaced : placed ∈ table.joined [])
    (hother : other ∈ table.joined []) {name otherName : String}
    {item otherItem : String × Expression} (hitem : placed.Fetches ctx name item)
    (hotherItem : other.Fetches ctx otherName otherItem) :
    item.1 = otherItem.1 ↔ placed.path = other.path ∧ name = otherName := by
  have hclear : placed.Clear ctx := Table.clear_of_mem_joined hroot htable hplaced
  have hotherClear : other.Clear ctx := Table.clear_of_mem_joined hroot htable hother
  obtain ⟨hknown, halias⟩ := hitem.gives (Table.asked_of_mem_joined hroot htable hplaced)
  obtain ⟨hotherKnown, hotherAlias⟩ :=
    hotherItem.gives (Table.asked_of_mem_joined hroot htable hother)
  rw [halias, hotherAlias]
  constructor
  · intro heq
    obtain ⟨hway, hcolumn⟩ := outputAlias_injective hclear.way hotherClear.way
      (.of_underscore_notMem (hroot.tidy.underscore_notMem_column hroot.minify_eq hknown))
      (.of_underscore_notMem (hroot.tidy.underscore_notMem_column hroot.minify_eq hotherKnown))
      heq
    -- all paths of a statement start with the alias of its own table
    have hpath := Table.path_eq_of_drop_eq (Table.leads_of_mem_joined hplaced)
      (Table.leads_of_mem_joined hother) hway
    exact ⟨hpath, hroot.tidy.column_injective hknown hotherKnown hcolumn⟩
  · rintro ⟨hpath, rfl⟩
    rw [hpath]

theorem Table.legible (hroot : Compiles env true root names) (htable : table ∈ root.subtree)
    {select : Select} (h : table.statement ctx = .ok (some select)) :
    table.Legible names ctx select where
  fetched item hitem := by
    obtain ⟨placed, hplaced, hmem⟩ := mem_statement_columns h hitem
    exact ⟨placed, hplaced, Placed.exists_fetches hmem⟩
  noted placed hplaced name item hitem := by
    obtain ⟨hknown, halias⟩ := hitem.gives (asked_of_mem_joined hroot htable hplaced)
    obtain ⟨aliasName, hnoted⟩ := exists_of_knows hroot.minify_eq hknown
    rw [column_of_known hroot.minify_eq hnoted] at halias
    exact ⟨aliasName, hnoted, halias⟩
  apart placed hplaced other hother name otherName item otherItem hitem hotherItem :=
    hitem.outputAlias_eq_iff hroot htable hplaced hother hotherItem

end Statement

/-- Whatever was asked of a minified namespace, an output alias put together from its answers
tells the tables on the way, but for the first, and the column; and in every statement of a
minified plan the columns share an output alias exactly if they stand below one path and were
asked for by one name. -/
theorem minified_outputAliases_legible :
    (∀ calls, LegibleAnswers ((fresh true).answers calls)) ∧
    ∀ env root names, Compiles env true root names → ∀ table ∈ root.subtree, ∀ ctx select,
      table.statement ctx = .ok (some select) → table.Legible names ctx select := by
  constructor
  · exact fun calls => legible_of_minifiedHistory (minifiedHistory_answers calls)
  · exact fun env root names hroot table htable ctx select h => Table.legible hroot htable h

/-- A user with a column called as an output alias of the posts is, and the posts. -/
def clashingRequest : Request :=
  userRequest [.field "p__id" [] [], .field "p" [] [.field "id" [] []]]

/-- What a minified namespace answers while the request is compiled. -/
def clashingAnswers : List Answer :=
  (fresh true).answers
    [(.table, "u"), (.column, "id"), (.column, "p__id"), (.table, "p"), (.column, "id")]

def minifiedUser : Table Node where
  info := { plainInfo "u" "a" false none with typeName := "U", reference := "users" }
  shared :=
    [.column ⟨"id", "id", "b", none⟩, .column ⟨"p__id", "p__id", "c", none⟩,
     .table {
      info := { plainInfo "p" "d" true
          (some (.join (.template "\x7bparent\x7d.id = \x7bchild\x7d.author"))) with
        typeName := "P", reference := "posts" }
      shared := [.column ⟨"id", "id", "b", none⟩, .column ⟨"id", "id", "b", none⟩]
      typed := [] }]
  typed := []

def minifiedNames : Namespace where
  minify := true
  issued := 4
  usedTables := []
  columns := [("p__id", "c"), ("id", "b")]

theorem compiles_minifiedUser :
    Compiles clashingEnvironment true minifiedUser minifiedNames := by
  have hrun : compileWith clashingEnvironment clashingRequest (fresh true) =
      .ok (minifiedUser, minifiedNames) := by
    cbv
  exact .request hrun

/-- The plain output aliases of a user and the posts clash; the minified ones are told apart,
although the two keys have one alias. -/
theorem legible_minifiedUser :
    ((["a", "d"] ⊆ tablesAmong clashingAnswers ∧ ["d", "d"] ⊆ tablesAmong clashingAnswers ∧
        ⟨.column, "id", "b"⟩ ∈ clashingAnswers ∧
        outputAlias ["a", "d"] "b" = outputAlias ["d", "d"] "b") ∧
      ["a", "d"].drop 1 = ["d", "d"].drop 1) ∧
    Compiles clashingEnvironment true minifiedUser minifiedNames ∧
    ∃ select, minifiedUser.statement postgresContext = .ok (some select) ∧
      select.list.columns.map Prod.fst = ["b", "c", "d__b"] ∧
      minifiedUser.Legible minifiedNames postgresContext select := by
  obtain ⟨hanswers, hstatements⟩ := minified_outputAliases_legible
  have hcolumn : ⟨.column, "id", "b"⟩ ∈ clashingAnswers := by decide
  have hfirst : ["a", "d"] ⊆ tablesAmong clashingAnswers := by decide
  have hsecond : ["d", "d"] ⊆ tablesAmong clashingAnswers := by decide
  refine ⟨⟨⟨hfirst, hsecond, hcolumn, by decide⟩, ?_⟩, compiles_minifiedUser, _, rfl, by decide,
    ?_⟩
  · exact (hanswers _ _ _ hfirst hsecond _ hcolumn _ hcolumn rfl rfl (by decide)).1
  · exact hstatements _ _ _ compiles_minifiedUser _ (Table.mem_subtree_self _) _ _ rfl

end JoinPlan.Plan
