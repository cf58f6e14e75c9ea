import JoinPlan.Data.Connection
import JoinPlan.Proofs.Json.Basic
import JoinPlan.Proofs.Plan.Parts
import JoinPlan.Proofs.Plan.Scoping

/-!
# Connections of an accepted statement

The arguments of a page are read twice: when its statement is written, and when the rows
that came are made a connection.  What the first accepts the second accepts, whatever the
rows, so once the text of a statement is there no list fetched by it is refused.
-/

namespace JoinPlan.Plan

open Sql

/-! ### Actions that succeed -/

section Objects

variable {ε : Type} {change : Object → Except ε Object}

theorem exists_onItems_ok {items : List Json}
    (h : ∀ item ∈ items, ∃ changed, onObjectsM change item = .ok changed) :
    ∃ changed, onObjectsM.onItems change items = .ok changed := by
  induction items with
  | nil => exact ⟨[], rfl⟩
  | cons item rest ih =>
      rw [List.forall_mem_cons] at h
      rw [onObjectsM.onItems]
      exact exists_bind_ok h.1 fun first => exists_bind_ok (ih h.2) fun others => ⟨_, rfl⟩

theorem exists_onObjectsM_ok (h : ∀ object, ∃ changed, change object = .ok changed)
    (value : Json) : ∃ changed, onObjectsM change value = .ok changed := by
  induction value with
  | null | bool | number | string => exact ⟨_, rfl⟩
  | array items ih =>
      rw [onObjectsM]
      exact exists_bind_ok (exists_onItems_ok ih) fun changed => ⟨_, rfl⟩
  | object members _ =>
      rw [onObjectsM]
      exact exists_bind_ok (h members) fun changed => ⟨_, rfl⟩

theorem exists_onPropertyM_ok {name : String} {change : Json → Except ε Json}
    (h : ∀ value, ∃ changed, change value = .ok changed) (object : Object) :
    ∃ changed, onPropertyM name change object = .ok changed := by
  unfold onPropertyM
  split
  · exact ⟨_, rfl⟩
  · exact exists_bind_ok (h _) fun changed => ⟨_, rfl⟩

end Objects

/-! ### One table -/

/-- A table whose list, if it is paginated, becomes a connection whatever its rows are. -/
def TableInfo.Connects (info : TableInfo) : Prop :=
  info.paginate = true → ∀ data, ∃ connected, info.connection data = .ok connected

theorem exists_overOrdering_ok {args : PageArguments} {offset : Nat}
    (h : Paging.startAfter args.after = .ok offset) (rows : List Json) :
    ∃ connected, Connection.overOrdering args rows = .ok connected := by
  rw [Connection.overOrdering]
  exact exists_bind_ok ⟨offset, h⟩ fun start => ⟨_, rfl⟩

/-- A page that can be fetched can be made a connection. -/
theorem exists_connection_ok {info : TableInfo} {parameters : PageParameters}
    (h : pageParameters info = .ok parameters) (data : Json) :
    ∃ connected, info.connection data = .ok connected := by
  unfold pageParameters at h
  obtain ⟨arguments, hread, h⟩ := bind_eq_ok.mp h
  have hread := lift_request_eq_ok.mp hread
  cases hkey : info.effectiveSortKey? with
  | some terms =>
      rw [TableInfo.connection, hread, hkey]
      exact ⟨_, rfl⟩
  | none =>
      cases horder : info.effectiveOrderBy? with
      | some terms =>
          rw [hkey, horder] at h
          obtain ⟨limit, offset, hstart, -⟩ := overOrdering_eq_ok (lift_request_eq_ok.mp h)
          rw [TableInfo.connection, hread, hkey, horder]
          exact exists_overOrdering_ok hstart (rowsOf data)
      | none =>
          rw [hkey, horder] at h
          cases h

/-- The page of a table fetched by a statement was cut with arguments that its connection
accepts. -/
theorem IsPart.connects {ctx : StatementContext} {table : Table Node} {own : Contribution}
    (h : IsPart ctx table own) : table.info.Connects := by
  intro hpaginate data
  obtain ⟨hpages, -⟩ := h.pages
  generalize own.clauses.filterMap TableClause.subquery? = subqueries at hpages
  cases hpages with
  | whole hwhole => simp [isPaged, hpaginate] at hwhole
  | page hpaged hparameters horder => exact exists_connection_ok hparameters data

/-! ### A table with what is fetched below it -/

section Children

theorem exists_connectNodes_ok {nodes : List Node}
    (h : ∀ node ∈ nodes, ∀ object, ∃ connected, node.connect object = .ok connected)
    (object : Object) : ∃ connected, connectNodes nodes object = .ok connected := by
  induction nodes generalizing object with
  | nil => exact ⟨object, rfl⟩
  | cons node rest ih =>
      rw [List.forall_mem_cons] at h
      rw [connectNodes]
      exact exists_bind_ok (h.1 object) (ih h.2)

theorem exists_connectBuckets_ok {buckets : List (String × List Node)}
    (h : ∀ node ∈ buckets.flatMap Prod.snd, ∀ object, ∃ connected,
      node.connect object = .ok connected) (object : Object) :
    ∃ connected, connectBuckets buckets object = .ok connected := by
  induction buckets generalizing object with
  | nil => exact ⟨object, rfl⟩
  | cons bucket rest ih =>
      rw [List.flatMap_cons, List.forall_mem_append] at h
      rw [connectBuckets, connectBucket]
      exact exists_bind_ok (exists_connectNodes_ok h.1 object) (ih h.2)

theorem Table.exists_connectChildren_ok {table : Table Node}
    (h : ∀ child ∈ table.children, ∀ object, ∃ connected, child.connect object = .ok connected)
    (data : Json) : ∃ connected, table.connectChildren data = .ok connected := by
  obtain ⟨info, shared, typed⟩ := table
  have hchildren := List.forall_mem_append.mp h
  rw [connectChildren]
  exact exists_onObjectsM_ok (fun object => exists_bind_ok
    (exists_connectNodes_ok hchildren.1 object) (exists_connectBuckets_ok hchildren.2)) data

theorem TableInfo.Connects.exists_ok {info : TableInfo} (h : info.Connects) (data : Json) :
    ∃ connected, (if info.paginate then info.connection data else .ok data) = .ok connected := by
  split
  · exact h ‹_› data
  · exact ⟨data, rfl⟩

/-- The fields below a table are connected when the tables fetched with it connect. -/
theorem Node.exists_connect_ok (node : Node) :
    ∀ {path : List String}, (∀ placed ∈ node.joined path, placed.table.info.Connects) →
      ∀ object, ∃ connected, node.connect object = .ok connected := by
  induction node using Node.induction with
  | leaf node hleaf =>
      intro path _ object
      cases node with
      | table child => cases hleaf
      | column | dependencies | composite | expression | nothing => exact ⟨object, rfl⟩
  | table table ih =>
      intro path h object
      rw [connect]
      split
      · exact ⟨object, rfl⟩
      · rename_i hboundary
        rw [joined, if_neg hboundary, Table.joined_eq, List.forall_mem_cons] at h
        have hbelow : ∀ child ∈ table.children, ∀ object, ∃ connected,
            child.connect object = .ok connected := fun child hchild =>
          @ih child hchild (path ++ [table.info.aliasName]) fun placed hplaced =>
            h.2 placed (List.mem_flatMap.mpr
              ⟨child, Table.mem_statementChildren.mpr hchild, hplaced⟩)
        exact exists_onPropertyM_ok (fun value => exists_bind_ok
          (Table.exists_connectChildren_ok hbelow value) h.1.exists_ok) object

end Children

/-! ### Statements -/

section Statement

variable {root : Table Node} {ctx : StatementContext}

/-- The tables that a statement fetches connect once its text was written. -/
theorem connects_of_statementText {text : String} (h : root.statementText ctx = .ok text) :
    ∀ table ∈ root.joinedTables, table.info.Connects := by
  obtain ⟨select, hstatement, -⟩ := bind_eq_ok.mp h
  obtain ⟨parts, hparts, -⟩ := bind_eq_ok.mp hstatement
  obtain ⟨each, heach, -⟩ := Table.contribution_root_madeOf hparts
  have hconnects : List.Forall₂ (fun table own => table.info.Connects ∧ IsPart ctx table own)
      root.joinedTables each := heach.imp fun table own hown => ⟨hown.connects, hown⟩
  exact ((List.forall₂_and_left _ _).mp hconnects).1

theorem Table.mem_joinedTables_self (root : Table Node) : root ∈ root.joinedTables := by
  rw [joinedTables, joined_eq]
  exact List.mem_cons_self

theorem Table.connectChildren_of_joined (h : ∀ table ∈ root.joinedTables, table.info.Connects)
    (data : Json) : ∃ connected, root.connectChildren data = .ok connected := by
  have hjoined : ∀ placed ∈ root.joined [], placed.table.info.Connects := fun placed hplaced =>
    h placed.table (List.mem_map_of_mem hplaced)
  rw [joined_eq, List.forall_mem_cons] at hjoined
  refine exists_connectChildren_ok (fun child hchild =>
    @Node.exists_connect_ok child ([] ++ [root.info.aliasName]) fun placed hplaced => ?_) data
  exact hjoined.2 placed (List.mem_flatMap.mpr
    ⟨child, mem_statementChildren.mpr hchild, hplaced⟩)

theorem Table.connect_of_joined (h : ∀ table ∈ root.joinedTables, table.info.Connects)
    (data : Json) : ∃ connected, root.connect data = .ok connected :=
  exists_bind_ok (connectChildren_of_joined h data) (h root root.mem_joinedTables_self).exists_ok

/-- Building connections cannot fail once the text of a statement was written, for the root
of a plan or for a table and any keys of its batch, and whatever data came: neither below
the table of the statement, nor for the table itself, nor for any list fetched with it. -/
theorem connects_after_statement {text : String} (h : root.statementText ctx = .ok text)
    (data : Json) :
    (∃ connected, root.connectChildren data = .ok connected) ∧
      (∃ connected, root.connect data = .ok connected) ∧
      ∀ table ∈ root.joinedTables, table.info.paginate = true →
        ∃ connected, table.info.connection data = .ok connected := by
  have hconnects := connects_of_statementText h
  exact ⟨root.connectChildren_of_joined hconnects data, root.connect_of_joined hconnects data,
    fun table htable hpaginate => hconnects table htable hpaginate data⟩

/-- Tags paged below posts: a value that has no rows at all is made a connection too. -/
theorem connects_after_statement_postTags :
    ∃ text, (postsPlan postTags).statementText postgresContext = .ok text ∧
      (∃ connected, (postsPlan postTags).connectChildren (.bool true) = .ok connected) ∧
      (∃ connected, (postsPlan postTags).connect (.bool true) = .ok connected) ∧
      ∀ table ∈ (postsPlan postTags).joinedTables, table.info.paginate = true →
        ∃ connected, table.info.connection (.bool true) = .ok connected := by
  obtain ⟨text, htext⟩ :
      ∃ text, (postsPlan postTags).statementText postgresContext = .ok text := ⟨_, rfl⟩
  exact ⟨text, htext, connects_after_statement htext (.bool true)⟩

end Statement

end JoinPlan.Plan
