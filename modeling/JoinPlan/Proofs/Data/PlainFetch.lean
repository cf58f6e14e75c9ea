import JoinPlan.Proofs.Data.OwnRows
import JoinPlan.Proofs.Data.Records
import JoinPlan.Proofs.Data.Rounds

/-!
# Fetching plain tables

The data of a plain table with another one below it, whether the other table is joined to
it or fetched later: a record for every row, with the list of the records that belong to it.
-/

namespace JoinPlan

open Plan Sql

/-! ### Changes that leave objects alone -/

section Unchanged

variable {many : Bool} {objects : List Object}

theorem onObjects_ofObjects (change : Object → Object) (many : Bool) (objects : List Object) :
    onObjects change (Shape.ofObjects many objects) =
      Shape.ofObjects many (objects.map change) := by
  have hitems : onObjects.onItems change (objects.map .object) =
      (objects.map change).map .object := by
    induction objects with
    | nil => rfl
    | cons object rest ih =>
        rw [List.map_cons, onObjects.onItems, ih]
        rfl
  cases many with
  | true =>
      change Json.array (onObjects.onItems change (objects.map .object)) = _
      rw [hitems]
      rfl
  | false => cases objects <;> rfl

theorem onObjects_eq_self {change : Object → Object}
    (h : ∀ object ∈ objects, change object = object) :
    onObjects change (Shape.ofObjects many objects) = Shape.ofObjects many objects := by
  rw [onObjects_ofObjects, List.map_congr_left h, List.map_id']

theorem onObjectsM_eq_ok {ε : Type} {change : Object → Except ε Object}
    (h : ∀ object ∈ objects, change object = .ok object) :
    onObjectsM change (Shape.ofObjects many objects) = .ok (Shape.ofObjects many objects) := by
  have hitems : onObjectsM.onItems change (objects.map .object) = .ok (objects.map .object) := by
    induction objects with
    | nil => rfl
    | cons object rest ih =>
        rw [List.forall_mem_cons] at h
        rw [List.map_cons, onObjectsM.onItems, onObjectsM, h.1, ih h.2]
        rfl
  cases many with
  | true =>
      change onObjectsM change (.array (objects.map .object)) = _
      rw [onObjectsM, hitems]
      rfl
  | false =>
      cases objects with
      | nil => rfl
      | cons object rest =>
          change onObjectsM change (.object object) = _
          rw [onObjectsM, h object List.mem_cons_self]
          rfl

theorem Assoc.insert_eq_self {V : Type} {entries : List (String × V)}
    (h : Assoc.Increasing entries) {key : String} {value : V}
    (hvalue : Assoc.get? key entries = some value) : Assoc.insert key value entries = entries := by
  apply (Assoc.increasing_insert key value h).ext h
  intro other
  rw [Assoc.get?_insert]
  split
  · rename_i heq
    rw [← heq, hvalue]
  · rfl

theorem onProperty_eq_self {name : String} {change : Json → Json} {object : Object} {value : Json}
    (h : Assoc.Increasing object) (hvalue : Assoc.get? name object = some value)
    (hchange : change value = value) : onProperty name change object = object := by
  rw [onProperty, hvalue]
  change Assoc.insert name (change value) object = object
  rw [hchange, Assoc.insert_eq_self h hvalue]

theorem onPropertyM_eq_ok {ε : Type} {name : String} {change : Json → Except ε Json}
    {object : Object} {value : Json} (h : Assoc.Increasing object)
    (hvalue : Assoc.get? name object = some value) (hchange : change value = .ok value) :
    onPropertyM name change object = .ok object := by
  rw [onPropertyM, hvalue]
  change (change value >>= fun value => pure (Assoc.insert name value object)) = .ok object
  rw [hchange]
  exact congrArg Except.ok (Assoc.insert_eq_self h hvalue)

end Unchanged

namespace Plan

section Finishing

variable {info : TableInfo} {before after columns : List Column} {child : Table Node} {many : Bool}
  {objects : List Object}

theorem resolveNodes_append (first second : List Node) (object : Object) :
    resolveNodes (first ++ second) object = resolveNodes second (resolveNodes first object) := by
  induction first generalizing object with
  | nil => rfl
  | cons node rest ih => rw [List.cons_append, resolveNodes, resolveNodes, ih]

theorem resolveNodes_columns (columns : List Column) (object : Object) :
    resolveNodes (columnNodes columns) object = object := by
  induction columns generalizing object with
  | nil => rfl
  | cons column rest ih => exact ih object

theorem connectNodes_append {first second : List Node} {object between : Object}
    (h : connectNodes first object = .ok between) :
    connectNodes (first ++ second) object = connectNodes second between := by
  induction first generalizing object with
  | nil =>
      obtain rfl := Except.ok.inj h
      rfl
  | cons node rest ih =>
      rw [connectNodes] at h
      obtain ⟨changed, hchanged, hrest⟩ := bind_eq_ok.mp h
      rw [List.cons_append, connectNodes, hchanged]
      exact ih hrest

theorem connectNodes_columns (columns : List Column) (object : Object) :
    connectNodes (columnNodes columns) object = .ok object := by
  induction columns with
  | nil => rfl
  | cons column rest ih => exact ih

/-- The children of a table that are columns leave its objects as they are. -/
theorem resolveUnions_columnTable (info : TableInfo) (columns : List Column) (many : Bool)
    (objects : List Object) :
    (columnTable info columns).resolveUnions (Shape.ofObjects many objects) =
      Shape.ofObjects many objects := by
  rw [columnTable, Table.resolveUnions]
  exact onObjects_eq_self fun object _ => resolveNodes_columns columns object

theorem connectChildren_columnTable (info : TableInfo) (columns : List Column) (many : Bool)
    (objects : List Object) :
    (columnTable info columns).connectChildren (Shape.ofObjects many objects) =
      .ok (Shape.ofObjects many objects) := by
  rw [columnTable, Table.connectChildren]
  apply onObjectsM_eq_ok
  intro object _
  rw [connectNodes_columns]
  rfl

theorem resolveUnions_parentTable
    (h : ∀ object ∈ objects, (Node.table child).resolveUnions object = object) :
    (parentTable info before after child).resolveUnions (Shape.ofObjects many objects) =
      Shape.ofObjects many objects := by
  rw [parentTable, Table.resolveUnions]
  apply onObjects_eq_self
  intro object hobject
  change resolveNodes (columnNodes before ++ .table child :: columnNodes after) object = object
  rw [resolveNodes_append, resolveNodes_columns, resolveNodes, h object hobject,
    resolveNodes_columns]

theorem connectChildren_parentTable
    (h : ∀ object ∈ objects, (Node.table child).connect object = .ok object) :
    (parentTable info before after child).connectChildren (Shape.ofObjects many objects) =
      .ok (Shape.ofObjects many objects) := by
  rw [parentTable, Table.connectChildren]
  apply onObjectsM_eq_ok
  intro object hobject
  rw [connectNodes_append (connectNodes_columns before object), connectNodes, h object hobject]
  change (connectNodes (columnNodes after) object >>= _) = _
  rw [connectNodes_columns]
  rfl

/-- The data of a parent's rows is what they nest into, unless the child changes it. -/
theorem rootData_parentTable {rows : List Row} (hplain : info.IsPlain)
    (hnest : (parentTable info before after child).shape.nest rows =
      Shape.ofObjects many objects)
    (hresolve : ∀ object ∈ objects, (Node.table child).resolveUnions object = object)
    (hconnect : ∀ object ∈ objects, (Node.table child).connect object = .ok object) :
    (parentTable info before after child).rootData rows = .ok (Shape.ofObjects many objects) := by
  have hpaginate : (parentTable info before after child).info.paginate = false := hplain.paginate
  rw [Table.rootData, hnest, resolveUnions_parentTable hresolve, Table.connect,
    connectChildren_parentTable hconnect]
  change (if (parentTable info before after child).info.paginate then _ else _) = _
  rw [hpaginate, if_neg Bool.false_ne_true]

theorem resolveUnions_of_join {child : TableInfo} {object : Object} {others : List Object}
    (hobject : Assoc.Increasing object)
    (hvalue : Assoc.get? child.fieldName object = some (Shape.ofObjects true others)) :
    (Node.table (columnTable child columns)).resolveUnions object = object := by
  rw [Node.resolveUnions]
  split
  · rfl
  · exact onProperty_eq_self hobject hvalue (resolveUnions_columnTable child columns true others)

theorem connect_of_join {child : TableInfo} {object : Object} {others : List Object}
    (hplain : child.IsPlain) (hobject : Assoc.Increasing object)
    (hvalue : Assoc.get? child.fieldName object = some (Shape.ofObjects true others)) :
    (Node.table (columnTable child columns)).connect object = .ok object := by
  have hpaginate : (columnTable child columns).info.paginate = false := hplain.paginate
  rw [Node.connect]
  split
  · rfl
  · apply onPropertyM_eq_ok hobject hvalue
    rw [connectChildren_columnTable]
    change (if (columnTable child columns).info.paginate then _ else _) = _
    rw [hpaginate, if_neg Bool.false_ne_true]

theorem resolveUnions_of_boundary (hboundary : child.info.isBoundary = true) (object : Object) :
    (Node.table child).resolveUnions object = object := by
  rw [Node.resolveUnions, if_pos hboundary]
  rfl

theorem connect_of_boundary (hboundary : child.info.isBoundary = true) (object : Object) :
    (Node.table child).connect object = .ok object := by
  rw [Node.connect, if_pos hboundary]

end Finishing

/-! ### Rows -/

section Rows

variable {parent : String} {path : List String} {columns others : List Column} {row : Bindings}

theorem outputAlias_inj {path : List String} {first second : String} :
    outputAlias path first = outputAlias path second ↔ first = second :=
  String.append_right_inj _

/-- The item of a column is told by its text. -/
theorem columnItem_injective {dialect : Dialect} {first second : Column}
    (h : renderItem dialect (columnItem parent path none first.name first.aliasName) =
      renderItem dialect (columnItem parent path none second.name second.aliasName)) :
    columnItem parent path none first.name first.aliasName =
      columnItem parent path none second.name second.aliasName := by
  have htext : columnText dialect parent first.name = columnText dialect parent second.name :=
    render_eq_of_renderItem_eq h
  rw [columnText, columnText, String.append_right_inj] at htext
  exact Prod.ext (alias_eq_of_renderItem_eq h)
    (congrArg (Expression.column parent) (dialect.quote_injective htext))

theorem functional_columnItems (hcolumns : Agreeing columns)
    (haliases : ∀ first ∈ columns, ∀ second ∈ columns,
      first.aliasName = second.aliasName ↔ first.fieldName = second.fieldName) :
    Assoc.Functional (columnItems parent path columns) := by
  intro first hfirst second hsecond heq
  obtain ⟨column, hcolumn, rfl⟩ := List.mem_map.mp hfirst
  obtain ⟨other, hother, rfl⟩ := List.mem_map.mp hsecond
  have hname : column.fieldName = other.fieldName :=
    (haliases column hcolumn other hother).mp (outputAlias_inj.mp heq)
  exact congrArg (Expression.column parent) (hcolumns column hcolumn other hother hname)

/-- Every column is fetched under its alias, whatever repeats are left out. -/
theorem last?_distinctItems (hcolumns : Layered columns) (dialect : Dialect)
    (aliasName : String) :
    Assoc.last? aliasName (distinctItems dialect (columnItems parent path columns)) =
      Assoc.last? aliasName (columnItems parent path columns) := by
  obtain ⟨own, chosen, rfl, hown, hchosen⟩ := hcolumns.layers
  have haliases := hcolumns.aliases
  rw [columnItems_append]
  apply Assoc.last?_distinctBy_layers
  · rw [← columnItems_append]
    intro first hfirst second hsecond heq
    obtain ⟨column, -, rfl⟩ := List.mem_map.mp hfirst
    obtain ⟨other, -, rfl⟩ := List.mem_map.mp hsecond
    exact columnItem_injective heq
  · exact functional_columnItems hown fun first hfirst second hsecond =>
      haliases first (List.mem_append_left _ hfirst) second (List.mem_append_left _ hsecond)
  · exact functional_columnItems hchosen fun first hfirst second hsecond =>
      haliases first (List.mem_append_right _ hfirst) second (List.mem_append_right _ hsecond)

/-- Items under one alias. -/
def itemsUnder (aliasName : String) (items : List (String × Expression)) :
    List (String × Expression) :=
  items.filter fun item => item.1 = aliasName

theorem last?_itemsUnder (dialect : Dialect) (aliasName : String)
    (items : List (String × Expression)) :
    Assoc.last? aliasName (distinctItems dialect (itemsUnder aliasName items)) =
      Assoc.last? aliasName (distinctItems dialect items) := by
  rw [← Assoc.last?_filter aliasName (distinctItems dialect items), distinctItems, distinctItems,
    itemsUnder, Assoc.filter_distinctBy]
  intro first second heq
  rw [alias_eq_of_renderItem_eq heq]

/-- A fetched row has the columns of one of the rows it is made of, if all items under their
aliases are its own. -/
theorem carries_fetched (dialect : Dialect) {items : List (String × Expression)}
    (hcolumns : Layered columns)
    (hitems : ∀ column ∈ columns, itemsUnder (outputAlias path column.aliasName) items =
      itemsUnder (outputAlias path column.aliasName) (columnItems parent path columns)) :
    Carries path columns (row.fetched (distinctItems dialect items))
      ((Assoc.get? parent row).getD []) := by
  intro column hcolumn
  have hlast : Assoc.last? (outputAlias path column.aliasName) (distinctItems dialect items) =
      Assoc.last? (outputAlias path column.aliasName) (columnItems parent path columns) := by
    rw [← last?_itemsUnder, hitems column hcolumn, last?_itemsUnder, last?_distinctItems hcolumns]
  have hrecord := Assoc.last?_map_key (fun column : Column => outputAlias path column.aliasName)
    Column.fieldName (fun column => row.column parent column.name)
    (fun other hother => outputAlias_inj.trans (hcolumns.aliases other hother column hcolumn))
  obtain ⟨value, hvalue⟩ := Assoc.exists_last?_eq (List.mem_map.mpr ⟨column, hcolumn, rfl⟩ :
    (column.fieldName, row.column parent column.name) ∈ columns.map fun column =>
      (column.fieldName, row.column parent column.name))
  have hcells : (Assoc.last? (outputAlias path column.aliasName)
      (columnItems parent path columns)).map row.value = some value := by
    rw [← Assoc.last?_map, columnItems, List.map_map]
    exact hrecord.trans hvalue
  rw [cell_fetched, hlast, hcells, get?_record]
  exact hvalue

theorem isColumn_of_mem_columnItems {item : String × Expression}
    (h : item ∈ columnItems parent path columns) : IsColumn item.2 := by
  obtain ⟨column, -, rfl⟩ := List.mem_map.mp h
  exact ⟨_, _, rfl⟩

theorem isColumn_of_mem_distinctItems {dialect : Dialect} {items : List (String × Expression)}
    (h : ∀ item ∈ items, IsColumn item.2) :
    ∀ item ∈ distinctItems dialect items, IsColumn item.2 :=
  fun item hitem => h item (Assoc.mem_of_mem_distinctBy hitem)

theorem value?_inScope (database : Database) (ctx : StatementContext) (aliasName column : String)
    (row : Bindings) :
    (inScope ctx aliasName column).value? database row =
      some (isOneOf (row.column aliasName column) ctx.scope) := by
  have hvalues (scope : List Json) :
      Expression.values? database row (scope.map .value) = some scope := by
    induction scope with
    | nil => rfl
    | cons key rest ih =>
        rw [List.map_cons, Expression.values?, ih]
        rfl
  rw [inScope, Expression.value?, hvalues]
  rfl

end Rows

/-! ### Answers -/

section Answers

variable {executor : Executor} {database : Database} {dialect : Dialect} {context : Context}
  {table : Table Node} {select : Select} {rows : List Row}

/-- Whatever was sent before, the executor answers the statement of a table with the rows it
fetches. -/
def Evaluates (executor : Executor) (database : Database) (table : Table Node)
    (ctx : StatementContext) : Prop :=
  ∀ select rows, table.statement ctx = .ok (some select) → database.rows? select = some rows →
    ∀ sent, ∃ answer, executor (sent ++ [select.render ctx.dialect]) = .ok answer ∧
      Row.ofResult answer = .ok rows

/-- Answers the statements of a list with what they fetch. -/
def answering (database : Database) (dialect : Dialect) (selects : List Select) : Executor :=
  fun sent =>
    match selects.find? fun select => sent.getLast? == some (select.render dialect) with
    | some select => .ok (.array (((database.rows? select).getD []).map .object))
    | none => .error "not answered"

theorem ofResult_objects (rows : List Row) :
    Row.ofResult (.array (rows.map .object)) = .ok rows := by
  rw [Row.ofResult]
  induction rows with
  | nil => rfl
  | cons row rest ih =>
      rw [List.map_cons, List.mapM_cons, ih]
      rfl

/-- Statements with different texts are told apart, so each gets its own answer. -/
theorem evaluates_answering {selects : List Select} {ctx : StatementContext}
    (hnodup : (selects.map (Select.render ctx.dialect)).Nodup)
    (h : ∀ select, table.statement ctx = .ok (some select) → select ∈ selects) :
    Evaluates (answering database ctx.dialect selects) database table ctx := by
  intro select rows hstatement hrows sent
  have hfind : (selects.find? fun other => (sent ++ [select.render ctx.dialect]).getLast? ==
      some (other.render ctx.dialect)) = some select := by
    have hmem := h select hstatement
    clear h
    induction selects with
    | nil => cases hmem
    | cons first rest ih =>
        rw [List.map_cons, List.nodup_cons] at hnodup
        rcases List.mem_cons.mp hmem with rfl | hmem
        · simp
        · have hne : select.render ctx.dialect ≠ first.render ctx.dialect :=
            fun heq => hnodup.1 (heq ▸ List.mem_map_of_mem hmem)
          rw [List.find?_cons, ← ih hnodup.2 hmem]
          simp [beq_false_of_ne hne]
  refine ⟨.array (rows.map .object), ?_, ofResult_objects rows⟩
  rw [answering]
  simp only [hfind, hrows, Option.getD_some]

theorem statementText_eq {ctx : StatementContext}
    (h : table.statement ctx = .ok (some select)) :
    table.statementText ctx = .ok (select.render ctx.dialect) := by
  rw [Table.statementText, h]
  rfl

theorem render_ne_empty (dialect : Dialect) (select : Select) : select.render dialect ≠ "" := by
  cases select
  simp [Select.render]

theorem outcome_execute_statement {ctx : StatementContext}
    (hevaluates : Evaluates executor database table ctx)
    (hstatement : table.statement ctx = .ok (some select))
    (hrows : database.rows? select = some rows) (sent : List String) :
    (Session.execute executor (select.render ctx.dialect)).outcome sent =
      (.ok rows, sent ++ [select.render ctx.dialect]) := by
  obtain ⟨answer, hanswer, hresult⟩ := hevaluates select rows hstatement hrows sent
  rw [Session.outcome_execute, hanswer]
  simp only [hresult]

/-- Fetching a table is fetching its rows and then filling in the batches. -/
theorem outcome_fetch {root : Table Node} {data : Json}
    (hevaluates : Evaluates executor database root ⟨context, dialect, []⟩)
    (hstatement : root.statement ⟨context, dialect, []⟩ = .ok (some select))
    (hrows : database.rows? select = some rows) (hdata : root.rootData rows = .ok data)
    (sent : List String) :
    (root.fetch executor dialect context).outcome sent =
      (some <$> root.fillBatches executor dialect context data).outcome
        (sent ++ [select.render dialect]) := by
  have hexecute : (Session.execute executor (select.render dialect)).outcome sent =
      (.ok rows, sent ++ [select.render dialect]) :=
    outcome_execute_statement hevaluates hstatement hrows sent
  simp [Table.fetch, Session.outcome_bind, statementText_eq hstatement, Except.mapError,
    render_ne_empty, hexecute, hdata]

theorem fillLevels_eq_pure {level : List Located} {data : Json}
    (h : levelBoundaries data level = []) (height : Nat) :
    fillLevels executor dialect context height level data = pure data := by
  cases height with
  | zero => rfl
  | succ height => simp [fillLevels, h]

end Answers

/-! ### A table joined to another -/

section Joined

variable {executor : Executor} {database : Database} {dialect : Dialect} {context : Context}
  {info child : TableInfo} {key otherKey : Column} {before after rest others columns : List Column}
  {condition : JoinCondition}

theorem filterMap_columnNodes (columns : List Column) :
    (columnNodes columns).filterMap Node.table? = [] := by
  simp [columnNodes, Node.table?]

theorem tables_columnTable (info : TableInfo) (columns : List Column) :
    (columnTable info columns).tables = [] := by
  simp [Table.tables, Table.children, columnTable, filterMap_columnNodes]

theorem tables_parentTable (info : TableInfo) (before after : List Column) (child : Table Node) :
    (parentTable info before after child).tables = [child] := by
  simp [Table.tables, Table.children, parentTable, filterMap_columnNodes, Node.table?]

theorem boundaries_columnTable (info : TableInfo) (columns : List Column) (data : Json)
    (objects : List Json.Pointer) : (columnTable info columns).boundaries data objects = [] := by
  rw [Table.boundaries_eq, tables_columnTable, List.flatMap_nil, ite_self]

theorem itemsUnder_append (aliasName : String) (first second : List (String × Expression)) :
    itemsUnder aliasName (first ++ second) =
      itemsUnder aliasName first ++ itemsUnder aliasName second :=
  List.filter_append ..

theorem itemsUnder_eq_nil {aliasName parent : String} {path : List String}
    (h : ∀ column ∈ columns, outputAlias path column.aliasName ≠ aliasName) :
    itemsUnder aliasName (columnItems parent path columns) = [] := by
  apply List.filter_eq_nil_iff.mpr
  intro item hitem
  obtain ⟨column, hcolumn, rfl⟩ := List.mem_map.mp hitem
  exact fun heq => h column hcolumn (of_decide_eq_true heq)

/-- Among the items of two tables those of one table stand under its aliases. -/
theorem itemsUnder_joined
    (hclear : ∀ column ∈ before ++ after, ∀ other ∈ columns,
      outputAlias [info.aliasName] column.aliasName ≠
        outputAlias [info.aliasName, child.aliasName] other.aliasName) {column : Column}
    (hcolumn : column ∈ before ++ after) :
    itemsUnder (outputAlias [info.aliasName] column.aliasName)
        (columnItems info.aliasName [info.aliasName] before ++
          (columnItems child.aliasName [info.aliasName, child.aliasName] columns ++
            columnItems info.aliasName [info.aliasName] after)) =
      itemsUnder (outputAlias [info.aliasName] column.aliasName)
        (columnItems info.aliasName [info.aliasName] (before ++ after)) := by
  rw [itemsUnder_append, itemsUnder_append,
    itemsUnder_eq_nil fun other hother => (hclear column hcolumn other hother).symm,
    List.nil_append, ← itemsUnder_append, ← columnItems_append]

theorem itemsUnder_joined_other
    (hclear : ∀ column ∈ before ++ after, ∀ other ∈ columns,
      outputAlias [info.aliasName] column.aliasName ≠
        outputAlias [info.aliasName, child.aliasName] other.aliasName) {other : Column}
    (hother : other ∈ columns) :
    itemsUnder (outputAlias [info.aliasName, child.aliasName] other.aliasName)
        (columnItems info.aliasName [info.aliasName] before ++
          (columnItems child.aliasName [info.aliasName, child.aliasName] columns ++
            columnItems info.aliasName [info.aliasName] after)) =
      itemsUnder (outputAlias [info.aliasName, child.aliasName] other.aliasName)
        (columnItems child.aliasName [info.aliasName, child.aliasName] columns) := by
  rw [itemsUnder_append, itemsUnder_append,
    itemsUnder_eq_nil fun column hcolumn =>
      hclear column (List.mem_append_left _ hcolumn) other hother,
    itemsUnder_eq_nil fun column hcolumn =>
      hclear column (List.mem_append_right _ hcolumn) other hother,
    List.nil_append, List.append_nil]

/-- The text of the condition a table is joined on. -/
def joinedOn (dialect : Dialect) (context : Context) (info child : TableInfo)
    (condition : JoinCondition) : String :=
  condition.join (dialect.quote info.aliasName) (dialect.quote child.aliasName) child.args context

/-- The rows of the other table for which the condition is true. -/
def joinedRows (database : Database) (dialect : Dialect) (context : Context)
    (info child : TableInfo) (condition : JoinCondition) (row : Object) : List Object :=
  (database.table child.reference).filter fun other =>
    isTrue (database.raw (joinedOn dialect context info child condition)
      [(info.aliasName, row), (child.aliasName, other)])

/-- A plain table at the root and another one joined to it, with nothing that takes the
place of a key, of the list of the other table's rows or of one of its items. -/
structure JoinedTables (info child : TableInfo) (condition : JoinCondition) (key : Column)
    (rest after : List Column) (otherKey : Column) (others : List Column) : Prop where
  plain : info.IsPlain
  root : info.relation = none
  childPlain : child.IsPlain
  join : child.relation = some (.join condition)
  many : child.many = true
  aliases : info.aliasName ≠ child.aliasName
  columns : Identified key (key :: rest ++ after)
  childColumns : Identified otherKey (otherKey :: others)
  field : child.fieldName ≠ key.fieldName
  later : ∀ column ∈ after, column.fieldName ≠ child.fieldName
  clear : ∀ column ∈ key :: rest ++ after, ∀ other ∈ otherKey :: others,
    outputAlias [info.aliasName] column.aliasName ≠
      outputAlias [info.aliasName, child.aliasName] other.aliasName

theorem exists_rows_of_join
    (htables : JoinedTables info child condition key rest after otherKey others)
    (dialect : Dialect) (context : Context)
    (hkeyed : Keyed (database.table info.reference) key.name)
    (hkeyedOther : Keyed (database.table child.reference) otherKey.name) :
    ∃ select rows,
      (parentTable info (key :: rest) after (columnTable child (otherKey :: others))).statement
          ⟨context, dialect, []⟩ = .ok (some select) ∧
        database.rows? select = some rows ∧
        (parentTable info (key :: rest) after
            (columnTable child (otherKey :: others))).shape.nest rows =
          Shape.ofObjects info.many ((database.table info.reference).map fun row =>
            recordWith (key :: rest ++ after) child.fieldName (otherKey :: others)
              (joinedRows database dialect context info child condition row) row) := by
  have hkeys : child.batchKeys? = none := by simp [TableInfo.batchKeys?, htables.join]
  refine ⟨_, _, statement_parent_of_join htables.plain htables.root htables.childPlain htables.join
    htables.columns.owner htables.childColumns.owner (List.cons_ne_nil _ _),
    rows?_leftJoin (isColumn_of_mem_distinctItems ?_) (fun _ => rfl), ?_⟩
  · intro item hitem
    simp only [List.mem_append] at hitem
    rcases hitem with hbefore | hother | hafter
    · exact isColumn_of_mem_columnItems hbefore
    · exact isColumn_of_mem_columnItems hother
    · exact isColumn_of_mem_columnItems hafter
  rw [shape_parentTable_of_join hkeys htables.many, Shape.nest]
  apply nest_joined info.many htables.columns htables.childColumns htables.field htables.later _ _
    hkeyed
  · intro row _
    exact hkeyedOther.sublist List.filter_sublist
  · intro row _ other _
    have hcarries := @carries_fetched info.aliasName [info.aliasName] (key :: rest ++ after)
      [(info.aliasName, row), (child.aliasName, other)] dialect _ htables.columns.toLayered
      fun column hcolumn => itemsUnder_joined htables.clear hcolumn
    simpa [Assoc.get?] using hcarries
  · intro row _ other _
    have hcarries := @carries_fetched child.aliasName [info.aliasName, child.aliasName]
      (otherKey :: others) [(info.aliasName, row), (child.aliasName, other)] dialect _
      htables.childColumns.toLayered fun column hcolumn =>
        itemsUnder_joined_other htables.clear hcolumn
    simpa [Assoc.get?, htables.aliases] using hcarries

/-- The data of a table with another one joined to it. -/
theorem outcome_fetch_joined
    (htables : JoinedTables info child condition key rest after otherKey others)
    (hkeyed : Keyed (database.table info.reference) key.name)
    (hkeyedOther : Keyed (database.table child.reference) otherKey.name)
    (hevaluates : Evaluates executor database
      (parentTable info (key :: rest) after (columnTable child (otherKey :: others)))
      ⟨context, dialect, []⟩) (sent : List String) :
    ∃ statements,
      ((parentTable info (key :: rest) after
          (columnTable child (otherKey :: others))).fetch executor dialect context).outcome sent =
        (.ok (some (Shape.ofObjects info.many ((database.table info.reference).map fun row =>
          recordWith (key :: rest ++ after) child.fieldName (otherKey :: others)
            (joinedRows database dialect context info child condition row) row))),
          statements) := by
  obtain ⟨select, rows, hstatement, hrows, hnest⟩ :=
    exists_rows_of_join htables dialect context hkeyed hkeyedOther
  have hdata := rootData_parentTable htables.plain hnest
    (fun object hobject => by
      obtain ⟨row, -, rfl⟩ := List.mem_map.mp hobject
      exact resolveUnions_of_join (increasing_recordWith _ _ _ _ row)
        (get?_recordWith_self _ _ _ _ row))
    (fun object hobject => by
      obtain ⟨row, -, rfl⟩ := List.mem_map.mp hobject
      exact connect_of_join htables.childPlain (increasing_recordWith _ _ _ _ row)
        (get?_recordWith_self _ _ _ _ row))
  have hboundary : child.isBoundary = false := by
    simp [TableInfo.isBoundary, TableInfo.batchKeys?, htables.join]
  have hnone (data : Json) (objects : List Json.Pointer) : levelBoundaries data
      [⟨parentTable info (key :: rest) after (columnTable child (otherKey :: others)), objects⟩] =
        [] := by
    rw [levelBoundaries, List.flatMap_singleton, Table.boundaries_eq, tables_parentTable,
      List.flatMap_singleton, Node.boundaries]
    change (if _ then _ else if child.isBoundary then _ else _) = _
    rw [hboundary, if_neg Bool.false_ne_true, boundaries_columnTable, ite_self]
  rw [outcome_fetch hevaluates hstatement hrows hdata, Table.fillBatches,
    fillLevels_eq_pure (hnone _ _)]
  exact ⟨_, rfl⟩

end Joined

end Plan

end JoinPlan
