import JoinPlan.Data.Nest
import JoinPlan.Proofs.Failure
import JoinPlan.Proofs.LastValue
import JoinPlan.Sql.Statement

/-!
# What a statement fetches

The meaning of SELECT, FROM, LEFT JOIN, WHERE and IN over the contents of a database, row
by row in the order of its tables.  A condition is true, false or null, and only what it is
true of is kept.  How a database reads raw SQL is its own affair, so it is a parameter;
statements with other clauses have no meaning here.
-/

namespace JoinPlan

-- powers are those of the core library, as in the definition of decimals
attribute [local instance (high)] instPowNat

/-- Whether two numbers are worth the same.  Of two decimals worth the same only the zeros
differ, in their sign. -/
def Number.same : Number → Number → Bool
  | .int first, .int second => first == second
  | .decimal first, .decimal second =>
      first == second || (first.digits == 0 && second.digits == 0)
  | .int first, .decimal second => isWhole second first
  | .decimal first, .int second => isWhole first second
where
  isWhole (value : Decimal) (whole : Int) : Bool :=
    0 ≤ value.exponent &&
      whole == (if value.negative then -1 else 1) *
        (value.digits * 10 ^ value.exponent.toNat : Nat)

theorem Number.same_comm (first second : Number) : first.same second = second.same first := by
  cases first with
  | int first =>
      cases second with
      | int second => exact BEq.comm
      | decimal second => rfl
  | decimal first =>
      cases second with
      | int second => rfl
      | decimal second => rw [Number.same, Number.same, BEq.comm, Bool.and_comm]

namespace Sql

/-- The rows that the aliases of a statement stand for. -/
abbrev Bindings := List (String × Object)

structure Database where
  /-- The rows of a table, by what it is referred to as. -/
  table : String → List Object
  /-- The value of raw SQL for some rows. -/
  raw : String → Bindings → Json

def isTrue : Json → Bool
  | .bool true => true
  | _ => false

/-- Whether two values of a scalar type are the same. -/
def same : Json → Json → Bool
  | .bool first, .bool second => first == second
  | .number first, .number second => first.same second
  | .string first, .string second => first == second
  | _, _ => false

/-- Equality, of which nothing is known when a side is null. -/
def equal (left right : Json) : Json :=
  if left.isNull || right.isNull then .null else .bool (same left right)

theorem same_comm (first second : Json) : same first second = same second first := by
  cases first <;> cases second <;> try rfl
  · exact BEq.comm
  · exact Number.same_comm _ _
  · exact BEq.comm

theorem equal_comm (left right : Json) : equal left right = equal right left := by
  rw [equal, equal, Bool.or_comm, same_comm]

/-- Membership in a list: null when a null stands in the way of an answer. -/
def isOneOf (item : Json) (items : List Json) : Json :=
  if items.any fun other => isTrue (equal item other) then .bool true
  else if items.any fun other => (equal item other).isNull then .null
  else .bool false

/-- The column of a relation in a row; a row of nulls has none. -/
def Bindings.column (row : Bindings) (table name : String) : Json :=
  Shape.cell ((Assoc.get? table row).getD []) name

mutual

def Expression.value? (database : Database) (row : Bindings) : Expression → Option Json
  | .column table name => some (row.column table name)
  | .value literal => some literal
  | .raw sql => some (database.raw sql row)
  | .isIn item items => do
      let item ← item.value? database row
      let items ← Expression.values? database row items
      some (isOneOf item items)
  | _ => none

def Expression.values? (database : Database) (row : Bindings) :
    List Expression → Option (List Json)
  | [] => some []
  | item :: rest => do
      let value ← item.value? database row
      let values ← Expression.values? database row rest
      some (value :: values)

end

/-- The rows of which a condition is true. -/
def keep? (database : Database) (condition : Expression) :
    List Bindings → Option (List Bindings)
  | [] => some []
  | row :: rest => do
      let truth ← condition.value? database row
      let kept ← keep? database condition rest
      some (if isTrue truth then row :: kept else kept)

/-- A row with the rows of a table joined to it, or with a row of nulls. -/
def leftJoin? (database : Database) (reference aliasName : String) (on : Expression)
    (row : Bindings) : Option (List Bindings) := do
  let joined := (database.table reference).map fun found => row ++ [(aliasName, found)]
  let kept ← keep? database on joined
  some (if kept.isEmpty then [row ++ [(aliasName, [])]] else kept)

def Join.rows? (database : Database) (rows : List Bindings) : Join → Option (List Bindings)
  | .left reference aliasName on => do
      let joined ← rows.mapM (leftJoin? database reference aliasName on)
      some joined.flatten
  | _ => none

/-- The row that is fetched; of values under one alias the last stands. -/
def fetched? (database : Database) (items : List (String × Expression)) (row : Bindings) :
    Option Row := do
  let values ← Expression.values? database row (items.map Prod.snd)
  some (Assoc.sorted ((items.map Prod.fst).zip values))

/-- The rows a statement fetches. -/
def Database.rows? (database : Database) : Select → Option (List Row)
  | ⟨.items items, some (.table reference aliasName), joins, condition, [], none, none⟩ => do
      let sources := (database.table reference).map fun found => [(aliasName, found)]
      let joined ← joins.foldlM (Join.rows? database) sources
      let kept ← keep? database condition joined
      kept.mapM (fetched? database items)
  | _ => none

/-! ### Statements that fetch columns -/

/-- The value of a column in a row. -/
def Bindings.value (row : Bindings) : Expression → Json
  | .column table name => row.column table name
  | _ => .null

def IsColumn (expression : Expression) : Prop :=
  ∃ table name, expression = .column table name

/-- The row that is fetched when all items are columns. -/
def Bindings.fetched (items : List (String × Expression)) (row : Bindings) : Row :=
  Assoc.sorted (items.map fun item => (item.1, row.value item.2))

section Columns

variable {database : Database} {items : List (String × Expression)} {rows : List Bindings}
  {row : Bindings}

theorem values?_columns (h : ∀ item ∈ items, IsColumn item.2) :
    Expression.values? database row (items.map Prod.snd) =
      some (items.map fun item => row.value item.2) := by
  induction items with
  | nil => rfl
  | cons item rest ih =>
      rw [List.forall_mem_cons] at h
      obtain ⟨table, name, hcolumn⟩ := h.1
      have hvalue : item.2.value? database row = some (row.value item.2) := by
        rw [hcolumn]
        rfl
      rw [List.map_cons, Expression.values?, hvalue, ih h.2]
      rfl

theorem fetched?_columns (h : ∀ item ∈ items, IsColumn item.2) :
    fetched? database items row = some (row.fetched items) := by
  rw [fetched?, values?_columns h, Bindings.fetched, Option.bind_eq_bind, Option.bind_some,
    List.zip_map']

/-- Under an alias the value of its last item is found. -/
theorem cell_fetched (items : List (String × Expression)) (row : Bindings) (aliasName : String) :
    Shape.cell (row.fetched items) aliasName =
      ((Assoc.last? aliasName items).map row.value).getD .null := by
  rw [Shape.cell, Bindings.fetched, Assoc.get?_sorted, Assoc.last?_map]

theorem keep?_eq {condition : Expression} {truth : Bindings → Json}
    (h : ∀ row ∈ rows, condition.value? database row = some (truth row)) :
    keep? database condition rows = some (rows.filter fun row => isTrue (truth row)) := by
  induction rows with
  | nil => rfl
  | cons row rest ih =>
      rw [List.forall_mem_cons] at h
      rw [keep?, h.1, ih h.2, List.filter_cons]
      rfl

/-- A statement that fetches columns from one table. -/
theorem rows?_table {reference aliasName : String} {condition : Expression}
    {truth : Bindings → Json} (hitems : ∀ item ∈ items, IsColumn item.2)
    (hcondition : ∀ row, condition.value? database row = some (truth row)) :
    database.rows? ⟨.items items, some (.table reference aliasName), [], condition, [], none,
        none⟩ =
      some (((database.table reference).filter fun found =>
          isTrue (truth [(aliasName, found)])).map
        fun found => Bindings.fetched items [(aliasName, found)]) := by
  simp only [Database.rows?, List.foldlM_nil, Option.pure_def, Option.bind_eq_bind,
    Option.bind_some, keep?_eq fun row _ => hcondition row]
  rw [mapM_eq_some_map fun row _ => fetched?_columns hitems, List.filter_map, List.map_map]
  rfl

/-- Rows, or where there are none a row of nulls. -/
def orNulls (rows : List Object) : List Object :=
  if rows.isEmpty then [[]] else rows

theorem leftJoin?_eq {reference aliasName : String} {on : Expression} {truth : Bindings → Json}
    (hon : ∀ row, on.value? database row = some (truth row)) (row : Bindings) :
    leftJoin? database reference aliasName on row =
      some ((orNulls ((database.table reference).filter fun found =>
          isTrue (truth (row ++ [(aliasName, found)])))).map
        fun found => row ++ [(aliasName, found)]) := by
  simp only [leftJoin?, keep?_eq fun row _ => hon row, Option.bind_eq_bind, Option.bind_some,
    List.filter_map, Function.comp_def, List.isEmpty_map, orNulls]
  split <;> rfl

/-- A statement that fetches columns from a table and one joined to it. -/
theorem rows?_leftJoin {reference aliasName joined joinedAlias : String} {on : Expression}
    {truth : Bindings → Json} (hitems : ∀ item ∈ items, IsColumn item.2)
    (hon : ∀ row, on.value? database row = some (truth row)) :
    database.rows? ⟨.items items, some (.table reference aliasName),
        [.left joined joinedAlias on], .always, [], none, none⟩ =
      some ((database.table reference).flatMap fun found =>
        (orNulls ((database.table joined).filter fun other =>
            isTrue (truth [(aliasName, found), (joinedAlias, other)]))).map
          fun other => Bindings.fetched items [(aliasName, found), (joinedAlias, other)]) := by
  have halways (rows : List Bindings) : keep? database .always rows = some rows := by
    rw [keep?_eq fun _ _ => rfl]
    exact congrArg some (List.filter_eq_self.mpr fun _ _ => rfl)
  simp only [Database.rows?, List.foldlM_cons, List.foldlM_nil, Join.rows?,
    mapM_eq_some_map fun row _ => leftJoin?_eq hon row, Option.bind_eq_bind, Option.bind_some,
    Option.pure_def, halways]
  rw [mapM_eq_some_map fun row _ => fetched?_columns hitems]
  simp only [← List.flatMap_def, List.map_flatMap, List.map_map, Function.comp_def,
    List.cons_append, List.nil_append]

end Columns

end Sql

end JoinPlan
