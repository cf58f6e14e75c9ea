import JoinPlan.Sql.Dialect
import JoinPlan.Sql.Statement

/-!
# Pages of a relation

A page is a cut of a table: some of its rows, ordered, limited and perhaps
offset.  It is selected by a subquery, and the dialect decides which clauses put
that subquery into the statement.  Below the root a page depends on its parent,
so it takes a lateral join; for a batch of parent keys the keys are a relation of
literal rows and every key has its own page.  A dialect without lateral joins
only pages the root.
-/

namespace JoinPlan.Sql

/-- The column with the number of rows of the whole list, on pages with an
offset. -/
def totalColumn : String := "$total"

/-- The alias of the relation of a batch's keys. -/
def batchAlias : String := "temp"

structure Page where
  table : String
  aliasName : String
  /-- A table joined inside the page, for its columns to filter or order it: its
  reference, alias and condition. -/
  extraJoin : Option (String × String × Expression)
  conditions : List Expression
  order : List OrderTerm
  limit : RowLimit
  offset : Option Nat

/-- The keys a batch is fetched for. -/
structure BatchKeys where
  values : List Json
  /-- The parent's column, which names the column of the literal rows. -/
  parentKey : String
  /-- The column of the paged table that is matched with it. -/
  thisKey : String

/-- Where in a statement a page is put. -/
inductive PageForm
  | root
  | joinedOne
  | joinedMany
  | batchedOne
  | batchedMany
deriving DecidableEq, Repr

def PageForm.text : PageForm → String
  | .root => "root"
  | .joinedOne => "joined one-to-many"
  | .joinedMany => "joined many-to-many"
  | .batchedOne => "batched one-to-many"
  | .batchedMany => "batched many-to-many"

/-- A dialect that cannot page in some form. -/
structure UnsupportedPage where
  dialect : Dialect
  form : PageForm
deriving DecidableEq, Repr

def UnsupportedPage.message (error : UnsupportedPage) : String :=
  "the " ++ error.dialect.name ++ " dialect does not support " ++ error.form.text ++
    " pagination"

/-- Whether the dialect has lateral joins. -/
def hasLateral : Dialect → Bool
  | .postgres | .mysql => true
  | .sqlite => false

namespace Page

/-- The subquery that selects a page. -/
def select (page : Page) : Select where
  list :=
    match page.offset with
    | none => .star page.aliasName
    | some _ => .both (.star page.aliasName) (.items [(totalColumn, .rowCount)])
  source := some (.table page.table page.aliasName)
  joins :=
    match page.extraJoin with
    | none => []
    | some (reference, aliasName, on) => [.left reference aliasName on]
  condition := .conjunction page.conditions
  order := page.order
  limit := some page.limit
  offset := page.offset

/-- A page at the root of a statement. -/
def atRoot (page : Page) : List TableClause :=
  [.source (.select page.select page.aliasName)]

/-- A page joined to its parent. -/
def joined (page : Page) (dialect : Dialect) (form : PageForm) (on : Expression) :
    Except UnsupportedPage (List TableClause) :=
  if hasLateral dialect then .ok [.join (.leftLateral page.select page.aliasName on)]
  else .error ⟨dialect, form⟩

/-- A key of the page matched with a key of the batch. -/
def keyMatch (page : Page) (keys : BatchKeys) : Expression :=
  .compare .equal (.column page.aliasName keys.thisKey) (.column batchAlias keys.parentKey)

/-- The page with its rows matched with one key of a batch. -/
def keyed (page : Page) (keys : BatchKeys) : Page :=
  { page with conditions := page.keyMatch keys :: page.conditions }

/-- The relation of a batch's keys. -/
def keySource (keys : BatchKeys) : Source :=
  .values keys.values batchAlias keys.parentKey

/-- Pages of a table, one for each key of a batch. -/
def batchedOne (page : Page) (dialect : Dialect) (keys : BatchKeys) :
    Except UnsupportedPage (List TableClause) :=
  if hasLateral dialect then
    .ok
      [.source (keySource keys),
        .join (.lateral (page.keyed keys).select page.aliasName (page.keyMatch keys))]
  else .error ⟨dialect, .batchedOne⟩

/-- Pages of a junction table, one for each key of a batch. -/
def batchedMany (page : Page) (dialect : Dialect) (keys : BatchKeys) :
    Except UnsupportedPage (List TableClause) :=
  if hasLateral dialect then
    .ok
      [.source (keySource keys),
        .join (.leftLateral (page.keyed keys).select page.aliasName (page.keyMatch keys))]
  else .error ⟨dialect, .batchedMany⟩

end Page

end JoinPlan.Sql
