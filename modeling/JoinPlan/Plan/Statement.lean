import JoinPlan.Paging
import JoinPlan.Plan.Shape
import JoinPlan.Sql.Render

/-!
# The statement of a plan

One statement fetches a table and all tables joined below it, down to the tables
that are fetched in batches.  Every table contributes clauses, conditions, terms
of the ordering and items of the select list; the contributions are laid one
after the other, a table's own before its children's, and among these the
children of concrete types before the shared ones.

A paginated or limited table is cut to a page by a subquery before anything is
joined to it.  For a relation through a junction the junction's rows are paged,
and the target is joined inside the page if it has a condition or an ordering.
-/

namespace JoinPlan.Plan

open Sql

/-- What a statement is built with. -/
structure StatementContext where
  context : Context
  dialect : Dialect
  /-- The parent keys of a batch, for a table fetched in batches. -/
  scope : List Json

/-- What a table contributes to a statement. -/
structure Contribution where
  items : List (String × Expression)
  clauses : List TableClause
  conditions : List Expression
  order : List OrderTerm

namespace Contribution

def empty : Contribution := ⟨[], [], [], []⟩

def append (first second : Contribution) : Contribution where
  items := first.items ++ second.items
  clauses := first.clauses ++ second.clauses
  conditions := first.conditions ++ second.conditions
  order := first.order ++ second.order

def ofItems (items : List (String × Expression)) : Contribution :=
  { empty with items := items }

def ofClauses (clauses : List TableClause) : Contribution :=
  { empty with clauses := clauses }

end Contribution

/-! ### Clauses of one table -/

/-- A table's condition over an alias, unless it is blank. -/
def builtCondition (ctx : StatementContext) (condition : Option RowCondition) (aliasName : String)
    (args : Arguments) : List Expression :=
  match condition with
  | none => []
  | some condition =>
      match condition.condition? (ctx.dialect.quote aliasName) args ctx.context with
      | none => []
      | some sql => [.raw sql]

/-- The conditions of a table and its junction, the junction's first. -/
def ownConditions (ctx : StatementContext) (info : TableInfo) : List Expression :=
  (match info.junction? with
    | none => []
    | some junction => builtCondition ctx junction.condition junction.aliasName info.args) ++
    builtCondition ctx info.condition info.aliasName info.args

def orderTermsOf (aliasName : String) : Option (List SortTerm) → List OrderTerm
  | none => []
  | some terms => Paging.orderTerms aliasName terms

/-- Whether the arguments ask for the last rows. -/
def asksBackwards (args : Arguments) : Bool :=
  match Assoc.get? "last" args with
  | none => false
  | some last => !last.isNull

/-- The terms a table adds to the ordering of its statement. -/
def ownOrder (info : TableInfo) : List OrderTerm :=
  let backwards := asksBackwards info.args
  let key (terms : Option (List SortTerm)) := terms.map (directed backwards)
  match info.junction? with
  | none =>
      orderTermsOf info.aliasName info.orderBy ++
        orderTermsOf info.aliasName (key info.sortKey)
  | some junction =>
      orderTermsOf junction.aliasName junction.orderBy ++
        orderTermsOf info.aliasName info.orderBy ++
        orderTermsOf junction.aliasName (key junction.sortKey) ++
        orderTermsOf info.aliasName (key info.sortKey)

def isPaged (info : TableInfo) : Bool := info.paginate || info.limit.isSome

/-- The alias of the table a page is sorted by: the table's own, or its junction's. -/
def sortOwner (info : TableInfo) (own : Bool) : String :=
  if own then info.aliasName else info.junctionAlias

/-- The parameters of a table's page. -/
def pageParameters (info : TableInfo) : Except PlanError PageParameters := do
  let arguments ← PageArguments.read info.paginate info.limit info.args
  match info.effectiveSortKey?, info.effectiveOrderBy? with
  | some sortKey, _ =>
      Paging.overSortKey arguments sortKey (sortOwner info info.sortKey.isSome)
  | none, some orderBy =>
      Paging.overOrdering arguments orderBy (sortOwner info info.orderBy.isSome) info.paginate
  | none, none => .error (.configuration (.missingSortKey info.fieldName))

/-- A page of a table, selected from `reference`: its own table or its junction. -/
def page (info : TableInfo) (reference aliasName : String) (conditions : List Expression)
    (extraJoin : Option (String × String × Expression)) : Except PlanError Page := do
  let parameters ← pageParameters info
  .ok {
    table := reference
    aliasName, extraJoin
    conditions := conditions ++ parameters.seek.toList
    order := parameters.order
    limit := parameters.limit
    offset := parameters.offset }

/-- Whether the target has to be joined inside the page of its junction. -/
def needsTargetInside (info : TableInfo) : Bool :=
  info.condition.isSome || info.orderBy.isSome || info.sortKey.isSome

/-- The target joined inside the page of its junction, if that needs it. -/
def insideJoin (info : TableInfo) (on : Expression) : Option (String × String × Expression) :=
  if needsTargetInside info then some (info.reference, info.aliasName, on) else none

/-- The condition that a key is one of the batch's. -/
def inScope (ctx : StatementContext) (aliasName column : String) : Expression :=
  .isIn (.column aliasName column) (ctx.scope.map .value)

def batchKeys (ctx : StatementContext) (thisKey parentKey : Column) : BatchKeys where
  values := ctx.scope
  parentKey := parentKey.name
  thisKey := thisKey.name

/-- What a table fetched later leaves in the statement of its parent: the key it
is matched by. -/
def keyContribution (parent : String) (path : List String) (parentKey : Column) :
    Contribution :=
  .ofItems [(outputAlias path parentKey.aliasName, .column parent parentKey.name)]

/-- The clauses of a table at the root of a statement, without a relation. -/
def rootClauses (ctx : StatementContext) (info : TableInfo) :
    Except PlanError (List TableClause) :=
  if isPaged info then do
    let own := builtCondition ctx info.condition info.aliasName info.args
    let page ← page info info.reference info.aliasName own none
    .ok page.atRoot
  else .ok [.source (.table info.reference info.aliasName)]

/-- The clauses of a table joined to its parent. -/
def joinClauses (ctx : StatementContext) (info : TableInfo) (parent : String)
    (condition : JoinCondition) : Except PlanError (List TableClause) := do
  let on : Expression :=
    .raw (condition.join (ctx.dialect.quote parent) (ctx.dialect.quote info.aliasName) info.args
      ctx.context)
  if isPaged info then
    let own := builtCondition ctx info.condition info.aliasName info.args
    let page ← page info info.reference info.aliasName (on :: own) none
    page.joined ctx.dialect .joinedOne on
  else .ok [.join (.left info.reference info.aliasName on)]

/-- The clauses of a table joined to its parent through a junction. -/
def junctionJoinClauses (ctx : StatementContext) (info : TableInfo) (parent : String)
    (junction : Junction) (toJunction toTarget : JoinCondition) :
    Except PlanError (List TableClause) := do
  let quotedJunction := ctx.dialect.quote junction.aliasName
  let on : Expression :=
    .raw (toJunction.join (ctx.dialect.quote parent) quotedJunction info.args ctx.context)
  let targetOn : Expression :=
    .raw (toTarget.join quotedJunction (ctx.dialect.quote info.aliasName) info.args ctx.context)
  let target : TableClause := .join (.left info.reference info.aliasName targetOn)
  if isPaged info then
    let page ←
      page info junction.reference junction.aliasName (on :: ownConditions ctx info)
        (insideJoin info targetOn)
    let clauses ← page.joined ctx.dialect .joinedMany on
    .ok (clauses ++ [target])
  else .ok [.join (.left junction.reference junction.aliasName on), target]

/-- The clauses and conditions of a table fetched for a batch of parent keys. -/
def batchClauses (ctx : StatementContext) (info : TableInfo) (thisKey parentKey : Column) :
    Except PlanError Contribution := do
  if isPaged info then
    let own := builtCondition ctx info.condition info.aliasName info.args
    let page ← page info info.reference info.aliasName own none
    let clauses ← page.batchedOne ctx.dialect (batchKeys ctx thisKey parentKey)
    .ok (.ofClauses clauses)
  else
    .ok { Contribution.empty with
      clauses := [.source (.table info.reference info.aliasName)]
      conditions := [inScope ctx info.aliasName thisKey.name] }

/-- The clauses and conditions of a junction fetched for a batch of parent keys,
with its target joined. -/
def junctionBatchClauses (ctx : StatementContext) (info : TableInfo) (junction : Junction)
    (toTarget : JoinCondition) (thisKey parentKey : Column) :
    Except PlanError Contribution := do
  let on : Expression :=
    .raw (toTarget.join (ctx.dialect.quote junction.aliasName) (ctx.dialect.quote info.aliasName)
      info.args ctx.context)
  let target : TableClause := .join (.left info.reference info.aliasName on)
  if isPaged info then
    let page ←
      page info junction.reference junction.aliasName (ownConditions ctx info) (insideJoin info on)
    let clauses ← page.batchedMany ctx.dialect (batchKeys ctx thisKey parentKey)
    .ok (.ofClauses (clauses ++ [target]))
  else
    .ok { Contribution.empty with
      clauses := [.source (.table junction.reference junction.aliasName), target]
      conditions := [inScope ctx junction.aliasName thisKey.name] }

/-- The clauses that introduce a table, below the parent with an alias or at the
root of the statement. -/
def relationClauses (ctx : StatementContext) (info : TableInfo) (parent : Option String)
    (path : List String) : Except PlanError Contribution :=
  match info.relation, parent with
  | none, _ => return .ofClauses (← rootClauses ctx info)
  | some (.join condition), some parent =>
      return .ofClauses (← joinClauses ctx info parent condition)
  | some (.batch _ parentKey), some parent => .ok (keyContribution parent path parentKey)
  | some (.batch thisKey parentKey), none => batchClauses ctx info thisKey parentKey
  | some (.junction junction), parent =>
      match junction.fetch, parent with
      | .joins toJunction toTarget, some parent =>
          return .ofClauses
            (← junctionJoinClauses ctx info parent junction toJunction toTarget)
      | .batch _ _ parentKey, some parent => .ok (keyContribution parent path parentKey)
      | .batch toTarget thisKey parentKey, none =>
          junctionBatchClauses ctx info junction toTarget thisKey parentKey
      | .joins _ _, none => .error (.configuration (.rootJoin info.fieldName))
  | some (.join _), none => .error (.configuration (.rootJoin info.fieldName))

/-- What a table itself contributes to the statement it is part of. -/
def ownContribution (ctx : StatementContext) (info : TableInfo) (parent : Option String)
    (path : List String) : Except PlanError Contribution := do
  let fetchedHere := !info.isBoundary || parent.isNone
  let conditions := if fetchedHere && !info.paginate then ownConditions ctx info else []
  let order := if fetchedHere then ownOrder info else []
  let relation ← relationClauses ctx info parent path
  .ok (.append { Contribution.empty with conditions, order } relation)

/-! ### Tables and their children -/

/-- The item of a column of a table, or of another one. -/
def columnItem (parent : String) (path : List String) (owner : Option String)
    (name aliasName : String) : String × Expression :=
  (outputAlias path aliasName, .column (owner.getD parent) name)

mutual

/-- What a table and everything joined below it contribute. -/
def Table.contribution (ctx : StatementContext) (parent : Option String) (path : List String) :
    Table Node → Except PlanError Contribution
  | ⟨info, shared, typed⟩ => do
      let own ← ownContribution ctx info parent path
      if info.isBoundary && parent.isSome then .ok own
      else
        let below := path ++ [info.aliasName]
        let typed ← bucketsContribution ctx info.aliasName below typed
        let shared ← nodesContribution ctx info.aliasName below shared
        .ok ((own.append typed).append shared)

/-- What a child of the table with an alias contributes. -/
def Node.contribution (ctx : StatementContext) (parent : String) (path : List String) :
    Node → Except PlanError Contribution
  | .table child => child.contribution ctx (some parent) path
  | .column node =>
      .ok (.ofItems [columnItem parent path node.owner node.name node.aliasName])
  | .dependencies columns owner =>
      .ok (.ofItems (columns.map fun entry => columnItem parent path owner entry.1 entry.2))
  | .composite names _ aliasName owner =>
      .ok (.ofItems [(outputAlias path aliasName, .compositeKey (owner.getD parent) names)])
  | .expression sql _ aliasName args owner =>
      let built := sql.fragment (ctx.dialect.quote (owner.getD parent)) args ctx.context
      .ok (.ofItems [(outputAlias path aliasName, .raw built)])
  | .nothing => .ok .empty

def nodesContribution (ctx : StatementContext) (parent : String) (path : List String) :
    List Node → Except PlanError Contribution
  | [] => .ok .empty
  | node :: rest => do
      let first ← node.contribution ctx parent path
      let others ← nodesContribution ctx parent path rest
      .ok (first.append others)

def bucketsContribution (ctx : StatementContext) (parent : String) (path : List String) :
    List (String × List Node) → Except PlanError Contribution
  | [] => .ok .empty
  | bucket :: rest => do
      let first ← bucketContribution ctx parent path bucket
      let others ← bucketsContribution ctx parent path rest
      .ok (first.append others)

def bucketContribution (ctx : StatementContext) (parent : String) (path : List String) :
    String × List Node → Except PlanError Contribution
  | (_, nodes) => nodesContribution ctx parent path nodes

end

/-! ### Statements -/

/-- The items with a text that no earlier one has. -/
def distinctItems (dialect : Dialect) (items : List (String × Expression)) :
    List (String × Expression) :=
  Assoc.distinctBy (renderItem dialect) items

/-- Puts contributions together; nothing if there is nothing to select. -/
def assemble (dialect : Dialect) (fieldName : String) (parts : Contribution) :
    Except ConfigurationError (Option Select) :=
  let items := distinctItems dialect parts.items
  if items.isEmpty then .ok none
  else
    match (Select.ofList (.items items)).place parts.clauses with
    | (false, _) => .error (.secondSource fieldName)
    | (true, select) =>
        .ok (some
          { select with
            condition := .conjunction parts.conditions
            order := parts.order })

/-- The statement that fetches a table and everything joined below it. -/
def Table.statement (root : Table Node) (ctx : StatementContext) :
    Except PlanError (Option Select) := do
  let parts ← root.contribution ctx none []
  assemble ctx.dialect root.info.fieldName parts

/-- The text of that statement, empty if there is nothing to select. -/
def Table.statementText (root : Table Node) (ctx : StatementContext) :
    Except PlanError String := do
  match ← root.statement ctx with
  | none => .ok ""
  | some select => .ok (select.render ctx.dialect)

end JoinPlan.Plan
