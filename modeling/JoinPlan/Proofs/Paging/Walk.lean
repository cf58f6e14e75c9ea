import JoinPlan.Proofs.Paging.Turn

/-!
# Walking a list page by page

A walk asks for a page, and while there is more, for the page past the last cursor
in its direction.  Over a sort key the pages of a walk, put together, are all rows in
key order.  The invariant of a walk is that what remains past its cursor is a tail of
the rows in the direction of fetching; every page that is not the last makes it
shorter.
-/

namespace JoinPlan.Paging

open Sql

/-- The connection of a page: its rows are fetched, and made a connection. -/
def page (collation : Collation) (table : List Json) (info : Plan.TableInfo) :
    Except PlanError Json := do
  let parameters ← Plan.pageParameters info
  info.connection (.array (parameters.fetch collation table))

theorem liftM_ok {A : Type} (value : A) :
    (liftM (Except.ok value : Except RequestError A) : Except PlanError A) = .ok value :=
  rfl

theorem pageParameters_eq_ok {info : Plan.TableInfo} {args : PageArguments}
    {terms : List SortTerm} {parameters : PageParameters}
    (hread : PageArguments.read info.paginate info.limit info.args = .ok args)
    (hsortKey : info.effectiveSortKey? = some terms)
    (hparameters : overSortKey args terms (Plan.sortOwner info info.sortKey.isSome) =
      .ok parameters) : Plan.pageParameters info = .ok parameters := by
  simp only [Plan.pageParameters, hread, hsortKey, liftM_ok, bind, Except.bind, hparameters]

theorem connection_eq_ok {info : Plan.TableInfo} {args : PageArguments} {terms : List SortTerm}
    (hread : PageArguments.read info.paginate info.limit info.args = .ok args)
    (hsortKey : info.effectiveSortKey? = some terms) (fetched : List Json) :
    info.connection (.array fetched) =
      .ok (Connection.overSortKey args (terms.map SortTerm.column) fetched) := by
  simp only [Plan.TableInfo.connection, hread, hsortKey]
  rfl

theorem page_eq_ok {collation : Collation} {rows : List Json} {info : Plan.TableInfo}
    {args : PageArguments} {terms : List SortTerm} {parameters : PageParameters}
    (hread : PageArguments.read info.paginate info.limit info.args = .ok args)
    (hsortKey : info.effectiveSortKey? = some terms)
    (hparameters : overSortKey args terms (Plan.sortOwner info info.sortKey.isSome) =
      .ok parameters) :
    page collation rows info = .ok (Connection.overSortKey args (terms.map SortTerm.column)
      (parameters.fetch collation rows)) := by
  have hconnection := connection_eq_ok hread hsortKey (parameters.fetch collation rows)
  rw [page, pageParameters_eq_ok hread hsortKey hparameters]
  simp only [bind, Except.bind, hconnection, liftM_ok]

/-- The rows a connection shows. -/
def nodes (connection : Json) : List Json :=
  ((connection.getD "edges").array?.getD []).map (Json.getD "node")

namespace Turn

/-- The field asked for a page in a direction. -/
def request (turn : Turn) (size : Nat) (info : Plan.TableInfo) (cursor : Option String) :
    Plan.TableInfo :=
  { info with args := turn.arguments size cursor }

theorem read_request (turn : Turn) {size : Nat} (hsize : size < countLimit)
    {info : Plan.TableInfo} (hpaginate : info.paginate = true) (cursor : Option String) :
    PageArguments.read (turn.request size info cursor).paginate
        (turn.request size info cursor).limit (turn.request size info cursor).args =
      .ok (turn.pageArguments size cursor) := by
  rw [request, hpaginate]
  exact turn.read_arguments size hsize cursor info.limit

def more (turn : Turn) (connection : Json) : Json :=
  (connection.getD "pageInfo").getD turn.moreFlag

def edge (turn : Turn) (connection : Json) : Json :=
  (connection.getD "pageInfo").getD turn.edgeCursor

end Turn

/-- The pages of a walk that goes on from a cursor until there is no more. -/
inductive Walk (turn : Turn) (fetch : Option String → Except PlanError Json) :
    Option String → List (List Json) → Prop
  | last {cursor : Option String} {connection : Json} (hpage : fetch cursor = .ok connection)
      (hmore : turn.more connection = .bool false) : Walk turn fetch cursor [nodes connection]
  | next {cursor : Option String} {connection : Json} {onward : String}
      {pages : List (List Json)} (hpage : fetch cursor = .ok connection)
      (hmore : turn.more connection = .bool true)
      (hedge : turn.edge connection = .string onward)
      (hrest : Walk turn fetch (some onward) pages) :
      Walk turn fetch cursor (nodes connection :: pages)

/-- A walk goes one way only. -/
theorem Walk.unique {turn : Turn} {fetch : Option String → Except PlanError Json}
    {cursor : Option String} {pages others : List (List Json)} (h : Walk turn fetch cursor pages)
    (hother : Walk turn fetch cursor others) : pages = others := by
  induction h generalizing others with
  | last hpage hmore =>
      cases hother with
      | last hpage' _ =>
          obtain rfl := Except.ok.inj (hpage.symm.trans hpage')
          rfl
      | next hpage' hmore' _ _ =>
          obtain rfl := Except.ok.inj (hpage.symm.trans hpage')
          exact absurd (hmore.symm.trans hmore') (by simp)
  | next hpage hmore hedge _ ih =>
      cases hother with
      | last hpage' hmore' =>
          obtain rfl := Except.ok.inj (hpage.symm.trans hpage')
          exact absurd (hmore.symm.trans hmore') (by simp)
      | next hpage' _ hedge' hrest =>
          obtain rfl := Except.ok.inj (hpage.symm.trans hpage')
          obtain rfl := Json.string.inj (hedge.symm.trans hedge')
          rw [ih hrest]

/-! ### What a connection shows -/

section Connections

variable (columns : List String) (rows : List Json)

def edges : List Json :=
  rows.map fun row => Connection.edge (Cursor.encode (Connection.keyOf columns row)) row

theorem node_edge (cursor : String) (row : Json) :
    (Connection.edge cursor row).getD "node" = row := by
  simp [Connection.edge, Assoc.last?_cons]

theorem cursorOf?_edge (cursor : String) (row : Json) :
    Connection.cursorOf? (Connection.edge cursor row) = .string cursor := by
  simp [Connection.cursorOf?, Connection.edge, Assoc.last?_cons]

theorem map_node_edges : (edges columns rows).map (Json.getD "node") = rows := by
  rw [edges, List.map_map]
  calc
    rows.map (Json.getD "node" ∘
        fun row => Connection.edge (Cursor.encode (Connection.keyOf columns row)) row) =
      rows.map id := by
        apply List.map_congr_left
        intro row _
        exact node_edge _ row
    _ = rows := List.map_id rows

/-- What the connection of a page over a sort key shows. -/
theorem nodes_overSortKey (args : PageArguments) :
    nodes (Connection.overSortKey args columns rows) = (Connection.keyedPage args rows).1 := by
  have hedges : (Connection.overSortKey args columns rows).getD "edges" =
      .array (edges columns (Connection.keyedPage args rows).1) := by
    simp [Connection.overSortKey, Assoc.last?_cons, edges]
  rw [nodes, hedges]
  exact map_node_edges columns _

theorem pageInfo_overSortKey (args : PageArguments) :
    (Connection.overSortKey args columns rows).getD "pageInfo" =
      Connection.pageInfo (edges columns (Connection.keyedPage args rows).1)
        (Connection.keyedPage args rows).2.1 (Connection.keyedPage args rows).2.2 := by
  simp [Connection.overSortKey, Assoc.last?_cons, edges]

end Connections

/-! ### One page of a walk -/

section Page

variable {turn : Turn} {columns : List String} {rest : List Json} {size : Nat}
  {cursor : Option String}

theorem keyedPage_pageArguments (turn : Turn) (rest : List Json) (size : Nat)
    (cursor : Option String) :
    (Connection.keyedPage (turn.pageArguments size cursor) (rest.take (size + 1))).1 =
      turn.shown (rest.take size) := by
  have htake : (rest.take (size + 1)).take size = rest.take size := by
    rw [List.take_take, Nat.min_eq_left (Nat.le_succ size)]
  cases turn with
  | forward => exact htake
  | backward => exact congrArg List.reverse htake

/-- Of the next rows one more is fetched than the page shows. -/
theorem nodes_page :
    nodes (Connection.overSortKey (turn.pageArguments size cursor) columns
      (rest.take (size + 1))) = turn.shown (rest.take size) := by
  rw [nodes_overSortKey, keyedPage_pageArguments]

/-- There is more exactly when the page does not show all that remains. -/
theorem more_page :
    turn.more (Connection.overSortKey (turn.pageArguments size cursor) columns
      (rest.take (size + 1))) = .bool (decide (size < rest.length)) := by
  have hprobe : (size < (rest.take (size + 1)).length) = (size < rest.length) := by
    rw [List.length_take, Nat.lt_min]
    simp
  cases turn <;>
    simp only [Turn.more, Turn.moreFlag, pageInfo_overSortKey, Connection.keyedPage,
      Turn.pageArguments, hprobe] <;>
    simp [Connection.pageInfo, Assoc.last?_cons]

/-- A walk goes on from the row that was fetched last of those shown. -/
theorem edge_page {front : List Json} {row : Json} (hlast : rest.take size = front ++ [row]) :
    turn.edge (Connection.overSortKey (turn.pageArguments size cursor) columns
      (rest.take (size + 1))) = .string (Cursor.encode (Connection.keyOf columns row)) := by
  rw [Turn.edge, pageInfo_overSortKey, keyedPage_pageArguments, hlast]
  cases turn <;>
    simp [Turn.edgeCursor, Turn.shown, Connection.pageInfo, Assoc.last?_cons, edges, cursorOf?_edge]

end Page

section Fetch

variable {collation : Collation} {terms : List SortTerm} {rows ordered : List Json}

/-- A page fetches the first rows in key order that its condition holds of. -/
theorem fetch_eq_take (hkeyed : Keyed collation terms rows) (hperm : ordered.Perm rows)
    (hordered : ordered.Pairwise fun first second => keyBefore collation terms first second = true)
    (table : String) (count : Nat) {condition : Option Expression} {holds : Json → Bool}
    (hholds : ∀ row ∈ rows,
      (condition.all fun e => e.holds? collation row == some true) = holds row) :
    PageParameters.fetch
        { order := orderTerms table terms, limit := .count count, offset := none,
          seek := condition } collation rows =
      (ordered.filter holds).take count := by
  have hfound : (rows.filter fun row =>
      condition.all fun e => e.holds? collation row == some true) = rows.filter holds :=
    List.filter_congr hholds
  have hsorted := sortRows_eq
    (hkeyed.strictlyOrders.mono fun row hrow => List.mem_of_mem_filter hrow)
    (hperm.filter holds) (hordered.sublist List.filter_sublist)
  rw [PageParameters.fetch]
  simp only [hfound, sortsBefore_orderTerms, hsorted, Option.getD_none, List.drop_zero,
    RowLimit.cut]

/-- The rows after one of the rows in order are the tail behind it. -/
theorem filter_keyBefore (hkeyed : Keyed collation terms rows) {front rest : List Json}
    {row : Json} (hperm : (front ++ row :: rest).Perm rows)
    (hordered : (front ++ row :: rest).Pairwise
      fun first second => keyBefore collation terms first second = true) :
    (front ++ row :: rest).filter (keyBefore collation terms row) = rest := by
  have horders := hkeyed.strictlyOrders.mono fun other hother => hperm.mem_iff.mp hother
  have hrow : row ∈ front ++ row :: rest := by simp
  obtain ⟨-, hrest, hfront⟩ := List.pairwise_append.mp hordered
  have hnone : front.filter (keyBefore collation terms row) = [] := by
    apply List.filter_eq_nil_iff.mpr
    intro other hother
    rw [horders.asymm (List.mem_append_left _ hother) hrow
      (hfront other hother row List.mem_cons_self)]
    simp
  have hall : rest.filter (keyBefore collation terms row) = rest :=
    List.filter_eq_self.mpr (List.pairwise_cons.mp hrest).1
  rw [List.filter_append, hnone, List.nil_append,
    List.filter_cons_of_neg (by simp [horders.irrefl row hrow]), hall]

end Fetch

end JoinPlan.Paging
