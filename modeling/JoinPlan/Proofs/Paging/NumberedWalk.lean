import JoinPlan.Proofs.Paging.Walk
import JoinPlan.Proofs.Plan.Tree

/-!
# A walk over row numbers shows every row once

Over an ordering a page starts after the row whose number its cursor holds, and the rows are
numbered from there.  The invariant of the walk is that its cursor leads to the number of
rows shown so far: a page shows the next ones, its last cursor leads behind them, and the
total that comes with the rows tells when none are left.
-/

namespace JoinPlan

namespace Cursor

theorem decodeOffset_eq_ok {cursor : String} {value : Json} {offset : Nat}
    (hdecode : decode cursor = .ok value) (hcount : value.count? = some offset) :
    decodeOffset cursor = .ok offset := by
  rw [decodeOffset, hdecode]
  simp only [bind, Except.bind, hcount]

/-- The number of a row reads back from its cursor. -/
theorem decodeOffset_encodeOffset {offset : Nat} (h : offset < countLimit) :
    decodeOffset (encodeOffset offset) = .ok offset := by
  have hnonneg : 0 ≤ (offset : Int) := Int.natCast_nonneg offset
  have hfits : (offset : Int) < countLimit := Int.ofNat_lt.mpr h
  have hlow : -(countLimit : Int) ≤ 2 * (offset : Int) :=
    (Int.neg_nonpos_of_nonneg (Int.natCast_nonneg _)).trans (Int.mul_nonneg (by decide) hnonneg)
  have hcount : (Json.ofNat offset).count? = some offset := by
    rw [Json.ofNat, Json.count?, Number.ofNat, Number.count?, if_pos ⟨hnonneg, hfits⟩,
      Int.toNat_natCast]
  have hreads : (Json.ofNat offset).ReadsBack := Json.readsBack_int hlow hfits
  exact decodeOffset_eq_ok (decode_encode hreads) hcount

end Cursor

namespace Paging

open Sql

/-- The page of a list that is in order: the rows from the offset on are cut at the limit, and
made a connection. -/
def numberedPage (listed : List Json) (info : Plan.TableInfo) : Except PlanError Json := do
  let parameters ← Plan.pageParameters info
  info.connection (.array (parameters.limit.cut (listed.drop (parameters.offset.getD 0))))

/-- The cursors a connection shows. -/
def cursors (connection : Json) : List Json :=
  ((connection.getD "edges").array?.getD []).map Connection.cursorOf?

/-- A connection that shows the row with a number. -/
def ShowsNumber (connection : Json) (number : Nat) : Prop :=
  ∃ cursor, Json.string cursor ∈ cursors connection ∧ Cursor.decodeOffset cursor = .ok number

/-- The connections of a walk that goes on from a cursor until there is no more. -/
inductive Visits (turn : Turn) (fetch : Option String → Except PlanError Json) :
    Option String → List Json → Prop
  | last {cursor : Option String} {connection : Json} (hpage : fetch cursor = .ok connection)
      (hmore : turn.more connection = .bool false) : Visits turn fetch cursor [connection]
  | next {cursor : Option String} {connection : Json} {onward : String} {rest : List Json}
      (hpage : fetch cursor = .ok connection) (hmore : turn.more connection = .bool true)
      (hedge : turn.edge connection = .string onward)
      (hrest : Visits turn fetch (some onward) rest) :
      Visits turn fetch cursor (connection :: rest)

/-! ### What a numbered page shows -/

section Showing

variable (offset : Nat) (shown : List Json) (onward : Bool) (total : Nat)

/-- The connection of rows numbered from an offset. -/
def showing : Json :=
  let edges := Connection.numberedEdges offset shown
  .ofMembers
    [("edges", .array edges), ("pageInfo", Connection.pageInfo edges onward false),
      ("total", .ofNat total)]

/-- The cursors of some rows numbered from an offset. -/
def numberCursors (count : Nat) : List Json :=
  (List.range' offset count).map fun number => .string (Cursor.encodeOffset number)

theorem map_cursorOf?_numberedEdges :
    (Connection.numberedEdges offset shown).map Connection.cursorOf? =
      numberCursors offset shown.length := by
  induction shown generalizing offset with
  | nil => rfl
  | cons row rest ih =>
      rw [Connection.numberedEdges, List.map_cons, cursorOf?_edge, ih, List.length_cons,
        numberCursors, numberCursors, List.range'_succ, List.map_cons]

theorem map_node_numberedEdges :
    (Connection.numberedEdges offset shown).map (Json.getD "node") = shown := by
  induction shown generalizing offset with
  | nil => rfl
  | cons row rest ih => rw [Connection.numberedEdges, List.map_cons, node_edge, ih]

theorem edges_showing :
    (showing offset shown onward total).getD "edges" =
      .array (Connection.numberedEdges offset shown) := by
  simp [showing, Assoc.last?_cons]

theorem pageInfo_showing :
    (showing offset shown onward total).getD "pageInfo" =
      Connection.pageInfo (Connection.numberedEdges offset shown) onward false := by
  simp [showing, Assoc.last?_cons]

theorem total_showing : (showing offset shown onward total).getD "total" = .ofNat total := by
  simp [showing, Assoc.last?_cons]

theorem nodes_showing : nodes (showing offset shown onward total) = shown := by
  rw [nodes, edges_showing]
  exact map_node_numberedEdges offset shown

theorem cursors_showing :
    cursors (showing offset shown onward total) = numberCursors offset shown.length := by
  rw [cursors, edges_showing]
  exact map_cursorOf?_numberedEdges offset shown

theorem more_showing :
    Turn.forward.more (showing offset shown onward total) = .bool onward := by
  rw [Turn.more, pageInfo_showing]
  simp [Turn.moreFlag, Connection.pageInfo, Assoc.last?_cons]

theorem edge_showing (hshown : 0 < shown.length) :
    Turn.forward.edge (showing offset shown onward total) =
      .string (Cursor.encodeOffset (offset + shown.length - 1)) := by
  have hlast : (Connection.numberedEdges offset shown).getLast?.map Connection.cursorOf? =
      some (.string (Cursor.encodeOffset (offset + shown.length - 1))) := by
    rw [← List.getLast?_map, map_cursorOf?_numberedEdges, numberCursors, List.getLast?_map,
      List.getLast?_range', if_neg hshown.ne', Option.map_some]
  rw [Turn.edge, pageInfo_showing]
  simp [Turn.edgeCursor, Connection.pageInfo, Assoc.last?_cons, hlast]

theorem showsNumber_showing {number : Nat} (hfits : offset + shown.length ≤ countLimit) :
    ShowsNumber (showing offset shown onward total) number ↔
      offset ≤ number ∧ number < offset + shown.length := by
  rw [ShowsNumber, cursors_showing]
  constructor
  · rintro ⟨cursor, hmem, hnumber⟩
    obtain ⟨other, hother, hcursor⟩ := List.mem_map.mp hmem
    obtain rfl := Json.string.inj hcursor
    rw [List.mem_range'_1] at hother
    rw [Cursor.decodeOffset_encodeOffset (by omega), Except.ok.injEq] at hnumber
    omega
  · rintro ⟨hlow, hhigh⟩
    exact ⟨_, List.mem_map_of_mem (List.mem_range'_1.mpr ⟨hlow, hhigh⟩),
      Cursor.decodeOffset_encodeOffset (by omega)⟩

end Showing

/-! ### One page of the walk -/

section Page

variable {info : Plan.TableInfo} {terms : List SortTerm} {listed : List Json}
  {size offset : Nat} {cursor : Option String}

theorem startAfter_encodeOffset (h : offset + 1 < countLimit) :
    startAfter (some (Cursor.encodeOffset offset)) = .ok (offset + 1) := by
  rw [startAfter, Cursor.decodeOffset_encodeOffset (Nat.lt_of_succ_lt h)]
  exact if_pos h

/-- One row more than asked for is fetched, from the offset that the cursor leads to. -/
theorem overOrdering_pageArguments (hsize : size + 1 < countLimit)
    (hstart : startAfter cursor = .ok offset) (table : String) :
    overOrdering (Turn.forward.pageArguments size cursor) terms table true =
      .ok {
        order := orderTerms table terms
        limit := .count (size + 1)
        offset := some offset
        seek := none } := by
  have hone : oneMore "first" size = .ok (size + 1) := if_pos hsize
  simp only [overOrdering, Turn.pageArguments, Option.isSome_none, hone, hstart, bind, Except.bind]
  rfl

/-- A page shows the rows fetched by the parameters that were read from its arguments. -/
theorem numberedPage_eq (hpaginate : info.paginate = true)
    (hsortKey : info.effectiveSortKey? = none) (horder : info.effectiveOrderBy? = some terms)
    (hsize : size + 1 < countLimit) (hstart : startAfter cursor = .ok offset) :
    numberedPage listed (Turn.forward.request size info cursor) =
      liftM (Connection.overOrdering (Turn.forward.pageArguments size cursor)
        ((listed.drop offset).take (size + 1))) := by
  have hread := Turn.forward.read_request (Nat.lt_of_succ_lt hsize) hpaginate cursor
  have hrequested : (Turn.forward.request size info cursor).paginate = true := hpaginate
  have hnone : (Turn.forward.request size info cursor).effectiveSortKey? = none := hsortKey
  have hterms : (Turn.forward.request size info cursor).effectiveOrderBy? = some terms := horder
  have hparameters (table : String) :=
    @overOrdering_pageArguments terms size offset cursor hsize hstart table
  rw [hrequested] at hread
  simp only [numberedPage, Plan.pageParameters, Plan.TableInfo.connection, hread, hnone, hterms,
    hrequested, hparameters, liftM_ok, bind, Except.bind]
  rfl

theorem overOrdering_eq_showing
    (htotal : ∀ row ∈ listed, Connection.totalOf (row.getD totalColumn) = listed.length)
    (hstart : startAfter cursor = .ok offset) (hrest : listed.drop offset ≠ [] ∨ listed = []) :
    Connection.overOrdering (Turn.forward.pageArguments size cursor)
        ((listed.drop offset).take (size + 1)) =
      .ok (showing offset ((listed.drop offset).take size)
        (decide (size < (listed.drop offset).length)) listed.length) := by
  have hrows : Connection.totalOfRows ((listed.drop offset).take (size + 1)) = listed.length := by
    cases hdrop : listed.drop offset with
    | nil =>
        rcases hrest with hne | rfl
        · exact absurd hdrop hne
        · rfl
    | cons row others =>
        exact htotal row (List.mem_of_mem_drop (hdrop ▸ List.mem_cons_self))
  have hlength : (listed.drop offset).length = listed.length - offset := List.length_drop
  have hsome : 0 < (listed.drop offset).length ∨ listed.length = 0 := by
    rcases hrest with hne | rfl
    · exact Or.inl (List.length_pos_of_ne_nil hne)
    · exact Or.inr rfl
  generalize listed.drop offset = rest at *
  -- the size keeps the probe row out, and the total keeps out nothing that was fetched
  have hkept : min (min (rest.take (size + 1)).length size) (listed.length - offset) =
      min size rest.length := by
    rw [List.length_take]
    omega
  have hshown : (rest.take (size + 1)).take (min size rest.length) = rest.take size := by
    rw [List.take_take, List.take_eq_take_iff]
    omega
  have honward : (offset + min size rest.length < listed.length) = (size < rest.length) :=
    propext (by omega)
  simp only [Connection.overOrdering, Turn.pageArguments, hstart, hrows, Option.getD_some, hkept,
    hshown, honward, bind, Except.bind]
  rfl

/-- A page shows the next rows of what remains behind its cursor, numbered from there. -/
theorem numberedPage_eq_showing (hpaginate : info.paginate = true)
    (hsortKey : info.effectiveSortKey? = none) (horder : info.effectiveOrderBy? = some terms)
    (hsize : size + 1 < countLimit)
    (htotal : ∀ row ∈ listed, Connection.totalOf (row.getD totalColumn) = listed.length)
    (hstart : startAfter cursor = .ok offset) (hrest : listed.drop offset ≠ [] ∨ listed = []) :
    numberedPage listed (Turn.forward.request size info cursor) =
      .ok (showing offset ((listed.drop offset).take size)
        (decide (size < (listed.drop offset).length)) listed.length) := by
  rw [numberedPage_eq hpaginate hsortKey horder hsize hstart,
    overOrdering_eq_showing htotal hstart hrest]
  rfl

end Page

/-! ### The whole walk -/

section Walk

variable {fetch : Option String → Except PlanError Json} {listed : List Json}
  {size offset : Nat} {cursor : Option String}

/-- What the connections of a walk show of a list, from an offset on. -/
structure ShowsFrom (listed : List Json) (offset : Nat) (connections : List Json) : Prop where
  rows : connections.flatMap nodes = listed.drop offset
  numbers : connections.flatMap cursors = numberCursors offset (listed.length - offset)
  total : ∀ connection ∈ connections, connection.getD "total" = .ofNat listed.length
  more : ∀ connection ∈ connections, ∃ onward, Turn.forward.more connection = .bool onward ∧
    (onward = false ↔ listed = [] ∨ ShowsNumber connection (listed.length - 1))

/-- A page that shows all that remains. -/
theorem showsFrom_last (hfits : listed.length < countLimit)
    (hrest : listed.drop offset ≠ [] ∨ listed = []) :
    ShowsFrom listed offset [showing offset (listed.drop offset) false listed.length] where
  rows := by rw [List.flatMap_singleton, nodes_showing]
  numbers := by rw [List.flatMap_singleton, cursors_showing, List.length_drop]
  total := by
    rw [List.forall_mem_singleton]
    exact total_showing _ _ _ _
  more := by
    rw [List.forall_mem_singleton]
    refine ⟨false, more_showing _ _ _ _, fun _ => ?_, fun _ => rfl⟩
    rcases hrest with hne | hnil
    · have hlength := List.length_pos_of_ne_nil hne
      rw [List.length_drop] at hlength
      refine Or.inr ((showsNumber_showing _ _ _ _ ?_).mpr ?_) <;> rw [List.length_drop] <;> omega
    · exact Or.inl hnil

/-- A page that is full, before the connections that show the rest. -/
theorem ShowsFrom.cons (hfits : listed.length < countLimit)
    (hmore : size < (listed.drop offset).length) {connections : List Json}
    (h : ShowsFrom listed (offset + size) connections) :
    ShowsFrom listed offset
      (showing offset ((listed.drop offset).take size) true listed.length :: connections) := by
  have hlength : ((listed.drop offset).take size).length = size :=
    List.length_take_of_le (Nat.le_of_lt hmore)
  have hleft : size < listed.length - offset := by rwa [List.length_drop] at hmore
  refine ⟨?_, ?_, ?_, ?_⟩
  · rw [List.flatMap_cons, nodes_showing, h.rows, ← List.drop_drop, List.take_append_drop]
  · rw [List.flatMap_cons, cursors_showing, hlength, h.numbers, numberCursors, numberCursors,
      numberCursors, ← List.map_append, List.range'_append_1]
    congr 2
    omega
  · exact List.forall_mem_cons.mpr ⟨total_showing _ _ _ _, h.total⟩
  · refine List.forall_mem_cons.mpr ⟨⟨true, more_showing _ _ _ _, by simp, ?_⟩, h.more⟩
    rintro (rfl | hlast)
    · simp at hleft
    · rw [showsNumber_showing _ _ _ _ (by rw [hlength]; omega), hlength] at hlast
      omega

/-- What remains behind a cursor is walked through, page by page. -/
theorem exists_visits
    (hpage : ∀ cursor offset, startAfter cursor = .ok offset →
      listed.drop offset ≠ [] ∨ listed = [] →
        fetch cursor = .ok (showing offset ((listed.drop offset).take size)
          (decide (size < (listed.drop offset).length)) listed.length))
    (hpos : 1 ≤ size) (hfits : listed.length + 1 < countLimit)
    (hstart : startAfter cursor = .ok offset) (hrest : listed.drop offset ≠ [] ∨ listed = []) :
    ∃ connections, Visits .forward fetch cursor connections ∧
      ShowsFrom listed offset connections := by
  induction hlength : (listed.drop offset).length using Nat.strongRecOn
    generalizing offset cursor with
  | ind length ih =>
      have hfetch := hpage cursor offset hstart hrest
      by_cases hmore : size < (listed.drop offset).length
      · -- the page is full, and its last cursor leads to the rows behind it
        have hshown : ((listed.drop offset).take size).length = size :=
          List.length_take_of_le (Nat.le_of_lt hmore)
        have hleft : size < listed.length - offset := by rwa [List.length_drop] at hmore
        have honward : startAfter (some (Cursor.encodeOffset (offset + size - 1))) =
            .ok (offset + size) := by
          rw [startAfter_encodeOffset (by omega), Nat.sub_add_cancel (by omega)]
        have hbehind : (listed.drop (offset + size)).length = listed.length - (offset + size) :=
          List.length_drop
        obtain ⟨connections, hvisits, hshows⟩ := ih (listed.drop (offset + size)).length
          (by rw [List.length_drop] at hlength; omega) honward
          (Or.inl (List.ne_nil_of_length_pos (by omega))) rfl
        rw [decide_eq_true hmore] at hfetch
        have hedge := edge_showing offset ((listed.drop offset).take size) true listed.length
          (by omega)
        rw [hshown] at hedge
        exact ⟨_, .next hfetch (more_showing _ _ _ _) hedge hvisits,
          hshows.cons (Nat.lt_of_succ_lt hfits) hmore⟩
      · rw [decide_eq_false hmore, List.take_of_length_le (Nat.le_of_not_lt hmore)] at hfetch
        exact ⟨_, .last hfetch (more_showing _ _ _ _),
          showsFrom_last (Nat.lt_of_succ_lt hfits) hrest⟩

theorem forall₂_numberCursors {count : Nat} (h : count ≤ countLimit) :
    List.Forall₂
      (fun number cursor => ∃ text, cursor = Json.string text ∧
        Cursor.decodeOffset text = .ok number)
      (List.range count) (numberCursors 0 count) := by
  rw [numberCursors, ← List.range_eq_range', List.forall₂_map_right_iff, List.forall₂_same]
  intro number hnumber
  have hbelow := List.mem_range.mp hnumber
  exact ⟨_, rfl, Cursor.decodeOffset_encodeOffset (by omega)⟩

/-- Walking a list by row numbers shows every row once, in order.  The cursor of a row holds
its number, every page tells the number of all rows, and the walk ends on the page with the
last of them, or on the empty page of an empty list. -/
theorem numbered_walk {info : Plan.TableInfo} {terms : List SortTerm}
    (hpaginate : info.paginate = true) (hsortKey : info.effectiveSortKey? = none)
    (horder : info.effectiveOrderBy? = some terms)
    (htotal : ∀ row ∈ listed, Connection.totalOf (row.getD totalColumn) = listed.length)
    (hfits : listed.length + 1 < countLimit) (hpos : 1 ≤ size) (hsize : size + 1 < countLimit) :
    ∃ connections, Visits .forward
        (fun cursor => numberedPage listed (Turn.forward.request size info cursor)) none
        connections ∧
      connections.flatMap nodes = listed ∧
      List.Forall₂
        (fun number cursor => ∃ text, cursor = Json.string text ∧
          Cursor.decodeOffset text = .ok number)
        (List.range listed.length) (connections.flatMap cursors) ∧
      ∀ connection ∈ connections, connection.getD "total" = .ofNat listed.length ∧
        ∃ onward, Turn.forward.more connection = .bool onward ∧
          (onward = false ↔ listed = [] ∨ ShowsNumber connection (listed.length - 1)) := by
  have hstart : startAfter none = .ok 0 := rfl
  have hrest : listed.drop 0 ≠ [] ∨ listed = [] := by
    rw [List.drop_zero]
    exact (eq_or_ne listed []).symm
  obtain ⟨connections, hvisits, hshows⟩ := exists_visits
    (fun cursor offset hcursor hbehind => numberedPage_eq_showing hpaginate hsortKey horder hsize
      htotal hcursor hbehind)
    hpos hfits hstart hrest
  refine ⟨connections, hvisits, hshows.rows, ?_, fun connection hconnection =>
    ⟨hshows.total connection hconnection, hshows.more connection hconnection⟩⟩
  rw [hshows.numbers, Nat.sub_zero]
  exact forall₂_numberCursors (by omega)

end Walk

/-! ### Three posts -/

/-- A row that tells the number of all rows. -/
def countedRow (total id : Int) : Json :=
  .object [(totalColumn, .number (.int total)), ("id", .number (.int id))]

def countedPosts : List Json := [countedRow 3 7, countedRow 3 5, countedRow 3 6]

def orderedField : Plan.TableInfo :=
  { Plan.plainInfo "posts" "posts" true none with
    paginate := true
    orderBy := some [⟨"likes", .descending⟩] }

/-- Three posts are two pages of two. -/
theorem numbered_walk_posts :
    ∃ connections, Visits .forward
        (fun cursor => numberedPage countedPosts (Turn.forward.request 2 orderedField cursor))
        none connections ∧
      connections.flatMap nodes = countedPosts ∧
      List.Forall₂
        (fun number cursor => ∃ text, cursor = Json.string text ∧
          Cursor.decodeOffset text = .ok number)
        (List.range 3) (connections.flatMap cursors) ∧
      ∀ connection ∈ connections, connection.getD "total" = .ofNat 3 ∧
        ∃ onward, Turn.forward.more connection = .bool onward ∧
          (onward = false ↔ countedPosts = [] ∨ ShowsNumber connection 2) :=
  numbered_walk rfl rfl rfl (by decide) (by decide) (by decide) (by decide)

end Paging

end JoinPlan
