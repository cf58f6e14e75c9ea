import JoinPlan.Proofs.Paging.NumberedWalk

/-!
# One page of numbered rows

The offset of a page comes from a cursor that a client sent, and the total from the first
row that the database sent; neither need have to do with the other or with how many rows
there are.  Whatever they are, a page shows only rows with numbers below the total, so no
number that it counts up to leaves 64 bits.
-/

namespace JoinPlan

/-! ### Totals -/

theorem Text.lt_of_count? {text : String} {count : Nat} (h : Text.count? text = some count) :
    count < countLimit := by
  simp only [Text.count?] at h
  split_ifs at h with _ hfits
  exact Option.some.inj h ▸ hfits

namespace Connection

theorem getD_zero_lt {count : Option Nat} (h : ∀ n, count = some n → n < countLimit) :
    count.getD 0 < countLimit := by
  cases count with
  | none => decide
  | some n => exact h n rfl

theorem totalOf_lt (value : Json) : totalOf value < countLimit := by
  have hvalue : value.count?.getD 0 < countLimit :=
    getD_zero_lt fun _ hcount => (Json.count?_eq_some_iff.mp hcount).2
  cases value with
  | string text => exact getD_zero_lt fun _ => Text.lt_of_count?
  | _ => exact hvalue

theorem totalOfRows_lt (rows : List Json) : totalOfRows rows < countLimit := by
  cases rows with
  | nil => decide
  | cons row rest => exact totalOf_lt _

end Connection

namespace Paging

open Sql

/-! ### Where a page starts -/

/-- The number of the first row of a page: the one after its cursor's, if that is one of the
numbers that rows can have. -/
inductive StartsAt : Option String → Nat → Prop
  | first : StartsAt none 0
  | after {cursor : String} {number : Nat} (hcursor : Cursor.decodeOffset cursor = .ok number)
      (hfits : number + 1 < countLimit) : StartsAt (some cursor) (number + 1)

theorem startAfter_eq_ok_iff {cursor : Option String} {offset : Nat} :
    startAfter cursor = .ok offset ↔ StartsAt cursor offset := by
  constructor
  · intro h
    cases cursor with
    | none => exact Except.ok.inj h ▸ .first
    | some cursor =>
        cases hnumber : Cursor.decodeOffset cursor with
        | error error => simp [startAfter, hnumber, bind, Except.bind] at h
        | ok number =>
            simp only [startAfter, hnumber, bind, Except.bind] at h
            split_ifs at h with hfits
            exact Except.ok.inj h ▸ .after hnumber hfits
  · rintro (_ | ⟨hcursor, hfits⟩)
    · rfl
    · simp [startAfter, hcursor, bind, Except.bind, hfits]

theorem StartsAt.lt {cursor : Option String} {offset : Nat} (h : StartsAt cursor offset) :
    offset < countLimit := by
  cases h with
  | first => decide
  | after _ hfits => exact hfits

/-! ### What it shows -/

/-- The number of rows that a page shows of those that were fetched. -/
def keptOf (args : PageArguments) (rows : List Json) (offset : Nat) : Nat :=
  min (min rows.length (args.first.getD rows.length)) (Connection.totalOfRows rows - offset)

/-- A connection shows the first of the rows, numbered from an offset on, all below the total. -/
structure ShowsNumbered (rows : List Json) (offset kept total : Nat) (connection : Json) :
    Prop where
  fits : total < countLimit ∧ offset + kept < countLimit
  reported : connection.getD "total" = .ofNat total
  shown : nodes connection = rows.take kept
  numbered : List.Forall₂
    (fun number cursor => number < total ∧ ∃ text, cursor = Json.string text ∧
      Cursor.decodeOffset text = .ok number)
    (List.range' offset kept) (cursors connection)
  edges : (connection.getD "pageInfo").getD "startCursor" = (cursors connection).head?.getD .null ∧
    (connection.getD "pageInfo").getD "endCursor" = (cursors connection).getLast?.getD .null
  more : (connection.getD "pageInfo").getD "hasNextPage" = .bool (decide (offset + kept < total))

theorem overOrdering_eq_showing_kept {args : PageArguments} {offset : Nat}
    (hstart : StartsAt args.after offset) (rows : List Json) :
    Connection.overOrdering args rows =
      .ok (showing offset (rows.take (keptOf args rows offset))
        (decide (offset + keptOf args rows offset < Connection.totalOfRows rows))
        (Connection.totalOfRows rows)) := by
  rw [Connection.overOrdering, startAfter_eq_ok_iff.mpr hstart]
  rfl

theorem getD_edges_showing (offset : Nat) (shown : List Json) (onward : Bool) (total : Nat) :
    ((showing offset shown onward total).getD "pageInfo").getD "startCursor" =
        (cursors (showing offset shown onward total)).head?.getD .null ∧
      ((showing offset shown onward total).getD "pageInfo").getD "endCursor" =
        (cursors (showing offset shown onward total)).getLast?.getD .null := by
  rw [pageInfo_showing, cursors, edges_showing]
  simp [Connection.pageInfo, Assoc.last?_cons, Json.array?]

theorem showsNumbered_showing {rows : List Json} {offset kept total : Nat}
    (htotal : total < countLimit) (hoffset : offset < countLimit) (hkept : kept ≤ rows.length)
    (hbelow : kept ≤ total - offset) :
    ShowsNumbered rows offset kept total
      (showing offset (rows.take kept) (decide (offset + kept < total)) total) where
  fits := ⟨htotal, by omega⟩
  reported := total_showing _ _ _ _
  shown := nodes_showing _ _ _ _
  numbered := by
    rw [cursors_showing, List.length_take_of_le hkept, numberCursors, List.forall₂_map_right_iff,
      List.forall₂_same]
    intro number hnumber
    rw [List.mem_range'_1] at hnumber
    exact ⟨by omega, _, rfl, Cursor.decodeOffset_encodeOffset (by omega)⟩
  edges := getD_edges_showing _ _ _ _
  more := more_showing _ _ _ _

/-- A page of numbered rows is made of any rows whose cursor leads to a number, and of no
others.  It shows the first of the rows as they are: no more than asked for, and none whose
number is not below the total.  No sum on the way leaves 64 bits, and more rows follow
exactly if the total is not reached. -/
theorem numbered_page_in_bounds (args : PageArguments) (rows : List Json) :
    ((∃ connection, Connection.overOrdering args rows = .ok connection) ↔
      ∃ offset, StartsAt args.after offset) ∧
    ∀ connection, Connection.overOrdering args rows = .ok connection →
      ∃ offset, StartsAt args.after offset ∧
        ShowsNumbered rows offset (keptOf args rows offset) (Connection.totalOfRows rows)
          connection := by
  have hstarts {connection : Json} (h : Connection.overOrdering args rows = .ok connection) :
      ∃ offset, StartsAt args.after offset := by
    cases hstart : startAfter args.after with
    | error error => simp [Connection.overOrdering, hstart, bind, Except.bind] at h
    | ok offset => exact ⟨offset, startAfter_eq_ok_iff.mp hstart⟩
  constructor
  · constructor
    · rintro ⟨connection, h⟩
      exact hstarts h
    · rintro ⟨offset, hoffset⟩
      exact ⟨_, overOrdering_eq_showing_kept hoffset rows⟩
  · intro connection h
    obtain ⟨offset, hoffset⟩ := hstarts h
    rw [overOrdering_eq_showing_kept hoffset rows] at h
    refine ⟨offset, hoffset, Except.ok.inj h ▸ showsNumbered_showing ?_ hoffset.lt ?_ ?_⟩
    · exact Connection.totalOfRows_lt rows
    · rw [keptOf]
      omega
    · rw [keptOf]
      omega

/-- Rows that tell different totals, the first of them as a text. -/
def farRows : List Json :=
  [.object [(totalColumn, .string "18446744073709551615"), ("id", .ofNat 1)],
    .object [(totalColumn, .ofNat 7), ("id", .ofNat 2)],
    .object [("id", .ofNat 3)]]

def farArguments : PageArguments where
  first := some 10
  last := none
  after := some (Cursor.encodeOffset (countLimit - 4))
  before := none

theorem numbered_page_in_bounds_far :
    ∃ connection, Connection.overOrdering farArguments farRows = .ok connection ∧
      ShowsNumbered farRows (countLimit - 3) 2 (countLimit - 1) connection := by
  have hstart : StartsAt farArguments.after (countLimit - 3) :=
    .after (Cursor.decodeOffset_encodeOffset (by decide)) (by decide)
  obtain ⟨hserves, hshows⟩ := numbered_page_in_bounds farArguments farRows
  obtain ⟨connection, hconnection⟩ := hserves.mpr ⟨_, hstart⟩
  obtain ⟨offset, hoffset, hpage⟩ := hshows connection hconnection
  rw [← startAfter_eq_ok_iff] at hstart hoffset
  obtain rfl := Except.ok.inj (hstart.symm.trans hoffset)
  exact ⟨connection, hconnection, hpage⟩

end Paging

end JoinPlan
