import JoinPlan.Data.Connection
import JoinPlan.Proofs.Json.ReadsBack
import JoinPlan.Proofs.Text.Base64

/-!
# Cursors read back

A cursor gives back the value it was made of.  The cursor of a row therefore holds
exactly the columns of the sort key, each with the row's value.
-/

namespace JoinPlan

namespace Cursor

theorem decode_encode {value : Json} (h : value.ReadsBack) : decode (encode value) = .ok value := by
  rw [decode, encode, Text.Base64.decodeText?_encodeText, Option.bind_some, h]

theorem checkColumns_eq_ok {columns : List String} {values : Object}
    (hknown : ∀ entry ∈ values, entry.1 ∈ columns)
    (hall : ∀ column ∈ columns, Assoc.contains column values = true) :
    checkColumns columns values = .ok values := by
  have hextra : (Assoc.keys values).find? (fun key => !columns.contains key) = none := by
    apply List.find?_eq_none.mpr
    intro key hkey
    obtain ⟨entry, hentry, rfl⟩ := List.mem_map.mp hkey
    simpa using hknown entry hentry
  have hmissing : columns.find? (fun column => !Assoc.contains column values) = none := by
    apply List.find?_eq_none.mpr
    intro column hcolumn
    simp [hall column hcolumn]
  rw [checkColumns, hextra, hmissing]

end Cursor

namespace Connection

/-- The values of a row's sort key, as a cursor holds them. -/
def keyValues (columns : List String) (row : Json) : Object :=
  Assoc.sorted (columns.map fun column => (column, row.getD column))

theorem get?_keyValues {columns : List String} (row : Json) {column : String}
    (hcolumn : column ∈ columns) :
    Assoc.get? column (keyValues columns row) = some (row.getD column) :=
  Assoc.get?_sorted_map row.getD hcolumn

/-- Each value of the sort key reads back from its text as a cursor holds it. -/
def KeyReadsBack (columns : List String) (row : Json) : Prop :=
  ∀ column ∈ columns, (Json.object [(column, row.getD column)]).ReadsBack

theorem decodeSortKey_keyOf {columns : List String} {row : Json}
    (h : KeyReadsBack columns row) :
    Cursor.decodeSortKey (Cursor.encode (keyOf columns row)) columns =
      .ok (keyValues columns row) := by
  have hreads : (keyOf columns row).ReadsBack := by
    apply Json.readsBack_ofMembers
    intro member hmember
    obtain ⟨column, hcolumn, rfl⟩ := List.mem_map.mp hmember
    exact h column hcolumn
  have hchecked : Cursor.checkColumns columns (keyValues columns row) =
      .ok (keyValues columns row) := by
    apply Cursor.checkColumns_eq_ok
    · intro entry hentry
      obtain ⟨column, hcolumn, rfl⟩ := List.mem_map.mp (Assoc.mem_of_mem_sorted hentry)
      exact hcolumn
    · intro column hcolumn
      rw [Assoc.contains, get?_keyValues row hcolumn]
      rfl
  rw [Cursor.decodeSortKey, Cursor.decode_encode hreads]
  exact hchecked

end Connection

end JoinPlan
