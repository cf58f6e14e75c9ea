import JoinPlan.Proofs.Failure
import JoinPlan.Proofs.Json.CountText
import JoinPlan.Proofs.Json.Plain
import JoinPlan.Proofs.Paging.NumberedWalk

/-!
# What cursors are read as

The cursor of an object is judged by the object's keys: it is accepted if they are the
columns of the sort key, and refused for its first key that is no column, or, if there is
none, for the first column that is no key.  Cursors come back from clients, who may have
made them up: whatever they hold, an accepted sort key has the columns for its keys, and
the accepted numbers of rows are exactly those that the cursor writes out.
-/

namespace JoinPlan.Cursor

variable {columns : List String} {values : Object}

/-- The keys of the values are the columns, in any order. -/
def SameColumns (columns : List String) (values : Object) : Prop :=
  ∀ key, key ∈ Assoc.keys values ↔ key ∈ columns

/-- What becomes of the values that a cursor holds, for the columns of a sort key. -/
inductive Judged (columns : List String) (values : Object) : Except RequestError Object → Prop
  | accepted (hsame : SameColumns columns values) : Judged columns values (.ok values)
  | extra {key : String} (hkey : key ∈ Assoc.keys values) (hextra : key ∉ columns)
      (hfirst : ∀ other ∈ Assoc.keys values, other ∉ columns → key ≤ other) :
      Judged columns values (.error (.cursorKeyNotInSortKey key))
  | missing {column : String} {before after : List String}
      (hknown : ∀ key ∈ Assoc.keys values, key ∈ columns)
      (hcolumns : columns = before ++ column :: after) (hmissing : column ∉ Assoc.keys values)
      (hfirst : ∀ earlier ∈ before, earlier ∈ Assoc.keys values) :
      Judged columns values (.error (.cursorMissingKey column))

/-! ### Keys against columns -/

theorem contains_iff {column : String} :
    Assoc.contains column values = true ↔ column ∈ Assoc.keys values :=
  Assoc.isSome_get?_iff

/-- Of keys in increasing order the one found first is the least. -/
theorem le_of_find? {keys : List String} {p : String → Bool} {key other : String}
    (hsorted : keys.Pairwise (· < ·)) (hfind : keys.find? p = some key) (hmem : other ∈ keys)
    (hother : p other = true) : key ≤ other := by
  obtain ⟨-, before, after, rfl, hbefore⟩ := List.find?_eq_some_iff_append.mp hfind
  rcases List.mem_append.mp hmem with hmem | hmem
  · have hnot := hbefore other hmem
    rw [hother] at hnot
    contradiction
  · rcases List.mem_cons.mp hmem with rfl | hmem
    · exact String.le_refl other
    · have htail := (List.pairwise_append.mp hsorted).2.1
      exact String.lt_asymm (List.rel_of_pairwise_cons htail hmem)

/-- The values of an object are judged by its keys. -/
theorem judged_checkColumns (hsorted : Assoc.Increasing values) (columns : List String) :
    Judged columns values (checkColumns columns values) := by
  rw [checkColumns]
  split
  · rename_i extra hextra
    refine .extra (List.mem_of_find?_eq_some hextra) (by simpa using List.find?_some hextra) ?_
    intro other hother hunknown
    exact le_of_find? (List.pairwise_map.mpr hsorted) hextra hother (by simpa using hunknown)
  · rename_i hknown
    have hkeys : ∀ key ∈ Assoc.keys values, key ∈ columns := by
      simpa using List.find?_eq_none.mp hknown
    split
    · rename_i missing hmissing
      obtain ⟨hnot, before, after, hcolumns, hbefore⟩ := List.find?_eq_some_iff_append.mp hmissing
      refine .missing hkeys hcolumns ?_ fun earlier hearlier => contains_iff.mp ?_
      · rw [← contains_iff]
        simpa using hnot
      · simpa using hbefore earlier hearlier
    · rename_i hall
      refine .accepted fun key => ⟨hkeys key, fun hcolumn => contains_iff.mp ?_⟩
      simpa using List.find?_eq_none.mp hall key hcolumn

theorem find?_of_missing {column : String} {before after : List String}
    (hcolumns : columns = before ++ column :: after) (hmissing : column ∉ Assoc.keys values)
    (hfirst : ∀ earlier ∈ before, earlier ∈ Assoc.keys values) :
    columns.find? (fun column => decide (column ∉ Assoc.keys values)) = some column := by
  apply List.find?_eq_some_iff_append.mpr
  refine ⟨by simpa using hmissing, before, after, hcolumns, fun earlier hearlier => ?_⟩
  simpa using hfirst earlier hearlier

/-- Values are judged in one way only. -/
theorem Judged.unique {first second : Except RequestError Object}
    (hfirst : Judged columns values first) (hsecond : Judged columns values second) :
    first = second := by
  cases hfirst with
  | accepted hsame =>
      cases hsecond with
      | accepted => rfl
      | extra hkey hextra => exact absurd ((hsame _).mp hkey) hextra
      | missing _ hcolumns hmissing =>
          exact absurd ((hsame _).mpr (by simp [hcolumns])) hmissing
  | extra hkey hextra hleast =>
      cases hsecond with
      | accepted hsame => exact absurd ((hsame _).mp hkey) hextra
      | extra hkey' hextra' hleast' =>
          rw [String.le_antisymm (hleast _ hkey' hextra') (hleast' _ hkey hextra)]
      | missing hknown => exact absurd (hknown _ hkey) hextra
  | missing hknown hcolumns hmissing hearlier =>
      cases hsecond with
      | accepted hsame => exact absurd ((hsame _).mpr (by simp [hcolumns])) hmissing
      | extra hkey hextra => exact absurd (hknown _ hkey) hextra
      | missing _ hcolumns' hmissing' hearlier' =>
          have hfound := find?_of_missing hcolumns hmissing hearlier
          rw [find?_of_missing hcolumns' hmissing' hearlier', Option.some.injEq] at hfound
          rw [hfound]

theorem sameColumns_of_judged {result : Object} (h : Judged columns values (.ok result)) :
    SameColumns columns result := by
  cases h with
  | accepted hsame => exact hsame

/-! ### Cursors that are made up -/

theorem decode_eq_ok_iff {cursor : String} {value : Json} :
    decode cursor = .ok value ↔
      ∃ text, cursor = Text.Base64.encodeText text ∧ Json.parse? text = some value := by
  have hdecode : decode cursor = .ok value ↔
      (Text.Base64.decodeText? cursor).bind Json.parse? = some value := by
    rw [decode]
    cases (Text.Base64.decodeText? cursor).bind Json.parse? <;> simp
  simp only [hdecode, Option.bind_eq_some_iff, Text.Base64.decodeText?_eq_some_iff]

/-- What a text is read as has sorted members. -/
theorem increasing_of_decode {cursor : String} (h : decode cursor = .ok (.object values)) :
    Assoc.Increasing values := by
  obtain ⟨text, -, hparse⟩ := decode_eq_ok_iff.mp h
  obtain ⟨read, -, hread⟩ := Option.map_eq_some_iff.mp hparse
  exact (Json.plain_object.mp (hread ▸ Json.plain_canonical read)).1

theorem sameColumns_of_decodeSortKey {cursor : String}
    (h : decodeSortKey cursor columns = .ok values) : SameColumns columns values := by
  obtain ⟨value, hdecode, hchecked⟩ := bind_eq_ok.mp h
  cases value with
  | object read =>
      have hjudged := judged_checkColumns (increasing_of_decode hdecode) columns
      have hok : checkColumns columns read = .ok values := hchecked
      exact sameColumns_of_judged (hok ▸ hjudged)
  | _ => contradiction

theorem decodeOffset_eq_ok_iff {cursor : String} {offset : Nat} :
    decodeOffset cursor = .ok offset ↔
      offset < countLimit ∧
        ∃ text, Json.WritesCount offset text ∧ cursor = Text.Base64.encodeText text := by
  have hdecode : decodeOffset cursor = .ok offset ↔
      ∃ value, decode cursor = .ok value ∧ value.count? = some offset := by
    rw [decodeOffset, bind_eq_ok]
    refine exists_congr fun value => and_congr_right fun _ => ?_
    cases value.count? <;> simp
  rw [hdecode]
  constructor
  · rintro ⟨value, hvalue, hcount⟩
    obtain ⟨text, hcursor, hparse⟩ := decode_eq_ok_iff.mp hvalue
    have hread : (Json.parse? text).bind Json.count? = some offset := by
      rw [hparse, Option.bind_some, hcount]
    obtain ⟨hlimit, hwrites⟩ := Json.parse?_count_iff.mp hread
    exact ⟨hlimit, text, hwrites, hcursor⟩
  · rintro ⟨hlimit, text, hwrites, hcursor⟩
    obtain ⟨value, hparse, hcount⟩ :=
      Option.bind_eq_some_iff.mp (Json.parse?_count_iff.mpr ⟨hlimit, hwrites⟩)
    exact ⟨value, decode_eq_ok_iff.mpr ⟨text, hcursor, hparse⟩, hcount⟩

/-! ### The codec -/

/-- Reading undoes writing, for objects with the columns of the sort key and for the numbers
of rows.  Other objects are refused, each for its own first mistake; and what a cursor that
is made up is read as has the columns of the sort key, or is the number it writes out. -/
theorem cursor_codec (columns : List String) :
    (∀ values : Object, (Json.object values).Plain →
      Json.Legible Json.nestingLimit .whole (.object values) →
      (∀ outcome, decodeSortKey (encode (.object values)) columns = outcome ↔
        Judged columns values outcome)) ∧
    (∀ cursor values, decodeSortKey cursor columns = .ok values → SameColumns columns values) ∧
    (∀ cursor offset, decodeOffset cursor = .ok offset ↔
      offset < countLimit ∧
        ∃ text, Json.WritesCount offset text ∧ cursor = Text.Base64.encodeText text) ∧
    (∀ offset < countLimit, decodeOffset (encodeOffset offset) = .ok offset) := by
  refine ⟨fun values hplain hlegible outcome => ?_, fun _ _ => sameColumns_of_decodeSortKey,
    fun _ _ => decodeOffset_eq_ok_iff, fun _ => decodeOffset_encodeOffset⟩
  have hread : decodeSortKey (encode (.object values)) columns = checkColumns columns values := by
    rw [decodeSortKey, decode_encode (hplain.readsBack hlegible)]
    rfl
  have hjudged := judged_checkColumns (Json.plain_object.mp hplain).1 columns
  rw [hread]
  exact ⟨fun h => h ▸ hjudged, hjudged.unique⟩

/-- The values of one row's sort key. -/
def keyOfOneRow : Object :=
  [("created_at", .string "2024-05-01"), ("id", .ofNat (countLimit - 1)), ("tag", .null)]

/-- A row's values are read back under the columns in any order; without one of the columns
they are refused for the first key that is left over. -/
theorem keyOfOneRow_read :
    (Json.object keyOfOneRow).Plain ∧
      Json.Legible Json.nestingLimit .whole (.object keyOfOneRow) ∧
      decodeSortKey (encode (.object keyOfOneRow)) ["id", "tag", "created_at"] =
        .ok keyOfOneRow ∧
      decodeSortKey (encode (.object keyOfOneRow)) ["name", "id"] =
        .error (.cursorKeyNotInSortKey "created_at") ∧
      decodeSortKey (encode (.object keyOfOneRow)) ["created_at", "id", "name", "tag"] =
        .error (.cursorMissingKey "name") ∧
      decodeOffset (encodeOffset (countLimit - 1)) = .ok (countLimit - 1) := by
  have hplain : (Json.object keyOfOneRow).Plain := by rfl
  have hlegible : Json.Legible Json.nestingLimit .whole (.object keyOfOneRow) := by
    intro member hmember
    refine ⟨.whole, rfl, ?_⟩
    simp only [keyOfOneRow, List.mem_cons, List.not_mem_nil, or_false] at hmember
    rcases hmember with rfl | rfl | rfl
    · exact Json.legible_string _ _ _
    · exact Json.legible_ofNat _ _ (by decide)
    · trivial
  have hread := fun columns => (cursor_codec columns).1 keyOfOneRow hplain hlegible
  have hsplit : ["created_at", "id", "name", "tag"] = ["created_at", "id"] ++ "name" :: ["tag"] :=
    rfl
  refine ⟨hplain, hlegible, (hread _ _).mpr (.accepted ?_), (hread _ _).mpr (.extra ?_ ?_ ?_),
    (hread _ _).mpr (.missing ?_ hsplit ?_ ?_), (cursor_codec []).2.2.2 _ (by decide)⟩
  · intro key
    simp only [keyOfOneRow, Assoc.keys, List.map_cons, List.map_nil, List.mem_cons,
      List.not_mem_nil, or_false]
    tauto
  all_goals decide

end JoinPlan.Cursor
