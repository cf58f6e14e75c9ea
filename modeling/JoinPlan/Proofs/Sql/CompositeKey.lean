import JoinPlan.Data.Nest
import JoinPlan.Proofs.Grouping
import JoinPlan.Proofs.Json.Injective
import JoinPlan.Proofs.Sql.Evaluation
import JoinPlan.Proofs.Sql.Formula
import JoinPlan.Proofs.Sql.Literals
import Mathlib.Data.List.ReduceOption

/-!
# Keys of several columns

The columns of a key are selected as one value, their texts written one after the other
with nothing between them.  Where a text goes on as another begins, different keys have
one value, and the nested data has one object for them.  Keys are told apart if, in every
column but the last, no text is the beginning of another: then the first column can be
read off the value, and so the next.
-/

namespace JoinPlan

/-- The rows of one object have one value under the alias of its first property. -/
theorem Shape.cell_eq_of_mem_groups {name aliasName : String} {rest : List (String × Property)}
    {rows group : List Row}
    (hgroup : group ∈ Shape.groups ((name, .column aliasName) :: rest) rows) {row other : Row}
    (hrow : row ∈ group) (hother : other ∈ group) :
    Shape.cell row aliasName = Shape.cell other aliasName := by
  obtain ⟨⟨key, members⟩, hentry, rfl⟩ := List.mem_map.mp hgroup
  have htext {row : Row} (hrow : row ∈ members) :
      (Shape.cell row aliasName).text = key := by
    have hkey := Assoc.key?_of_mem_group hentry hrow
    simp only [Shape.identityText?, Shape.identity?] at hkey
    split at hkey
    · contradiction
    · exact Option.some.inj hkey
  exact Json.text_injective ((htext hrow).trans (htext hother).symm)

namespace Sql

variable {dialect : Dialect}

/-! ### The value of an expression -/

/-- The texts of a row's columns, by table and name; nothing for null. -/
abbrev Cells := String → String → Option String

/-- Texts one after the other; null if one of them is. -/
def joined? (values : List (Option String)) : Option String := (values.mapM id).map String.join

/-- What CONCAT makes of its arguments: PostgreSQL leaves nulls out. -/
def concat (dialect : Dialect) (arguments : List (Option String)) : Option String :=
  if dialect = .postgres then some (String.join arguments.reduceOption) else joined? arguments

/-- What NULLIF makes of its arguments. -/
def nullIf : List (Option String) → Option (Option String)
  | [first, second] => some (if first = second then none else first)
  | _ => none

/-- The values of the arguments of a function. -/
def readArguments (dialect : Dialect) (readInner : List Token → Option (Option String))
    (list : List Token) : Option (List (Option String)) :=
  (inside? list).bind fun inner =>
    (splitTop dialect (.mark ",") [] inner).bind fun parts => parts.mapM readInner

/-- The value of a column, a text, CONCAT or NULLIF. -/
def readOperand (dialect : Dialect) (cells : Cells)
    (readInner : List Token → Option (Option String)) : List Token → Option (Option String)
  | [.name table, .mark ".", .name name] => some (cells table name)
  | [.text text] => some (some text)
  | .word "CONCAT" :: rest => (readArguments dialect readInner rest).map (concat dialect)
  | .word "NULLIF" :: rest => (readArguments dialect readInner rest).bind nullIf
  | _ => none

/-- The value of an expression of fewer tokens than the bound.  MySQL has no operator that
joins texts. -/
def valueWithin (dialect : Dialect) (cells : Cells) : Nat → List Token → Option (Option String)
  | 0, _ => none
  | bound + 1, list =>
      match splitTop dialect (.mark "||") [] list with
      | none => none
      | some [operand] => readOperand dialect cells (valueWithin dialect cells bound) operand
      | some operands =>
          if dialect = .mysql then none
          else (operands.mapM (valueWithin dialect cells bound)).map joined?

/-- The value of an expression for a row; an outer `none` if it cannot be read. -/
def value? (dialect : Dialect) (cells : Cells) (text : List Char) : Option (Option String) :=
  (tokens dialect text).bind fun list => valueWithin dialect cells (list.length + 1) list

/-! ### The value of a key -/

section Value

variable (cells : Cells) (bound : Nat) (table : String)

theorem splitTop_columnTokens {separator : Token}
    (hseparator : separator = .mark "," ∨ separator = .mark "||") (name : String) :
    splitTop dialect separator [] (columnTokens table name) =
      some [columnTokens table name] := by
  rcases hseparator with rfl | rfl <;> cases dialect <;> rfl

theorem valueWithin_columnTokens (name : String) :
    valueWithin dialect cells (bound + 1) (columnTokens table name) = some (cells table name) := by
  rw [valueWithin, splitTop_columnTokens table (Or.inr rfl)]
  rfl

theorem mapM_valueWithin (columns : List String) :
    (columns.map (columnTokens table)).mapM (valueWithin dialect cells (bound + 1)) =
      some (columns.map (cells table)) := by
  have heach : valueWithin dialect cells (bound + 1) ∘ columnTokens table =
      fun name => pure (cells table name) := by
    funext name
    exact valueWithin_columnTokens cells bound table name
  rw [List.mapM_map, heach, List.mapM_pure]
  rfl

/-- A call is one operand and one argument. -/
theorem splitTop_call {word : String} {inner : List Token} {parts : List (List Token)}
    (hinner : splitTop dialect (.mark ",") [] inner = some parts)
    (hword : isPlain dialect (.word word) = true) {separator : Token}
    (hseparator : separator = .mark "," ∨ separator = .mark "||") :
    splitTop dialect separator [] (.word word :: parenthesised inner) =
      some [.word word :: parenthesised inner] := by
  simp only [isPlain, Bool.and_eq_true, Bool.not_eq_true', Option.isNone_iff_eq_none] at hword
  obtain ⟨⟨⟨hopener, hcloser⟩, hforeign⟩, -⟩ := hword
  have hne : Token.word word ≠ separator ∧ Token.mark "(" ≠ separator := by
    rcases hseparator with rfl | rfl <;> simp
  rw [splitTop_cons ⟨hopener, hcloser⟩ hforeign hne.1,
    splitTop_parenthesised hinner ⟨rfl, rfl⟩ hne.2]
  rfl

theorem readArguments_parenthesised {inner : List Token} {parts : List (List Token)}
    (hinner : splitTop dialect (.mark ",") [] inner = some parts)
    (readInner : List Token → Option (Option String)) :
    readArguments dialect readInner (parenthesised inner) = parts.mapM readInner := by
  have hinside : inside? (parenthesised inner) = some inner := by simp [inside?, parenthesised]
  rw [readArguments, hinside, Option.bind_some, hinner, Option.bind_some]

theorem valueWithin_concat {columns : List String} {inner : List Token}
    (hinner : splitTop dialect (.mark ",") [] inner = some (columns.map (columnTokens table))) :
    valueWithin dialect cells (bound + 2) (.word "CONCAT" :: parenthesised inner) =
      some (concat dialect (columns.map (cells table))) := by
  rw [valueWithin, splitTop_call hinner (by cases dialect <;> decide) (Or.inr rfl)]
  simp only [readOperand]
  rw [readArguments_parenthesised hinner, mapM_valueWithin]
  rfl

/-- What each dialect makes of the values of a key's columns. -/
def compositeValue (dialect : Dialect) (values : List (Option String)) : Option String :=
  match dialect with
  | .postgres =>
      if String.join values.reduceOption = "" then none
      else some (String.join values.reduceOption)
  | .mysql | .sqlite => joined? values

theorem valueWithin_nullIf {columns : List String} {inner : List Token}
    (hinner : splitTop .postgres (.mark ",") [] inner = some (columns.map (columnTokens table))) :
    valueWithin .postgres cells (bound + 3) (.word "NULLIF" :: parenthesised
        (.word "CONCAT" :: (parenthesised inner ++ [.mark ",", .text ""]))) =
      some (compositeValue .postgres (columns.map (cells table))) := by
  have hconcat : splitTop .postgres (.mark ",") [] (.word "CONCAT" :: parenthesised inner) =
      some [.word "CONCAT" :: parenthesised inner] :=
    splitTop_call hinner (by decide) (Or.inl rfl)
  have htext : splitTop .postgres (.mark ",") [] [.text ""] = some [[.text ""]] := rfl
  have harguments : splitTop .postgres (.mark ",") []
      (.word "CONCAT" :: (parenthesised inner ++ [.mark ",", .text ""])) =
        some [.word "CONCAT" :: parenthesised inner, [.text ""]] := splitTop_separator hconcat htext
  have hempty : valueWithin .postgres cells (bound + 2) [.text ""] = some (some "") := rfl
  rw [valueWithin, splitTop_call harguments (by decide) (Or.inr rfl)]
  simp only [readOperand]
  rw [readArguments_parenthesised harguments, List.mapM_cons,
    valueWithin_concat cells bound table hinner, List.mapM_cons, hempty]
  simp [nullIf, concat, compositeValue]

/-- The value of a key's columns is what the dialect makes of theirs. -/
theorem value?_compositeKey {columns : List String} (hcolumns : 2 ≤ columns.length) :
    value? dialect cells ((Expression.compositeKey table columns).render dialect).toList =
      some (compositeValue dialect (columns.map (cells table))) := by
  obtain ⟨first, second, rest, rfl⟩ : ∃ first second rest, columns = first :: second :: rest := by
    match columns, hcolumns with
    | first :: second :: rest, _ => exact ⟨first, second, rest, rfl⟩
  have hsplit {separator : Token} (hseparator : separator = .mark "," ∨ separator = .mark "||") :
      splitTop dialect separator []
          ([separator].intercalate ((first :: second :: rest).map (columnTokens table))) =
        some ((first :: second :: rest).map (columnTokens table)) := by
    apply splitTop_intercalate (by simp)
    intro list hlist
    obtain ⟨name, -, rfl⟩ := List.mem_map.mp hlist
    exact splitTop_columnTokens table hseparator name
  rw [value?, Expression.render, tokens_eq_some_iff.mpr (lexed_compositeKey dialect table _),
    Option.bind_some]
  cases dialect with
  | postgres => exact valueWithin_nullIf cells _ table (hsplit (Or.inl rfl))
  | mysql => exact valueWithin_concat cells _ table (hsplit (Or.inl rfl))
  | sqlite =>
      have hlength : (compositeTokens .sqlite
          ((first :: second :: rest).map (columnTokens table))).length ≠ 0 := by
        simp [compositeTokens, columnTokens]
      obtain ⟨bound, hbound⟩ := Nat.exists_eq_add_one_of_ne_zero hlength
      rw [hbound, compositeTokens, valueWithin, hsplit (Or.inr rfl), List.map_cons, List.map_cons]
      simp only [reduceCtorEq, if_false]
      rw [← List.map_cons, ← List.map_cons, mapM_valueWithin]
      rfl

end Value

/-! ### Keys that are told apart -/

/-- Lists of which none but the last is the beginning of another are read off what they
make together. -/
theorem eq_of_flatMap_eq {A B : Type} {items : List A} {first second : A → List B}
    (hends : ∀ item ∈ items.dropLast,
      first item <+: second item ∨ second item <+: first item → first item = second item)
    (h : items.flatMap first = items.flatMap second) :
    ∀ item ∈ items, first item = second item := by
  induction items with
  | nil => simp
  | cons item rest ih =>
      cases rest with
      | nil => simpa using h
      | cons next rest =>
          rw [List.flatMap_cons, List.flatMap_cons] at h
          have hsecond : second item <+: first item ++ (next :: rest).flatMap first :=
            h ▸ List.prefix_append _ _
          have hitem := hends item (by simp)
            (List.prefix_or_prefix_of_prefix (List.prefix_append _ _) hsecond)
          have hrest := ih (fun later hlater => hends later (by simp_all))
            (List.append_cancel_left (hitem ▸ h))
          exact List.forall_mem_cons.mpr ⟨hitem, hrest⟩

/-- Keys without nulls have one value if and only if their texts make one text. -/
theorem compositeValue_eq_iff (dialect : Dialect) (first second : List String) :
    compositeValue dialect (first.map some) = compositeValue dialect (second.map some) ↔
      String.join first = String.join second := by
  have hpresent (texts : List String) : (texts.map some).reduceOption = texts := by
    simp [List.reduceOption]
  have hjoined (texts : List String) : joined? (texts.map some) = some (String.join texts) := by
    rw [joined?, List.mapM_map]
    have heach : texts.mapM (fun text => some text) = some texts :=
      List.mapM_pure.trans (by simp)
    exact congrArg (Option.map String.join) heach
  cases dialect with
  | postgres =>
      simp only [compositeValue, hpresent]
      split <;> split <;> simp_all
  | mysql | sqlite => simp [compositeValue, hjoined]

/-- The texts a database writes for the columns of a row. -/
def Bindings.texts (written : Json → String) (row : Bindings) : Cells := fun table name =>
  if (row.column table name).isNull then none else some (written (row.column table name))

/-- The value of a key for a row. -/
def keyValue? (dialect : Dialect) (written : Json → String) (table : String)
    (columns : List String) (row : Bindings) : Option (Option String) :=
  value? dialect (row.texts written) ((Expression.compositeKey table columns).render dialect).toList

/-- What makes a key tell rows apart: none of its values is null, those of one column differ
in their texts, and in every column but the last no text is the beginning of another. -/
structure ToldApart (written : Json → String) (table : String) (columns : List String)
    (rows : List Bindings) : Prop where
  present : ∀ row ∈ rows, ∀ name ∈ columns, row.column table name ≠ .null
  injective : ∀ row ∈ rows, ∀ other ∈ rows, ∀ name ∈ columns,
    written (row.column table name) = written (other.column table name) →
      row.column table name = other.column table name
  endsByItself : ∀ row ∈ rows, ∀ other ∈ rows, ∀ name ∈ columns.dropLast,
    (written (row.column table name)).toList <+: (written (other.column table name)).toList →
      written (row.column table name) = written (other.column table name)

section ToldApart

variable {written : Json → String} {table : String} {columns : List String} {rows : List Bindings}

/-- The key's value is the texts of its columns one after the other. -/
theorem keyValue?_eq_iff (hcolumns : 2 ≤ columns.length) {row other : Bindings}
    (hrow : ∀ name ∈ columns, row.column table name ≠ .null)
    (hother : ∀ name ∈ columns, other.column table name ≠ .null) :
    keyValue? dialect written table columns row = keyValue? dialect written table columns other ↔
      String.join (columns.map fun name => written (row.column table name)) =
        String.join (columns.map fun name => written (other.column table name)) := by
  have htexts {row : Bindings} (hrow : ∀ name ∈ columns, row.column table name ≠ .null) :
      columns.map (row.texts written table) =
        (columns.map fun name => written (row.column table name)).map some := by
    rw [List.map_map]
    apply List.map_congr_left
    intro name hname
    have hpresent : (row.column table name).isNull = false := by
      cases hvalue : row.column table name with
      | null => exact absurd hvalue (hrow name hname)
      | _ => rfl
    simp [Bindings.texts, hpresent]
  rw [keyValue?, keyValue?, value?_compositeKey _ _ hcolumns, value?_compositeKey _ _ hcolumns,
    Option.some_inj, htexts hrow, htexts hother, compositeValue_eq_iff]

/-- Rows with one value of the key have the same values in its columns. -/
theorem ToldApart.eq_of_keyValue?_eq (htold : ToldApart written table columns rows)
    (hcolumns : 2 ≤ columns.length) {row other : Bindings} (hrow : row ∈ rows)
    (hother : other ∈ rows)
    (heq : keyValue? dialect written table columns row =
      keyValue? dialect written table columns other) :
    ∀ name ∈ columns, row.column table name = other.column table name := by
  have hjoin := (keyValue?_eq_iff hcolumns (htold.present row hrow)
    (htold.present other hother)).mp heq
  have hchars := congrArg String.toList hjoin
  rw [String.toList_join, String.toList_join, List.flatMap_map, List.flatMap_map] at hchars
  have hlists := eq_of_flatMap_eq (fun name hname hprefix => by
    rcases hprefix with hprefix | hprefix
    · exact congrArg _ (htold.endsByItself row hrow other hother name hname hprefix)
    · exact (congrArg _ (htold.endsByItself other hother row hrow name hname hprefix)).symm) hchars
  intro name hname
  exact htold.injective row hrow other hother name hname
    (String.toList_injective (hlists name hname))

/-- Rows whose keys have texts that are told apart are told apart by the key's value, and
nesting gives no two of them one object. -/
theorem composite_key_identifies (dialect : Dialect) (hcolumns : 2 ≤ columns.length)
    (htold : ToldApart written table columns rows) :
    (∀ row ∈ rows, ∀ other ∈ rows,
      (∃ name ∈ columns, row.column table name ≠ other.column table name) →
      ∃ value otherValue, keyValue? dialect written table columns row = some value ∧
        keyValue? dialect written table columns other = some otherValue ∧ value ≠ otherValue) ∧
    ∀ (name aliasName : String) (rest : List (String × Property))
      (fetched : List (Bindings × Row)),
      (∀ entry ∈ fetched, entry.1 ∈ rows ∧
        ∃ value, keyValue? dialect written table columns entry.1 = some value ∧
          Shape.cell entry.2 aliasName = (value.map Json.string).getD .null) →
      ∀ group ∈ Shape.groups ((name, .column aliasName) :: rest) (fetched.map Prod.snd),
      ∀ first ∈ fetched, ∀ second ∈ fetched, first.2 ∈ group → second.2 ∈ group →
      ∀ name ∈ columns, first.1.column table name = second.1.column table name := by
  have hvalue (row : Bindings) :
      keyValue? dialect written table columns row =
        some (compositeValue dialect (columns.map (row.texts written table))) :=
    value?_compositeKey _ _ hcolumns
  constructor
  · rintro row hrow other hother ⟨name, hname, hne⟩
    refine ⟨_, _, hvalue row, hvalue other, fun heq => hne ?_⟩
    have hkeys : keyValue? dialect written table columns row =
        keyValue? dialect written table columns other := by
      rw [hvalue row, hvalue other, heq]
    exact htold.eq_of_keyValue?_eq hcolumns hrow hother hkeys name hname
  · intro name aliasName rest fetched hfetched group hgroup first hfirst second hsecond
      hfirstIn hsecondIn
    obtain ⟨hfirstRow, value, hfirstValue, hfirstCell⟩ := hfetched first hfirst
    obtain ⟨hsecondRow, otherValue, hsecondValue, hsecondCell⟩ := hfetched second hsecond
    apply htold.eq_of_keyValue?_eq hcolumns hfirstRow hsecondRow
    have hcells := Shape.cell_eq_of_mem_groups hgroup hfirstIn hsecondIn
    rw [hfirstCell, hsecondCell] at hcells
    rw [hfirstValue, hsecondValue]
    cases value <;> cases otherValue <;> simp_all

end ToldApart

/-- A text as it is, another value as its literal. -/
def plainText : Json → String
  | .string text => text
  | value => value.text

/-- A ticket for a seat in a hall. -/
def ticket (hall seat : String) : Bindings :=
  [("tickets", [("hall", .string hall), ("seat", .string seat)])]

@[simp]
theorem ticket_hall (hall seat : String) :
    (ticket hall seat).column "tickets" "hall" = .string hall := rfl

@[simp]
theorem ticket_seat (hall seat : String) :
    (ticket hall seat).column "tickets" "seat" = .string seat := rfl

/-- Halls whose names are equally long are told apart from the seats that follow them. -/
theorem toldApart_tickets (letters : Nat) (tickets : List (String × String))
    (hletters : ∀ entry ∈ tickets, entry.1.toList.length = letters) :
    ToldApart plainText "tickets" ["hall", "seat"]
      (tickets.map fun entry => ticket entry.1 entry.2) where
  present := by
    simp only [List.forall_mem_map]
    simp
  injective := by
    simp only [List.forall_mem_map]
    simp [plainText]
  endsByItself := by
    simp only [List.forall_mem_map]
    rintro ⟨hall, seat⟩ hentry ⟨other, otherSeat⟩ hother name hname hprefix
    obtain rfl : name = "hall" := by simpa using hname
    apply String.toList_injective
    exact hprefix.eq_of_length ((hletters _ hentry).trans (hletters _ hother).symm)

theorem composite_key_identifies_tickets :
    (∃ value otherValue,
      keyValue? .sqlite plainText "tickets" ["hall", "seat"] (ticket "A" "12") = some value ∧
      keyValue? .sqlite plainText "tickets" ["hall", "seat"] (ticket "A" "1") = some otherValue ∧
      value ≠ otherValue) ∧
    ∀ group ∈ Shape.groups [("hal#sea", .column "hal#sea")]
        [[("hal#sea", .string "A12")], [("hal#sea", .string "A1")]],
      [("hal#sea", .string "A12")] ∉ group ∨ [("hal#sea", .string "A1")] ∉ group := by
  have htold := toldApart_tickets 1 [("A", "12"), ("A", "1")] (by decide)
  have hidentifies := composite_key_identifies .sqlite (by decide) htold
  have hne : (ticket "A" "12").column "tickets" "seat" ≠
      (ticket "A" "1").column "tickets" "seat" := by
    simp
  constructor
  · exact hidentifies.1 _ (by simp) _ (by simp) ⟨"seat", by simp, hne⟩
  · intro group hgroup
    by_contra! hboth
    apply hne
    refine hidentifies.2 "hal#sea" "hal#sea" []
      [(ticket "A" "12", [("hal#sea", .string "A12")]),
        (ticket "A" "1", [("hal#sea", .string "A1")])] ?_ group hgroup
      (ticket "A" "12", [("hal#sea", .string "A12")]) (by simp)
      (ticket "A" "1", [("hal#sea", .string "A1")]) (by simp) hboth.1 hboth.2 "seat" (by simp)
    simp only [List.forall_mem_cons, List.not_mem_nil, false_implies, implies_true, and_true]
    exact ⟨⟨by simp, some "A12", by decide +kernel, rfl⟩,
      by simp, some "A1", by decide +kernel, rfl⟩

/-- Tickets for different seats that become one object. -/
theorem exists_keys_of_one_value :
    (∀ name ∈ ["hall", "seat"], (ticket "1" "23").column "tickets" name ≠ .null ∧
      (ticket "12" "3").column "tickets" name ≠ .null ∧
      (ticket "1" "23").column "tickets" name ≠ (ticket "12" "3").column "tickets" name) ∧
    (∀ dialect, ∀ row ∈ [ticket "1" "23", ticket "12" "3"],
      keyValue? dialect plainText "tickets" ["hall", "seat"] row = some (some "123")) ∧
    Shape.nest ⟨true, [("hal#sea", .column "hal#sea"), ("guest", .column "guest")]⟩
        [[("guest", .string "Ada"), ("hal#sea", .string "123")],
          [("guest", .string "Eve"), ("hal#sea", .string "123")]] =
      .array [.object [("guest", .string "Ada"), ("hal#sea", .string "123")]] := by
  refine ⟨?_, ?_, ?_⟩
  · simp
  · intro dialect row hrow
    simp only [List.mem_cons, List.not_mem_nil, or_false] at hrow
    rcases hrow with rfl | rfl <;> cases dialect <;> decide +kernel
  · rfl

end Sql

end JoinPlan
