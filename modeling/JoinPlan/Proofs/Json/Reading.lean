import JoinPlan.Json.Form
import JoinPlan.Proofs.Json.Basic
import JoinPlan.Proofs.Json.Spelling
import Mathlib.Data.List.DropRight

/-!
# Reading what was printed

Reading the compact text of a value gives the value back, up to its numbers: a
decimal beyond the format's precision may come back as another.  So a value reads
back exactly when its numbers do and it does not nest too deep.  The induction is over
the value and says that whatever comes after its text is left alone.
-/

namespace JoinPlan.Json

/-! ### Strings -/

private theorem hexValue?_hexDigit_range :
    ∀ n ∈ List.range 16, hexValue? (hexDigit n) = some n := by
  decide

theorem hexValue?_hexDigit {n : Nat} (hn : n < 16) : hexValue? (hexDigit n) = some n :=
  hexValue?_hexDigit_range n (List.mem_range.mpr hn)

theorem readUnit_control {n : Nat} (hn : n < 32) (rest : List Char) :
    readUnit ('0' :: '0' :: hexDigit (n / 16) :: hexDigit (n % 16) :: rest) = some (n, rest) := by
  have hzero : hexValue? '0' = some 0 := rfl
  have hhigh := hexValue?_hexDigit (show n / 16 < 16 by omega)
  have hlow := hexValue?_hexDigit (show n % 16 < 16 by omega)
  have hvalue : ((0 * 16 + 0) * 16 + n / 16) * 16 + n % 16 = n := by omega
  simp only [readUnit, hzero, hhigh, hlow, Option.bind_eq_bind, Option.bind_some, hvalue]

theorem readEscapedUnit_control {n : Nat} (hn : n < 32) (rest : List Char) :
    readEscapedUnit ('0' :: '0' :: hexDigit (n / 16) :: hexDigit (n % 16) :: rest) =
      some (Char.ofNat n, rest) := by
  have hhigh : ¬(0xD800 ≤ n ∧ n < 0xDC00) := by omega
  have hlow : ¬(0xDC00 ≤ n ∧ n < 0xE000) := by omega
  simp only [readEscapedUnit, readUnit_control hn, Option.bind_eq_bind, Option.bind_some, hhigh,
    hlow, if_false]

/-- A character is escaped by one letter or by its number, or written as it is. -/
theorem escapeChar_cases (c : Char) :
    (∃ letter, escapeChar c = ['\\', letter] ∧ letter ≠ 'u' ∧ escapedChar? letter = some c) ∨
    (c.toNat < 32 ∧ escapeChar c =
      ['\\', 'u', '0', '0', hexDigit (c.toNat / 16), hexDigit (c.toNat % 16)]) ∨
    (c ≠ '"' ∧ c ≠ '\\' ∧ ¬c.toNat < 32 ∧ escapeChar c = [c]) := by
  rw [escapeChar]
  split_ifs with hquote hbackslash _ _ _ _ _ hcontrol
  on_goal 9 => exact Or.inr (Or.inr ⟨hquote, hbackslash, hcontrol, rfl⟩)
  on_goal 8 => exact Or.inr (Or.inl ⟨hcontrol, rfl⟩)
  all_goals
    subst c
    exact Or.inl ⟨_, rfl, by decide, rfl⟩

theorem readChars_escapeChar (bound : Nat) (c : Char) {chars rest after : List Char}
    (hrest : readChars bound rest = some (chars, after)) :
    readChars (bound + 1) (escapeChar c ++ rest) = some (c :: chars, after) := by
  rcases escapeChar_cases c with ⟨letter, hescape, hletter, hescaped⟩ | ⟨hcontrol, hescape⟩ |
    ⟨hquote, hbackslash, hcontrol, hescape⟩
  · simp [hescape, readChars, hletter, hescaped, hrest]
  · simp [hescape, readChars, readEscapedUnit_control hcontrol, hrest, Char.ofNat_toNat]
  · simp [hescape, readChars, hquote, hbackslash, hcontrol, hrest]

theorem readChars_escaped (chars rest : List Char) (bound : Nat) (hbound : chars.length < bound) :
    readChars bound (chars.flatMap escapeChar ++ '"' :: rest) = some (chars, rest) := by
  induction chars generalizing bound with
  | nil =>
      obtain ⟨less, rfl⟩ := Nat.exists_eq_add_of_lt hbound
      simp [readChars]
  | cons c chars ih =>
      obtain ⟨less, rfl⟩ := Nat.exists_eq_add_of_lt hbound
      rw [List.flatMap_cons, List.append_assoc, List.length_cons]
      have hchars := ih (chars.length + 1 + less) (by omega)
      exact readChars_escapeChar _ c hchars

theorem readString_quoted (text : String) (rest : List Char) (bound : Nat)
    (hbound : text.toList.length < bound) :
    readString bound (text.toList.flatMap escapeChar ++ '"' :: rest) = some (text, rest) := by
  rw [readString, readChars_escaped _ _ _ hbound, Option.map_some, String.ofList_toList]

theorem length_flatMap_escapeChar (chars : List Char) :
    chars.length ≤ (chars.flatMap escapeChar).length := by
  induction chars with
  | nil => simp
  | cons c chars ih =>
      have hc : 1 ≤ (escapeChar c).length := by
        rw [escapeChar]
        repeat' split
        all_goals simp
      rw [List.flatMap_cons, List.length_append, List.length_cons]
      omega

/-! ### Scalars -/

/-- The number that the text of a number is read as. -/
def rereadNumber? (number : Number) : Option Number :=
  (readNumber (numberText number)).map Prod.fst

theorem readNumber_numberText (number : Number) {rest : List Char} (hrest : Delimited rest) :
    readNumber (numberText number ++ rest) =
      (rereadNumber? number).map fun read => (read, rest) := by
  obtain ⟨spelling, htext⟩ := exists_spelling number
  have hself := spelling.readNumeral_text delimited_nil
  rw [List.append_nil, htext] at hself
  have hread := spelling.readNumeral_text hrest
  rw [htext] at hread
  rw [rereadNumber?, readNumber, readNumber, hread, hself]
  cases hvalue : spelling.numeral.number? <;> simp [hvalue]

theorem exists_head_of_readNumeral {text : List Char} {read : Numeral × List Char}
    (hread : readNumeral text = some read) :
    ∃ c rest, text = c :: rest ∧ (c = '-' ∨ c.isDigit = true) := by
  cases text with
  | nil => contradiction
  | cons c rest =>
      refine ⟨c, rest, rfl, ?_⟩
      apply Classical.byContradiction
      intro hc
      rw [not_or] at hc
      have hdigits : readDigits (c :: rest) = ([], c :: rest) := by simp [readDigits, hc.2]
      simp [readNumeral, readMinus, hc.1, hdigits] at hread

theorem exists_head_numberText (number : Number) :
    ∃ c rest, numberText number = c :: rest ∧ (c = '-' ∨ c.isDigit = true) := by
  obtain ⟨spelling, htext⟩ := exists_spelling number
  have hread := spelling.readNumeral_text delimited_nil
  rw [List.append_nil, htext] at hread
  exact exists_head_of_readNumeral hread

theorem readScalar_number (bound : Nat) {c : Char} {rest : List Char}
    (hc : c = '-' ∨ c.isDigit = true) :
    readScalar bound (c :: rest) =
      (readNumber (c :: rest)).map fun read => (.number read.1, read.2) := by
  rw [readScalar]
  all_goals
    intro other heq
    injection heq with hhead
    subst hhead
    simp [Char.isDigit] at hc

/-! ### Items and members -/

/-- A character before which nothing is skipped and no list is closed. -/
structure Opens (c : Char) : Prop where
  not_space : isSpace c = false
  not_bracket : c ≠ ']'
  not_brace : c ≠ '\x7d'

theorem skipSpace_cons {c : Char} (hc : isSpace c = false) (rest : List Char) :
    skipSpace (c :: rest) = c :: rest := by
  simp [skipSpace, hc]

theorem skipSpace_skipSpace (text : List Char) : skipSpace (skipSpace text) = skipSpace text :=
  List.dropWhile_idempotent isSpace text

theorem skipSpace_append {c : Char} {text shown : List Char} (htext : skipSpace text = c :: shown)
    (rest : List Char) : skipSpace (text ++ rest) = c :: (shown ++ rest) := by
  rw [skipSpace] at htext ⊢
  rw [List.dropWhile_append, htext]
  rfl

section Separated

variable {A B : Type} {item : Nat → Reader B} {close : Char} {write : A → List Char}
  {reread : A → Option B} {items : List A} {closing rest : List Char}

/-- The items are read one by one, each from its own text. -/
def ReadsEach (item : Nat → Reader B) (write : A → List Char) (reread : A → Option B)
    (items : List A) : Prop :=
  ∀ x ∈ items, ∀ index rest, Delimited rest →
    item index (write x ++ rest) = (reread x).map fun read => (read, rest)

/-- After the last item, perhaps on a line of its own, the closing bracket; then the rest. -/
structure Closes (close : Char) (closing rest : List Char) : Prop where
  bracket : close = ']' ∨ close = '\x7d'
  delimited : Delimited closing
  skip : skipSpace closing = close :: rest

theorem closes_bracket (hclose : close = ']' ∨ close = '\x7d') (rest : List Char) :
    Closes close (close :: rest) rest where
  bracket := hclose
  delimited := delimited_cons.mpr (by rcases hclose with rfl | rfl <;> simp)
  skip := skipSpace_cons (by rcases hclose with rfl | rfl <;> rfl) rest

theorem delimited_afterItem (hclosing : Delimited closing) (texts : List (List Char)) :
    Delimited (afterItem texts closing) := by
  cases texts with
  | nil => exact hclosing
  | cons text texts => exact delimited_cons.mpr (Or.inl rfl)

theorem readSeparated_joined (hclose : Closes close closing rest) (hne : items ≠ [])
    (hitems : ReadsEach item write reread items) (index : Nat) {bound : Nat}
    (hbound : items.length ≤ bound) :
    readSeparated item close bound index (joined (items.map write) ++ closing) =
      (items.mapM reread).map fun read => (read, rest) := by
  induction items generalizing bound index with
  | nil => contradiction
  | cons x others ih =>
      obtain ⟨less, rfl⟩ : ∃ less, bound = less + 1 := Nat.exists_eq_add_one.mpr (by
        rw [List.length_cons] at hbound
        omega)
      have hcomma : ',' ≠ close := by rcases hclose.bracket with rfl | rfl <;> decide
      have hx := hitems x List.mem_cons_self index _
        (delimited_afterItem hclose.delimited (others.map write))
      rw [readSeparated, List.map_cons, joined_cons_append, hx, List.mapM_cons]
      cases hread : reread x with
      | none => rfl
      | some y =>
          cases others with
          | nil => simp [afterItem, hclose.skip]
          | cons next others =>
              have hrest := ih (by simp) (fun z hz => hitems z (List.mem_cons_of_mem _ hz))
                (index + 1) (by simpa using hbound)
              rw [List.map_cons] at hrest ⊢
              simp only [afterItem, Option.map_some, Option.bind_eq_bind, Option.bind_some,
                skipSpace_cons (show isSpace ',' = false from rfl), hcomma, if_false, if_true,
                hrest]
              cases (next :: others).mapM reread <;> rfl

/-- White space before the items does not matter to what skips it. -/
theorem readSeparated_skipSpace
    (hskip : ∀ index text, item index (skipSpace text) = item index text)
    (bound index : Nat) (text : List Char) :
    readSeparated item close bound index (skipSpace text) =
      readSeparated item close bound index text := by
  cases bound with
  | zero => rfl
  | succ bound => rw [readSeparated, readSeparated, hskip]

theorem readItems_joined (hclose : Closes close closing rest)
    (hskip : ∀ index text, item index (skipSpace text) = item index text)
    (hopens : ∀ x ∈ items, ∃ c text, skipSpace (write x) = c :: text ∧ Opens c)
    (hitems : ReadsEach item write reread items) (bound : Nat) (hbound : items.length ≤ bound) :
    readItems bound item close (joined (items.map write) ++ closing) =
      (items.mapM reread).map fun read => (read, rest) := by
  cases items with
  | nil => simp [readItems, joined, hclose.skip]
  | cons x others =>
      have hlist := readSeparated_joined hclose (by simp) hitems 0 hbound
      obtain ⟨c, text, htext, hc⟩ := hopens x List.mem_cons_self
      have hne : c ≠ close := by
        rcases hclose.bracket with rfl | rfl
        · exact hc.not_bracket
        · exact hc.not_brace
      have hstart := skipSpace_append htext (afterItem (others.map write) closing)
      rw [← readSeparated_skipSpace hskip, List.map_cons, joined_cons_append, hstart] at hlist
      rw [List.map_cons, joined_cons_append, readItems, hstart]
      simpa only [hne, if_false] using hlist

end Separated

/-! ### Values -/

mutual

/-- The value that the text of a value is read as, with at most so many levels of arrays
and objects: the same but for the numbers, and none if it nests deeper. -/
def reread? : Nat → Json → Option Json
  | 0, .array _ => none
  | 0, .object _ => none
  | levels + 1, .array items => (rereadItems? levels items).map .array
  | levels + 1, .object members => (rereadMembers? levels members).map .object
  | _, .null => some .null
  | _, .bool value => some (.bool value)
  | _, .number value => (rereadNumber? value).map .number
  | _, .string value => some (.string value)

def rereadItems? : Nat → List Json → Option (List Json)
  | _, [] => some []
  | levels, item :: rest => do
      let item ← reread? levels item
      let rest ← rereadItems? levels rest
      some (item :: rest)

def rereadMember? : Nat → String × Json → Option (String × Json)
  | levels, (key, value) => (reread? levels value).map fun value => (key, value)

def rereadMembers? : Nat → List (String × Json) → Option (List (String × Json))
  | _, [] => some []
  | levels, member :: rest => do
      let member ← rereadMember? levels member
      let rest ← rereadMembers? levels rest
      some (member :: rest)

end

theorem reread?_bool (levels : Nat) (value : Bool) :
    reread? levels (.bool value) = some (.bool value) := by
  cases levels <;> rfl

theorem reread?_number (levels : Nat) (value : Number) :
    reread? levels (.number value) = (rereadNumber? value).map .number := by
  cases levels <;> rfl

theorem reread?_string (levels : Nat) (value : String) :
    reread? levels (.string value) = some (.string value) := by
  cases levels <;> rfl

theorem rereadItems?_eq (levels : Nat) (items : List Json) :
    rereadItems? levels items = items.mapM (reread? levels) := by
  induction items with
  | nil => rfl
  | cons item rest ih =>
      rw [rereadItems?, ih, List.mapM_cons]
      rfl

theorem rereadMember?_eq (levels : Nat) (member : String × Json) :
    rereadMember? levels member =
      (reread? levels member.2).map fun value => (member.1, value) := by
  cases member with
  | mk key value => rfl

theorem rereadMembers?_eq (levels : Nat) (members : Object) :
    rereadMembers? levels members = members.mapM (rereadMember? levels) := by
  induction members with
  | nil => rfl
  | cons member rest ih =>
      rw [rereadMembers?, ih, List.mapM_cons]
      rfl

theorem opens_of_digit {c : Char} (hc : c = '-' ∨ c.isDigit = true) : Opens c := by
  rcases hc with rfl | hc
  · exact ⟨rfl, by decide, by decide⟩
  · constructor
    · apply Bool.eq_false_iff.mpr
      intro hspace
      simp only [isSpace, Bool.or_eq_true, decide_eq_true_eq] at hspace
      rcases hspace with ((rfl | rfl) | rfl) | rfl <;> contradiction
    · rintro rfl
      contradiction
    · rintro rfl
      contradiction

theorem exists_head_compact (value : Json) :
    ∃ c text, compact value = c :: text ∧ Opens c := by
  cases value with
  | null => exact ⟨'n', _, rfl, rfl, by decide, by decide⟩
  | bool value =>
      cases value
      · exact ⟨'f', _, rfl, rfl, by decide, by decide⟩
      · exact ⟨'t', _, rfl, rfl, by decide, by decide⟩
  | number value =>
      obtain ⟨c, text, htext, hc⟩ := exists_head_numberText value
      exact ⟨c, text, htext, opens_of_digit hc⟩
  | string value => exact ⟨'"', _, rfl, rfl, by decide, by decide⟩
  | array items => exact ⟨'[', _, rfl, rfl, by decide, by decide⟩
  | object members => exact ⟨'\x7b', _, rfl, rfl, by decide, by decide⟩

theorem compact_ne_nil (value : Json) : compact value ≠ [] := by
  obtain ⟨c, text, htext, -⟩ := exists_head_compact value
  rw [htext]
  exact List.cons_ne_nil c text

theorem exists_head_compactMember (member : String × Json) :
    ∃ text, compactMember member = '"' :: text := by
  cases member with
  | mk key value => exact ⟨_, rfl⟩

theorem readValue_skipSpace (bound levels : Nat) (form : Form) (text : List Char) :
    readValue bound levels form (skipSpace text) = readValue bound levels form text := by
  cases levels <;> rw [readValue, readValue, skipSpace_skipSpace]

theorem readMember_skipSpace {K V : Type} (key : Reader K) (value : K → Reader V)
    (text : List Char) : readMember key value (skipSpace text) = readMember key value text := by
  rw [readMember, readMember, skipSpace_skipSpace]

theorem readValue_scalar (bound levels : Nat) (form : Form) {c : Char} (rest : List Char)
    (hspace : isSpace c = false) (hbracket : c ≠ '[') (hbrace : c ≠ '\x7b') :
    readValue bound levels form (c :: rest) = readScalar bound (c :: rest) := by
  cases levels with
  | zero => rw [readValue, skipSpace_cons hspace]
  | succ levels => simp [readValue, skipSpace_cons hspace, hbracket, hbrace]

theorem readMember_compactMember {bound levels : Nat} {key : String} {value : Json}
    {rest : List Char} (hkey : key.toList.length < bound)
    (hvalue : readValue bound levels .whole (compact value ++ rest) =
      (reread? levels value).map fun read => (read, rest)) :
    readMember (readString bound) (fun _ => readValue bound levels .whole)
        (compactMember (key, value) ++ rest) =
      (rereadMember? levels (key, value)).map fun read => (read, rest) := by
  have htext : compactMember (key, value) ++ rest =
      '"' :: (key.toList.flatMap escapeChar ++ '"' :: ':' :: (compact value ++ rest)) := by
    simp [compactMember, quoted]
  rw [htext, readMember, skipSpace_cons rfl]
  simp only [readString_quoted key _ _ hkey, Option.bind_eq_bind, Option.bind_some,
    skipSpace_cons (show isSpace ':' = false from rfl), hvalue]
  cases hread : reread? levels value <;> simp [rereadMember?, hread]

theorem length_compact_item {items : List Json} {item : Json} (hitem : item ∈ items) :
    (compact item).length < (compact (.array items)).length := by
  have hlength := length_le_joined (List.mem_map_of_mem (f := compact) hitem)
  rw [compact, compactItems_eq, List.length_cons, List.length_append]
  omega

theorem length_compactMember {members : Object} {member : String × Json}
    (hmember : member ∈ members) :
    (compactMember member).length < (compact (.object members)).length := by
  have hlength := length_le_joined (List.mem_map_of_mem (f := compactMember) hmember)
  rw [compact, compactMembers_eq, List.length_cons, List.length_append]
  omega

theorem key_length_lt_compactMember (member : String × Json) :
    member.1.toList.length < (compactMember member).length := by
  have hlength := length_flatMap_escapeChar member.1.toList
  rw [compactMember, quoted, List.length_append, List.length_cons, List.length_append]
  omega

theorem value_length_lt_compactMember (member : String × Json) :
    (compact member.2).length < (compactMember member).length := by
  rw [compactMember, List.length_append, List.length_cons]
  omega

theorem readValue_array {items : List Json} {bound levels : Nat} {rest : List Char}
    (hbound : (compact (.array items)).length < bound)
    (hitems : ReadsEach (fun _ => readValue bound levels .whole) compact (reread? levels)
      items) :
    readValue bound (levels + 1) .whole (compact (.array items) ++ rest) =
      (reread? (levels + 1) (.array items)).map fun read => (read, rest) := by
  have hcount := length_texts_le_joined (items.map compact) (by
    intro text htext
    obtain ⟨item, -, rfl⟩ := List.mem_map.mp htext
    exact compact_ne_nil item)
  rw [compact, compactItems_eq, List.length_cons, List.length_append] at hbound
  rw [List.length_map] at hcount
  have hopens : ∀ item ∈ items, ∃ c text, skipSpace (compact item) = c :: text ∧ Opens c := by
    intro item _
    obtain ⟨c, text, htext, hc⟩ := exists_head_compact item
    exact ⟨c, text, by rw [htext, skipSpace_cons hc.not_space], hc⟩
  have hread := readItems_joined (closes_bracket (Or.inl rfl) rest)
    (fun _ => readValue_skipSpace bound levels .whole) hopens hitems bound (by omega)
  rw [compact, compactItems_eq, List.cons_append, List.append_assoc, List.singleton_append,
    readValue, skipSpace_cons rfl, reread?, rereadItems?_eq]
  calc
    (readItems bound (fun _ => readValue bound levels .whole) ']'
          (joined (items.map compact) ++ ']' :: rest)).map
        (fun read => (Json.array read.1, read.2)) =
      ((items.mapM (reread? levels)).map fun read => (read, rest)).map
        fun read => (Json.array read.1, read.2) := by rw [hread]
    _ = ((items.mapM (reread? levels)).map Json.array).map fun read => (read, rest) := by
      rw [Option.map_map, Option.map_map]
      rfl

theorem readValue_object {members : Object} {bound levels : Nat} {rest : List Char}
    (hbound : (compact (.object members)).length < bound)
    (hmembers : ReadsEach
      (fun _ => readMember (readString bound) fun _ => readValue bound levels .whole)
      compactMember (rereadMember? levels) members) :
    readValue bound (levels + 1) .whole (compact (.object members) ++ rest) =
      (reread? (levels + 1) (.object members)).map fun read => (read, rest) := by
  have hcount := length_texts_le_joined (members.map compactMember) (by
    intro text htext
    obtain ⟨member, -, rfl⟩ := List.mem_map.mp htext
    obtain ⟨text, hhead⟩ := exists_head_compactMember member
    rw [hhead]
    exact List.cons_ne_nil _ _)
  rw [compact, compactMembers_eq, List.length_cons, List.length_append] at hbound
  rw [List.length_map] at hcount
  have hopens : ∀ member ∈ members,
      ∃ c text, skipSpace (compactMember member) = c :: text ∧ Opens c := by
    intro member _
    obtain ⟨text, hhead⟩ := exists_head_compactMember member
    exact ⟨'"', text, by rw [hhead, skipSpace_cons rfl], rfl, by decide, by decide⟩
  have hread := readItems_joined (closes_bracket (Or.inr rfl) rest)
    (fun _ => readMember_skipSpace _ _) hopens hmembers bound (by omega)
  rw [compact, compactMembers_eq, List.cons_append, List.append_assoc, List.singleton_append,
    readValue, skipSpace_cons rfl, reread?, rereadMembers?_eq]
  calc
    (readItems bound (fun _ => readMember (readString bound) fun _ =>
            readValue bound levels .whole) '\x7d'
          (joined (members.map compactMember) ++ '\x7d' :: rest)).map
        (fun read => (Json.object read.1, read.2)) =
      ((members.mapM (rereadMember? levels)).map fun read => (read, rest)).map
        fun read => (Json.object read.1, read.2) := by rw [hread]
    _ = ((members.mapM (rereadMember? levels)).map Json.object).map fun read => (read, rest) := by
      rw [Option.map_map, Option.map_map]
      rfl

/-- No array or object is read where none may stand. -/
theorem readValue_zero_bracket (bound : Nat) {c : Char} (hc : c = '[' ∨ c = '\x7b')
    (rest : List Char) : readValue bound 0 .whole (c :: rest) = none := by
  have hspace : isSpace c = false := by rcases hc with rfl | rfl <;> rfl
  have hnumeral : readNumeral (c :: rest) = none := by
    apply Option.eq_none_iff_forall_ne_some.mpr
    intro read hread
    obtain ⟨head, tail, heq, hhead⟩ := exists_head_of_readNumeral hread
    obtain rfl := (List.cons.inj heq).1
    rcases hc with rfl | rfl <;> simp [Char.isDigit] at hhead
  rw [readValue, skipSpace_cons hspace]
  rcases hc with rfl | rfl <;> simp [readScalar, readNumber, hnumeral]

theorem readValue_numberText (bound levels : Nat) (form : Form) (value : Number)
    {rest : List Char} (hrest : Delimited rest) :
    readValue bound levels form (numberText value ++ rest) =
      (rereadNumber? value).map fun read => (.number read, rest) := by
  obtain ⟨c, text, htext, hc⟩ := exists_head_numberText value
  have hopens := opens_of_digit hc
  have hread := readNumber_numberText value hrest
  rw [htext, List.cons_append,
    readValue_scalar bound levels form _ hopens.not_space
      (by rintro rfl; simp [Char.isDigit] at hc) (by rintro rfl; simp [Char.isDigit] at hc),
    readScalar_number bound hc, ← List.cons_append, ← htext, hread, Option.map_map]
  rfl

theorem readValue_quoted {bound : Nat} (levels : Nat) (form : Form) (value : String)
    (rest : List Char) (hbound : (quoted value).length < bound) :
    readValue bound levels form (quoted value ++ rest) = some (.string value, rest) := by
  have hlength := length_flatMap_escapeChar value.toList
  rw [quoted, List.length_cons, List.length_append, List.length_singleton] at hbound
  have hread := readString_quoted value rest bound (by omega)
  rw [quoted, List.cons_append, List.append_assoc, List.singleton_append,
    readValue_scalar bound levels form _ rfl (by decide) (by decide), readScalar, hread]
  rfl

/-- The text of a value is read as the value, up to numbers and to its nesting, and what
comes after it is left. -/
theorem readValue_compact (value : Json) (bound levels : Nat) {rest : List Char}
    (hbound : (compact value).length < bound) (hrest : Delimited rest) :
    readValue bound levels .whole (compact value ++ rest) =
      (reread? levels value).map fun read => (read, rest) := by
  induction value generalizing levels rest with
  | null =>
      cases levels <;> exact readValue_scalar bound _ .whole _ rfl (by decide) (by decide)
  | bool value =>
      rw [reread?_bool]
      cases value <;> exact readValue_scalar bound levels .whole _ rfl (by decide) (by decide)
  | number value =>
      rw [compact, readValue_numberText bound levels .whole value hrest, reread?_number,
        Option.map_map]
      rfl
  | string value =>
      rw [compact, readValue_quoted levels .whole value rest hbound, reread?_string]
      rfl
  | array items ih =>
      cases levels with
      | zero => exact readValue_zero_bracket bound (Or.inl rfl) _
      | succ levels =>
          apply readValue_array hbound
          intro item hitem _ after hafter
          exact ih item hitem levels (Nat.lt_trans (length_compact_item hitem) hbound) hafter
  | object members ih =>
      cases levels with
      | zero => exact readValue_zero_bracket bound (Or.inr rfl) _
      | succ levels =>
          apply readValue_object hbound
          intro member hmember _ after hafter
          have hlength := Nat.lt_trans (length_compactMember hmember) hbound
          exact readMember_compactMember
            (Nat.lt_trans (key_length_lt_compactMember member) hlength)
            (ih member hmember levels (Nat.lt_trans (value_length_lt_compactMember member) hlength)
              hafter)

/-- Parsing the text of a value yields the plain value of what its text is read as. -/
theorem parse?_text (value : Json) :
    parse? value.text = (reread? nestingLimit value).map canonical := by
  have hread := readValue_compact value ((compact value).length + 1) nestingLimit
    (Nat.lt_succ_self _) delimited_nil
  rw [List.append_nil] at hread
  rw [parse?, readAs?, readWithin, text, String.toList_ofList, hread]
  cases reread? nestingLimit value <;> rfl

end JoinPlan.Json
