import JoinPlan.Proofs.Failure
import JoinPlan.Proofs.Json.ReadsBack

/-!
# Reading the indented text

A configuration is kept as indented text and read by its form.  What a form reads
nests no deeper than the reader goes, and what is legible by a form reads back: the
form asks for all its parts, its numbers read back, and it nests no deeper either.
-/

namespace JoinPlan.Json

/-- The value of a member, read if the form asks for it. -/
def readAsked (bound levels : Nat) (form : Form) (key : String) : Reader Json :=
  match form.member? key with
  | some asked => readValue bound levels asked
  | none => fun text => (skipValue bound text).map fun read => (.null, read.2)

theorem readAsked_of_member? {bound levels : Nat} {form asked : Form} {key : String}
    (h : form.member? key = some asked) :
    readAsked bound levels form key = readValue bound levels asked := by
  rw [readAsked, h]

/-- An array or an object opens with its bracket; anything else is a scalar. -/
theorem readValue_succ (bound levels : Nat) (form : Form) (text : List Char) :
    readValue bound (levels + 1) form text =
      match skipSpace text with
      | '[' :: rest =>
          (readItems bound (fun index => readValue bound levels (form.item index)) ']' rest).map
            fun read => (.array read.1, read.2)
      | '\x7b' :: rest =>
          (readItems bound (fun _ => readMember (readString bound) (readAsked bound levels form))
            '\x7d' rest).map fun read => (.object read.1, read.2)
      | rest => readScalar bound rest := rfl

/-! ### Nesting -/

/-- The value has at most so many levels of arrays and objects. -/
def NestsWithin : Nat → Json → Prop
  | levels + 1, .array items => ∀ item ∈ items, NestsWithin levels item
  | levels + 1, .object members => ∀ member ∈ members, NestsWithin levels member.2
  | 0, .array _ => False
  | 0, .object _ => False
  | _, .null => True
  | _, .bool _ => True
  | _, .number _ => True
  | _, .string _ => True

theorem NestsWithin.of_array {levels : Nat} {items : List Json}
    (h : NestsWithin levels (.array items)) :
    ∃ inner, levels = inner + 1 ∧ ∀ item ∈ items, NestsWithin inner item := by
  cases levels with
  | zero => exact h.elim
  | succ inner => exact ⟨inner, rfl, h⟩

theorem NestsWithin.of_object {levels : Nat} {members : Object}
    (h : NestsWithin levels (.object members)) :
    ∃ inner, levels = inner + 1 ∧ ∀ member ∈ members, NestsWithin inner member.2 := by
  cases levels with
  | zero => exact h.elim
  | succ inner => exact ⟨inner, rfl, h⟩

theorem nestsWithin_null (levels : Nat) : NestsWithin levels .null := by
  cases levels <;> exact trivial

theorem nestsWithin_of_readScalar {bound : Nat} {text rest : List Char} {value : Json}
    (h : readScalar bound text = some (value, rest)) (levels : Nat) :
    NestsWithin levels value := by
  unfold readScalar at h
  split at h
  on_goal 4 => obtain ⟨read, -, hread⟩ := Option.map_eq_some_iff.mp h
  on_goal 5 => obtain ⟨read, -, hread⟩ := Option.map_eq_some_iff.mp h
  on_goal 1 => obtain ⟨rfl, -⟩ := Prod.mk.inj (Option.some.inj h)
  on_goal 2 => obtain ⟨rfl, -⟩ := Prod.mk.inj (Option.some.inj h)
  on_goal 3 => obtain ⟨rfl, -⟩ := Prod.mk.inj (Option.some.inj h)
  on_goal 4 => obtain ⟨rfl, -⟩ := Prod.mk.inj hread
  on_goal 5 => obtain ⟨rfl, -⟩ := Prod.mk.inj hread
  all_goals cases levels <;> exact trivial

section Items

variable {A : Type} {P : A → Prop} {item : Nat → Reader A} {close : Char}

/-- What holds of everything the reader of an item can return holds of all items. -/
theorem forall_of_readSeparated
    (hitem : ∀ index text x rest, item index text = some (x, rest) → P x) {bound index : Nat}
    {text rest : List Char} {items : List A}
    (h : readSeparated item close bound index text = some (items, rest)) : ∀ x ∈ items, P x := by
  induction bound generalizing index text items rest with
  | zero => contradiction
  | succ bound ih =>
      rw [readSeparated] at h
      obtain ⟨⟨first, after⟩, hfirst, h⟩ := Option.bind_eq_some_iff.mp h
      have hhead := hitem index text first after hfirst
      dsimp only at h
      split at h
      · contradiction
      split at h
      · obtain ⟨rfl, -⟩ := Prod.mk.inj (Option.some.inj h)
        simpa using hhead
      split at h
      · obtain ⟨⟨others, more⟩, hothers, h⟩ := Option.bind_eq_some_iff.mp h
        obtain ⟨rfl, -⟩ := Prod.mk.inj (Option.some.inj h)
        exact List.forall_mem_cons.mpr ⟨hhead, ih hothers⟩
      · contradiction

theorem forall_of_readItems
    (hitem : ∀ index text x rest, item index text = some (x, rest) → P x) {bound : Nat}
    {text rest : List Char} {items : List A}
    (h : readItems bound item close text = some (items, rest)) : ∀ x ∈ items, P x := by
  rw [readItems] at h
  split at h
  · contradiction
  split at h
  · obtain ⟨rfl, -⟩ := Prod.mk.inj (Option.some.inj h)
    simp
  · exact forall_of_readSeparated hitem h

/-- A member's value is what the reader for its key returned. -/
theorem exists_of_readMember {K V : Type} {key : Reader K} {value : K → Reader V}
    {text rest : List Char} {member : K × V}
    (h : readMember key value text = some (member, rest)) :
    ∃ text, value member.1 text = some (member.2, rest) := by
  rw [readMember] at h
  split at h
  · obtain ⟨⟨name, after⟩, -, h⟩ := Option.bind_eq_some_iff.mp h
    dsimp only at h
    split at h
    · obtain ⟨⟨read, more⟩, hread, h⟩ := Option.bind_eq_some_iff.mp h
      obtain ⟨rfl, rfl⟩ := Prod.mk.inj (Option.some.inj h)
      exact ⟨_, hread⟩
    · contradiction
  · contradiction

end Items

/-- What is read nests no deeper than the reader goes. -/
theorem nestsWithin_of_readValue {bound levels : Nat} {form : Form} {text rest : List Char}
    {value : Json} (h : readValue bound levels form text = some (value, rest)) :
    NestsWithin levels value := by
  induction levels generalizing form text value rest with
  | zero =>
      rw [readValue] at h
      exact nestsWithin_of_readScalar h 0
  | succ levels ih =>
      rw [readValue_succ] at h
      split at h
      · obtain ⟨⟨items, after⟩, hitems, hvalue⟩ := Option.map_eq_some_iff.mp h
        obtain ⟨rfl, -⟩ := Prod.mk.inj hvalue
        exact forall_of_readItems (fun _ _ _ _ hitem => ih hitem) hitems
      · obtain ⟨⟨members, after⟩, hmembers, hvalue⟩ := Option.map_eq_some_iff.mp h
        obtain ⟨rfl, -⟩ := Prod.mk.inj hvalue
        apply forall_of_readItems (P := fun member => NestsWithin levels member.2) _ hmembers
        intro index text member rest hmember
        obtain ⟨text, hread⟩ := exists_of_readMember hmember
        cases hasked : form.member? member.1 with
        | some asked =>
            rw [readAsked_of_member? hasked] at hread
            exact ih hread
        | none =>
            -- a member nobody asks for is null
            rw [readAsked, hasked] at hread
            obtain ⟨read, -, hnull⟩ := Option.map_eq_some_iff.mp hread
            obtain ⟨hvalue, -⟩ := Prod.mk.inj hnull
            rw [← hvalue]
            exact nestsWithin_null levels
      · exact nestsWithin_of_readScalar h (levels + 1)

theorem nestsWithin_of_readAs? {form : Form} {text : String} {value : Json}
    (h : readAs? form text = some value) : NestsWithin nestingLimit value := by
  rw [readAs?, readWithin] at h
  split at h
  · rename_i read rest hread
    split at h
    · obtain rfl := Option.some.inj h
      exact nestsWithin_of_readValue hread
    · contradiction
  · contradiction

/-! ### Legible values -/

/-- The form asks for all parts of the value, which has at most so many levels and
whose numbers read back. -/
def Legible : Nat → Form → Json → Prop
  | levels + 1, form, .array items => ∀ item ∈ items, ∀ index, Legible levels (form.item index) item
  | levels + 1, form, .object members => ∀ member ∈ members,
      ∃ asked, form.member? member.1 = some asked ∧ Legible levels asked member.2
  | 0, _, .array _ => False
  | 0, _, .object _ => False
  | _, _, .null => True
  | _, _, .bool _ => True
  | _, _, .number value => rereadNumber? value = some value
  | _, _, .string _ => True

theorem legible_bool (levels : Nat) (form : Form) (value : Bool) :
    Legible levels form (.bool value) := by
  cases levels <;> exact trivial

theorem legible_string (levels : Nat) (form : Form) (value : String) :
    Legible levels form (.string value) := by
  cases levels <;> exact trivial

theorem legible_number {levels : Nat} {form : Form} {value : Number} :
    Legible levels form (.number value) ↔ rereadNumber? value = some value := by
  cases levels <;> exact Iff.rfl

theorem legible_ofNat (levels : Nat) (form : Form) {n : Nat} (hn : n < countLimit) :
    Legible levels form (.ofNat n) := by
  apply legible_number.mpr
  exact rereadNumber?_int (by omega) (by omega)

/-! ### The layout of lists -/

theorem skipSpace_newline (level : Nat) (text : List Char) :
    skipSpace (newline level ++ text) = skipSpace text := by
  apply List.dropWhile_append_of_pos
  intro c hc
  rcases List.mem_cons.mp hc with rfl | hc
  · rfl
  · rw [List.eq_of_mem_replicate hc]
    rfl

/-- A text on a line of its own. -/
def line (level : Nat) (text : List Char) : List Char := newline (level + 1) ++ text

/-- The closing bracket, on a line of its own after the lines of a list. -/
def lastLine {A : Type} (level : Nat) (close : Char) : List A → List Char
  | [] => [close]
  | _ => newline level ++ [close]

theorem closes_lastLine {A : Type} (level : Nat) {close : Char}
    (hclose : close = ']' ∨ close = '\x7d') (items : List A) (rest : List Char) :
    Closes close (lastLine level close items ++ rest) rest := by
  cases items with
  | nil => exact closes_bracket hclose rest
  | cons item items =>
      refine ⟨hclose, delimited_cons.mpr (by simp), ?_⟩
      rw [lastLine, List.append_assoc, skipSpace_newline]
      · exact (closes_bracket hclose rest).skip
      · simp

theorem newline_indentedItems (level : Nat) {items : List Json} (hne : items ≠ []) :
    newline (level + 1) ++ indentedItems level items =
      joined (items.map fun item => line level (indented (level + 1) item)) := by
  induction items with
  | nil => contradiction
  | cons item rest ih =>
      cases rest with
      | nil => rfl
      | cons next others =>
          rw [indentedItems, ← List.append_assoc, ih (by simp)]
          · rfl
          · simp

theorem newline_indentedMembers (level : Nat) {members : Object} (hne : members ≠ []) :
    newline (level + 1) ++ indentedMembers level members =
      joined (members.map fun member => line level (indentedMember level member)) := by
  induction members with
  | nil => contradiction
  | cons member rest ih =>
      cases rest with
      | nil => rfl
      | cons next others =>
          rw [indentedMembers, ← List.append_assoc, ih (by simp)]
          · rfl
          · simp

theorem indented_array (level : Nat) (items : List Json) :
    indented level (.array items) =
      '[' :: (joined (items.map fun item => line level (indented (level + 1) item)) ++
        lastLine level ']' items) := by
  cases items with
  | nil => rfl
  | cons item rest =>
      rw [indented, newline_indentedItems level (by simp), List.append_assoc]
      · rfl
      · simp

theorem indented_object (level : Nat) (members : Object) :
    indented level (.object members) =
      '\x7b' :: (joined (members.map fun member => line level (indentedMember level member)) ++
        lastLine level '\x7d' members) := by
  cases members with
  | nil => rfl
  | cons member rest =>
      rw [indented, newline_indentedMembers level (by simp), List.append_assoc]
      · rfl
      · simp

theorem length_lt_indented_array {level : Nat} {items : List Json} {item : Json}
    (hitem : item ∈ items) :
    (indented (level + 1) item).length < (indented level (.array items)).length := by
  have hlength := length_le_joined
    (List.mem_map_of_mem (f := fun item => line level (indented (level + 1) item)) hitem)
  rw [line, List.length_append] at hlength
  rw [indented_array, List.length_cons, List.length_append]
  omega

theorem length_lt_indented_object {level : Nat} {members : Object} {member : String × Json}
    (hmember : member ∈ members) :
    (indentedMember level member).length < (indented level (.object members)).length := by
  have hlength := length_le_joined
    (List.mem_map_of_mem (f := fun member => line level (indentedMember level member)) hmember)
  rw [line, List.length_append] at hlength
  rw [indented_object, List.length_cons, List.length_append]
  omega

theorem key_length_lt_indentedMember (level : Nat) (member : String × Json) :
    member.1.toList.length < (indentedMember level member).length := by
  have hlength := length_flatMap_escapeChar member.1.toList
  rw [indentedMember, quoted, List.length_append, List.length_cons, List.length_append]
  omega

theorem value_length_lt_indentedMember (level : Nat) (member : String × Json) :
    (indented (level + 1) member.2).length < (indentedMember level member).length := by
  rw [indentedMember, List.length_append, List.length_cons, List.length_cons]
  omega

theorem exists_head_indented (level : Nat) (value : Json) :
    ∃ c text, indented level value = c :: text ∧ Opens c := by
  cases value with
  | null => exact exists_head_compact .null
  | bool value =>
      cases value
      · exact exists_head_compact (.bool false)
      · exact exists_head_compact (.bool true)
  | number value => exact exists_head_compact (.number value)
  | string value => exact exists_head_compact (.string value)
  | array items => exact ⟨'[', _, indented_array level items, rfl, by decide, by decide⟩
  | object members => exact ⟨'\x7b', _, indented_object level members, rfl, by decide, by decide⟩

theorem exists_head_indentedMember (level : Nat) (member : String × Json) :
    ∃ c text, indentedMember level member = c :: text ∧ Opens c := by
  cases member with
  | mk key value => exact ⟨'"', _, rfl, rfl, by decide, by decide⟩

/-! ### Reading -/

section Lists

variable {A : Type} {item : Nat → Reader A} {close : Char} {items : List A}

/-- A list with an item a line is read item by item. -/
theorem readItems_lines (write : A → List Char) (level bound : Nat)
    (hclose : close = ']' ∨ close = '\x7d')
    (hskip : ∀ index text, item index (skipSpace text) = item index text)
    (hopens : ∀ x ∈ items, ∃ c text, write x = c :: text ∧ Opens c)
    (hitems : ∀ x ∈ items, ∀ index rest, Delimited rest →
      item index (write x ++ rest) = some (x, rest))
    (rest : List Char)
    (hbound : (joined (items.map fun x => line level (write x))).length < bound) :
    readItems bound item close
        (joined (items.map fun x => line level (write x)) ++
          (lastLine level close items ++ rest)) = some (items, rest) := by
  have hskipLine (text : List Char) : skipSpace (line level text) = skipSpace text :=
    skipSpace_newline (level + 1) text
  have hlines : ∀ x ∈ items, ∃ c text, skipSpace (line level (write x)) = c :: text ∧ Opens c := by
    intro x hx
    obtain ⟨c, text, htext, hc⟩ := hopens x hx
    exact ⟨c, text, by rw [hskipLine, htext, skipSpace_cons hc.not_space], hc⟩
  have hcount := length_texts_le_joined (items.map fun x => line level (write x)) (by
    intro text htext
    obtain ⟨x, -, rfl⟩ := List.mem_map.mp htext
    exact List.cons_ne_nil _ _)
  rw [List.length_map] at hcount
  have heach : ReadsEach item (fun x => line level (write x)) some items := by
    intro x hx index rest hrest
    have hline : skipSpace (line level (write x) ++ rest) = skipSpace (write x ++ rest) := by
      rw [line, List.append_assoc, skipSpace_newline]
    rw [← hskip, hline, hskip]
    exact hitems x hx index rest hrest
  rw [readItems_joined (closes_lastLine level hclose items rest) hskip hlines heach bound
    (by omega), mapM_eq_self fun _ _ => rfl, Option.map_some]

end Lists

theorem readMember_indentedMember {bound level levels : Nat} {asked : Form} {key : String}
    {value : Json} {rest : List Char} {member : String → Reader Json}
    (hkey : key.toList.length < bound) (hmember : member key = readValue bound levels asked)
    (hvalue : readValue bound levels asked (indented (level + 1) value ++ rest) =
      some (value, rest)) :
    readMember (readString bound) member (indentedMember level (key, value) ++ rest) =
      some ((key, value), rest) := by
  have htext : indentedMember level (key, value) ++ rest =
      '"' :: (key.toList.flatMap escapeChar ++
        '"' :: ':' :: ' ' :: (indented (level + 1) value ++ rest)) := by
    simp [indentedMember, quoted]
  have hspace (text : List Char) : skipSpace (' ' :: text) = skipSpace text := rfl
  rw [htext, readMember, skipSpace_cons rfl]
  simp only [readString_quoted key _ _ hkey, Option.bind_eq_bind, Option.bind_some,
    skipSpace_cons (show isSpace ':' = false from rfl), hmember]
  rw [← readValue_skipSpace, hspace, readValue_skipSpace, hvalue]
  rfl

/-- What is legible is read from its indented text, and what comes after it is left. -/
theorem readValue_indented (value : Json) {bound level levels : Nat} {form : Form}
    {rest : List Char} (hlegible : Legible levels form value)
    (hbound : (indented level value).length < bound) (hrest : Delimited rest) :
    readValue bound levels form (indented level value ++ rest) = some (value, rest) := by
  induction value generalizing level levels form rest with
  | null => exact readValue_scalar bound levels form _ rfl (by decide) (by decide)
  | bool value =>
      cases value <;> exact readValue_scalar bound levels form _ rfl (by decide) (by decide)
  | number value =>
      rw [indented, readValue_numberText bound levels form value hrest,
        legible_number.mp hlegible]
      rfl
  | string value =>
      rw [indented]
      exact readValue_quoted levels form value rest hbound
  | array items ih =>
      obtain ⟨inner, rfl⟩ : ∃ inner, levels = inner + 1 := by
        cases levels with
        | zero => exact hlegible.elim
        | succ inner => exact ⟨inner, rfl⟩
      have hitems : ∀ item ∈ items, ∀ index after, Delimited after →
          readValue bound inner (form.item index) (indented (level + 1) item ++ after) =
            some (item, after) := by
        intro item hitem index after hafter
        exact ih item hitem (hlegible item hitem index)
          (Nat.lt_trans (length_lt_indented_array hitem) hbound) hafter
      rw [indented_array, List.length_cons, List.length_append] at hbound
      have hread := readItems_lines (indented (level + 1)) level bound (Or.inl rfl)
        (fun index => readValue_skipSpace bound inner (form.item index))
        (fun item _ => exists_head_indented (level + 1) item) hitems rest (by omega)
      rw [indented_array, List.cons_append, List.append_assoc, readValue_succ, skipSpace_cons rfl]
      simp only [hread, Option.map_some]
  | object members ih =>
      obtain ⟨inner, rfl⟩ : ∃ inner, levels = inner + 1 := by
        cases levels with
        | zero => exact hlegible.elim
        | succ inner => exact ⟨inner, rfl⟩
      have hmembers : ∀ member ∈ members, ∀ (index : Nat) (after : List Char), Delimited after →
          readMember (readString bound) (readAsked bound inner form)
              (indentedMember level member ++ after) = some (member, after) := by
        intro member hmember index after hafter
        obtain ⟨asked, hasked, hvalue⟩ := hlegible member hmember
        have hshort := Nat.lt_trans (length_lt_indented_object hmember) hbound
        exact readMember_indentedMember
          (Nat.lt_trans (key_length_lt_indentedMember level member) hshort)
          (readAsked_of_member? hasked)
          (ih member hmember hvalue
            (Nat.lt_trans (value_length_lt_indentedMember level member) hshort) hafter)
      rw [indented_object, List.length_cons, List.length_append] at hbound
      have hread := readItems_lines (indentedMember level) level bound (Or.inr rfl)
        (fun _ => readMember_skipSpace _ _)
        (fun member _ => exists_head_indentedMember level member) hmembers rest (by omega)
      rw [indented_object, List.cons_append, List.append_assoc, readValue_succ, skipSpace_cons rfl]
      simp only [hread, Option.map_some]

/-- What is legible by a form reads back from its indented text. -/
theorem readAs?_indentedText {form : Form} {value : Json}
    (hlegible : Legible nestingLimit form value) :
    readAs? form (value.indentedText ++ "\n") = some value := by
  have htext : (value.indentedText ++ "\n").toList = indented 0 value ++ ['\n'] := by
    simp [indentedText]
  have hbound : (indented 0 value).length < (indented 0 value ++ ['\n']).length + 1 := by
    rw [List.length_append]
    omega
  have hread := readValue_indented value hlegible hbound
    (delimited_cons.mpr (by simp) : Delimited ['\n'])
  rw [readAs?, readWithin, htext]
  simp only [hread]
  rfl

end JoinPlan.Json
