import JoinPlan.Proofs.Json.Indented
import JoinPlan.Schema.Decode
import JoinPlan.Schema.Encode

/-!
# Faithful encodings

An encoding is faithful to a reading when whatever is read is written as a value that
is read as the same.  That value is legible, so it survives being text, and it is not
null, which stands for an option that is missing.  Reading takes more forms than are
written, so nothing is said of the value that was read first except how deep it nests;
what is written nests no deeper, or at most so deep as its own shape demands.

Lists, dictionaries and records of what is written faithfully are written faithfully.
A record is followed key by key: each of its parts is found again under its own key,
whatever stands under the others.
-/

namespace JoinPlan

open Json

/-- The written value reads as `x`, is legible, and does not stand for a missing one. -/
structure Writes {α : Type} (levels : Nat) (form : Form) (decode : Json → Option α) (x : α)
    (written : Json) : Prop where
  reads : decode written = some x
  legible : Legible levels form written
  not_null : written ≠ .null

/-- Another reading of the same written value. -/
theorem Writes.of_reads {α β : Type} {levels : Nat} {form : Form} {decode : Json → Option α}
    {other : Json → Option β} {x : α} {y : β} {written : Json}
    (h : Writes levels form decode x written) (hreads : other written = some y) :
    Writes levels form other y written :=
  ⟨hreads, h.legible, h.not_null⟩

/-- There is such a value for `x`, and `encode` finds it. -/
def Kept {α : Type} (levels : Nat) (form : Form) (decode : Json → Option α)
    (encode : α → Option Json) (x : α) : Prop :=
  ∃ written, encode x = some written ∧ Writes levels form decode x written

/-- Everything that is read is kept, where at least so many levels may nest. -/
def Faithful {α : Type} (least : Nat) (form : Form) (decode : Json → Option α)
    (encode : α → Option Json) : Prop :=
  ∀ levels value x, least ≤ levels → NestsWithin levels value → decode value = some x →
    Kept levels form decode encode x

/-! ### Scalars -/

section Scalars

variable (form : Form)

theorem kept_string (levels : Nat) (text : String) :
    Kept levels form string? (fun text => some (.string text)) text :=
  ⟨.string text, rfl, rfl, legible_string levels form text, by simp⟩

theorem faithful_string : Faithful 0 form string? fun text => some (.string text) :=
  fun levels _ text _ _ _ => kept_string form levels text

theorem kept_bool (levels : Nat) (value : Bool) :
    Kept levels form bool? (fun value => some (.bool value)) value :=
  ⟨.bool value, rfl, rfl, legible_bool levels form value, by simp⟩

theorem faithful_bool : Faithful 0 form bool? fun value => some (.bool value) :=
  fun levels _ value _ _ _ => kept_bool form levels value

theorem count?_ofNat {n : Nat} (hn : n < countLimit) : (Json.ofNat n).count? = some n :=
  count?_eq_some_iff.mpr ⟨rfl, hn⟩

theorem lt_of_count? {value : Json} {n : Nat} (h : value.count? = some n) : n < countLimit :=
  (count?_eq_some_iff.mp h).2

theorem faithful_count : Faithful 0 form count? fun n => some (.ofNat n) := by
  intro levels value n _ _ hread
  have hn := lt_of_count? hread
  exact ⟨.ofNat n, rfl, count?_ofNat hn, legible_ofNat levels form hn, by simp [Json.ofNat]⟩

theorem faithful_template {F : Type} :
    Faithful 0 form (Builder.decode (F := F)) Builder.encode := by
  intro levels value builder _ _ hread
  obtain ⟨text, -, rfl⟩ := Option.map_eq_some_iff.mp hread
  exact ⟨.string text, rfl, rfl, legible_string levels form text, by simp⟩

end Scalars

variable {α : Type} {least levels : Nat} {form asked : Form} {decode : Json → Option α}
  {encode : α → Option Json}

/-- The value of an option that may be computed, if it is not. -/
def Computed.encodeLiteral (encode : α → Option Json) : Computed α → Option Json
  | .literal value => encode value
  | .computed _ => none

theorem Computed.encode_eq (literal : α → Json) :
    Computed.encode literal = Computed.encodeLiteral fun value => some (literal value) := by
  funext option
  cases option <;> rfl

theorem Faithful.computed (h : Faithful least form decode encode) :
    Faithful least form (Computed.decode decode) (Computed.encodeLiteral encode) := by
  intro levels value option hleast hvalue hread
  obtain ⟨x, hx, rfl⟩ := Option.map_eq_some_iff.mp hread
  obtain ⟨written, hwritten, hwrites⟩ := h levels value x hleast hvalue hx
  refine ⟨written, hwritten, hwrites.of_reads ?_⟩
  rw [Computed.decode, hwrites.reads]
  rfl

/-! ### Lists and dictionaries -/

theorem Kept.list {items : List α} (h : ∀ x ∈ items, Kept levels .whole decode encode x) :
    Kept (levels + 1) .whole (listOf decode) (fun xs => (xs.mapM encode).map .array) items := by
  obtain ⟨written, hwritten, hreads, hlegible⟩ :=
    exists_mapM (P := Legible levels .whole) fun x hx => by
      obtain ⟨value, hvalue, hwrites⟩ := h x hx
      exact ⟨value, hvalue, hwrites.reads, hwrites.legible⟩
  exact ⟨.array written, congrArg (Option.map Json.array) hwritten, hreads,
    fun item hitem _ => hlegible item hitem, by simp⟩

theorem Faithful.list (h : Faithful (least - 1) .whole decode encode) :
    Faithful least .whole (listOf decode) fun xs => (xs.mapM encode).map .array := by
  intro levels value xs hleast hvalue hread
  obtain ⟨items, hitems, hread⟩ := Option.bind_eq_some_iff.mp hread
  cases value with
  | array given =>
      obtain rfl := Option.some.inj hitems
      obtain ⟨inner, rfl, hinner⟩ := hvalue.of_array
      apply Kept.list
      intro x hx
      obtain ⟨item, hitem, hdecode⟩ := mem_of_mapM_eq_some hread hx
      exact h inner item x (by omega) (hinner item hitem) hdecode
  | _ => contradiction

/-- A list of what always has a text always has one. -/
theorem Faithful.list_write {write : α → Json}
    (h : Faithful (least - 1) .whole decode fun x => some (write x)) :
    Faithful least .whole (listOf decode) fun xs => some (.array (xs.map write)) := by
  have hwrite (xs : List α) : (xs.mapM fun x => some (write x)).map Json.array =
      some (.array (xs.map write)) := by
    rw [mapM_eq_some_map fun _ _ => rfl, Option.map_some]
  simpa only [hwrite] using Faithful.list h

theorem faithful_strings :
    Faithful 0 .whole (listOf string?) fun texts => some (encodeStrings texts) :=
  Faithful.list_write (faithful_string .whole)

/-- The entries of a dictionary are read one by one. -/
theorem Kept.entries {entries : List (String × α)}
    (h : ∀ entry ∈ entries, Kept levels asked decode encode entry.2)
    (hform : ∀ key, form.member? key = some asked) :
    ∃ members : Object, encodeEntries encode entries = some (.object members) ∧
      mappingOf decode (.object members) = some entries ∧
      Legible (levels + 1) form (.object members) := by
  have heach : ∀ entry ∈ entries, ∃ member : String × Json,
      (encode entry.2).map (fun json => (entry.1, json)) = some member ∧
        (decode member.2).map (fun decoded => (member.1, decoded)) = some entry ∧
        Legible levels asked member.2 := by
    intro entry hentry
    obtain ⟨value, hvalue, hwrites⟩ := h entry hentry
    exact ⟨(entry.1, value), by rw [hvalue]; rfl, by rw [hwrites.reads]; rfl, hwrites.legible⟩
  obtain ⟨members, hmembers, hreads, hlegible⟩ := exists_mapM heach
  exact ⟨members, congrArg (Option.map Json.object) hmembers, hreads,
    fun member hmember => ⟨asked, hform member.1, hlegible member hmember⟩⟩

theorem Faithful.dictionary (h : Faithful (least - 1) asked decode encode)
    (hform : ∀ key, form.member? key = some asked) :
    Faithful least form (dictionaryOf decode) (encodeEntries encode) := by
  intro levels value entries hleast hvalue hdictionary
  obtain ⟨read, hmapping, rfl⟩ := Option.map_eq_some_iff.mp hdictionary
  obtain ⟨members, hmembers, hread⟩ := Option.bind_eq_some_iff.mp hmapping
  cases value with
  | object given =>
      obtain rfl := Option.some.inj hmembers
      obtain ⟨inner, rfl, hinner⟩ := hvalue.of_object
      have hentries : ∀ entry ∈ Assoc.sorted read, Kept inner asked decode encode entry.2 := by
        intro entry hentry
        obtain ⟨member, hmember, hdecode⟩ :=
          mem_of_mapM_eq_some hread (Assoc.mem_of_mem_sorted hentry)
        obtain ⟨x, hx, rfl⟩ := Option.map_eq_some_iff.mp hdecode
        exact h inner member.2 x (by omega) (hinner member hmember) hx
      obtain ⟨written, hwritten, hreads, hlegible⟩ := Kept.entries hentries hform
      refine ⟨.object written, hwritten, ?_, hlegible, by simp⟩
      rw [dictionaryOf, hreads, Option.map_some, Assoc.sorted_sorted]
  | _ => contradiction

theorem kept_dictionary_nil :
    Kept (levels + 1) form (dictionaryOf decode) (encodeEntries encode) [] :=
  ⟨.object [], rfl, rfl, by simp [Legible], by simp⟩

/-- One item is written as itself, so it must not be read from an array. -/
theorem Faithful.oneOrMany (h : Faithful 0 .whole decode encode)
    (harray : ∀ items, decode (.array items) = none) :
    Faithful 0 .whole (OneOrMany.decode decode) (OneOrMany.encode encode) := by
  intro levels value option hleast hvalue hread
  rcases Option.or_eq_some_iff.mp hread with hone | ⟨-, hmany⟩
  · obtain ⟨x, hx, rfl⟩ := Option.map_eq_some_iff.mp hone
    obtain ⟨written, hwritten, hwrites⟩ := h levels value x hleast hvalue hx
    refine ⟨written, hwritten, hwrites.of_reads ?_⟩
    rw [OneOrMany.decode, hwrites.reads]
    rfl
  · obtain ⟨xs, hxs, rfl⟩ := Option.map_eq_some_iff.mp hmany
    obtain ⟨written, hwritten, hwrites⟩ := Faithful.list h levels value xs hleast hvalue hxs
    obtain ⟨items, -, rfl⟩ := Option.map_eq_some_iff.mp hwritten
    refine ⟨.array items, hwritten, hwrites.of_reads ?_⟩
    rw [OneOrMany.decode, harray, hwrites.reads]
    rfl

/-! ### Records -/

/-- The members of a record, of which those that are missing are left out. -/
def present (parts : List (String × Option Json)) : Object :=
  parts.flatMap fun part => member part.1 id part.2

@[simp]
theorem present_nil : present [] = [] := rfl

@[simp]
theorem present_cons (part : String × Option Json) (rest : List (String × Option Json)) :
    present (part :: rest) = member part.1 id part.2 ++ present rest := rfl

theorem memberM_some (key : String) (encode : α → Option Json) (value : α) :
    memberM key encode (some value) = (encode value).map fun json => [(key, json)] := rfl

@[simp]
theorem member_some (key : String) (write : α → Json) (value : α) :
    member key write (some value) = [(key, write value)] := rfl

@[simp]
theorem member_map (key : String) (write : α → Json) (value : Option α) :
    member key id (value.map write) = member key write value := by
  cases value <;> rfl

theorem keys_present_sublist (parts : List (String × Option Json)) :
    (Assoc.keys (present parts)).Sublist (Assoc.keys parts) := by
  induction parts with
  | nil => exact .slnil
  | cons part rest ih =>
      cases part with
      | mk key written =>
          cases written with
          | none => exact ih.cons key
          | some value => exact ih.cons_cons key

/-- Under a key stands what was written under it. -/
theorem get?_present {parts : List (String × Option Json)} (hnodup : (Assoc.keys parts).Nodup)
    {part : String × Option Json} (hpart : part ∈ parts) :
    Assoc.get? part.1 (present parts) = part.2 := by
  induction parts with
  | nil => contradiction
  | cons first rest ih =>
      obtain ⟨hfresh, hrest⟩ := List.nodup_cons.mp hnodup
      rw [present_cons, Assoc.get?_append]
      rcases List.mem_cons.mp hpart with rfl | hlater
      · cases hwritten : part.2 with
        | some value => simp [member, Assoc.get?]
        | none =>
            have habsent : part.1 ∉ Assoc.keys (present rest) :=
              fun hmem => hfresh ((keys_present_sublist rest).subset hmem)
            have hnone := Assoc.get?_append_of_not_mem [] habsent
            rw [List.append_nil] at hnone
            simpa [member] using hnone
      · have hne : first.1 ≠ part.1 := by
          intro heq
          exact hfresh (heq ▸ List.mem_map_of_mem (f := Prod.fst) hlater)
        have hfirst : Assoc.get? part.1 (member first.1 id first.2) = none := by
          cases first.2 <;> simp [member, Assoc.get?, hne]
        rw [hfirst, Option.none_or, ih hrest hlater]

/-- What is present under known keys is all fields, none of them twice. -/
theorem objectFields?_present {parts : List (String × Option Json)}
    (hnodup : (Assoc.keys parts).Nodup) :
    (Json.object (present parts)).objectFields? (Assoc.keys parts) = some (present parts) := by
  have hknown : (present parts).filter (fun member => (Assoc.keys parts).contains member.1) =
      present parts := by
    apply List.filter_eq_self.mpr
    intro member hmember
    exact List.contains_iff_mem.mpr
      ((keys_present_sublist parts).subset (List.mem_map_of_mem (f := Prod.fst) hmember))
  have hdistinct := Assoc.distinct_of_nodup (hnodup.sublist (keys_present_sublist parts))
  simp only [objectFields?, memberFields?, hknown, hdistinct, if_true]

/-- These parts of a record are legible, and fields that agree with them under their
keys read as `x`. -/
structure KeptAs {α : Type} (levels : Nat) (form : Form) (read : Fields → Option α) (x : α)
    (parts : List (String × Option Json)) : Prop where
  legible : ∀ part ∈ parts, ∀ value, part.2 = some value →
    ∃ asked, form.member? part.1 = some asked ∧ Legible levels asked value
  reads : ∀ fields, (∀ part ∈ parts, Assoc.get? part.1 fields = part.2) → read fields = some x

namespace KeptAs

theorem nil (x : α) : KeptAs levels form (fun _ => some x) x [] :=
  ⟨by simp, fun _ _ => rfl⟩

/-- What is read under one key is kept by the value that stands there. -/
theorem single {key : String} {value : Json} {read : Fields → Option α} {x : α}
    (hform : form.member? key = some asked) (hlegible : Legible levels asked value)
    (hreads : ∀ fields, Assoc.get? key fields = some value → read fields = some x) :
    KeptAs levels form read x [(key, some value)] :=
  ⟨by simpa using ⟨asked, hform, hlegible⟩,
    fun fields hfields => hreads fields (hfields (key, some value) List.mem_cons_self)⟩

theorem missing {key : String} {read : Fields → Option α} {x : α}
    (hreads : ∀ fields, Assoc.get? key fields = none → read fields = some x) :
    KeptAs levels form read x [(key, none)] :=
  ⟨by simp, fun fields hfields => hreads fields (hfields (key, none) List.mem_cons_self)⟩

/-- What is read next stands in further parts. -/
theorem bind {β : Type} {read : Fields → Option α} {next : α → Fields → Option β} {x : α} {y : β}
    {parts others : List (String × Option Json)} (h : KeptAs levels form read x parts)
    (hnext : KeptAs levels form (next x) y others) :
    KeptAs levels form (fun fields => (read fields).bind fun x => next x fields) y
      (parts ++ others) where
  legible part hpart := (List.mem_append.mp hpart).elim (h.legible part) (hnext.legible part)
  reads fields hfields := by
    rw [h.reads fields fun part hpart => hfields part (List.mem_append_left others hpart)]
    exact hnext.reads fields fun part hpart => hfields part (List.mem_append_right parts hpart)

/-- The object of the parts reads as the record. -/
theorem writes {read : Fields → Option α} {x : α} {parts : List (String × Option Json)}
    (h : KeptAs levels form read x parts) {known : List String} (hkeys : Assoc.keys parts = known)
    (hnodup : known.Nodup) :
    Writes (levels + 1) form (fun value => (value.objectFields? known).bind read) x
      (.object (present parts)) where
  reads := by
    subst hkeys
    simp only [objectFields?_present hnodup, Option.bind_some]
    exact h.reads _ fun part hpart => get?_present hnodup hpart
  legible := by
    intro entry hentry
    obtain ⟨part, hpart, hwritten⟩ := List.mem_flatMap.mp hentry
    cases hvalue : part.2 with
    | none =>
        rw [hvalue] at hwritten
        contradiction
    | some value =>
        rw [hvalue] at hwritten
        obtain rfl := List.mem_singleton.mp hwritten
        exact h.legible part hpart value hvalue
  not_null := by simp

end KeptAs

/-! ### The parts of a record -/

theorem member?_whole (key : String) : Form.whole.member? key = some .whole := rfl

section Parts

variable {key : String} {fields : Fields}

theorem nestsWithin_get? (hfields : ∀ member ∈ fields, NestsWithin levels member.2)
    {value : Json} (hvalue : Assoc.get? key fields = some value) : NestsWithin levels value :=
  hfields _ (Assoc.mem_of_get?_eq_some hvalue)

theorem Faithful.required (h : Faithful least asked decode encode)
    (hform : form.member? key = some asked) (hleast : least ≤ levels)
    (hfields : ∀ member ∈ fields, NestsWithin levels member.2) {x : α}
    (hread : Json.required decode key fields = some x) :
    ∃ written, encode x = some written ∧
      KeptAs levels form (Json.required decode key) x [(key, some written)] := by
  obtain ⟨value, hvalue, hdecode⟩ := Option.bind_eq_some_iff.mp hread
  obtain ⟨written, hwritten, hwrites⟩ :=
    h levels value x hleast (nestsWithin_get? hfields hvalue) hdecode
  refine ⟨written, hwritten, .single hform hwrites.legible fun others hothers => ?_⟩
  rw [Json.required, hothers]
  exact hwrites.reads

theorem Faithful.optional (h : Faithful least asked decode encode)
    (hform : form.member? key = some asked) (hleast : least ≤ levels)
    (hfields : ∀ member ∈ fields, NestsWithin levels member.2) {x : Option α}
    (hread : Json.optional decode key fields = some x) :
    ∃ written, memberM key encode x = some (member key id written) ∧
      KeptAs levels form (Json.optional decode key) x [(key, written)] := by
  cases x with
  | none =>
      refine ⟨none, rfl, .missing fun others hothers => ?_⟩
      rw [Json.optional, hothers]
  | some x =>
      rw [Json.optional] at hread
      split at hread
      · exact absurd (Option.some.inj hread) (by simp)
      · exact absurd (Option.some.inj hread) (by simp)
      · rename_i value hnotNull hvalue
        obtain ⟨read, hdecode, hx⟩ := Option.map_eq_some_iff.mp hread
        obtain rfl := Option.some.inj hx
        obtain ⟨written, hwritten, hwrites⟩ :=
          h levels value read hleast (nestsWithin_get? hfields hvalue) hdecode
        refine ⟨some written, by rw [memberM_some, hwritten]; rfl,
          .single hform hwrites.legible fun others hothers => ?_⟩
        rw [Json.optional, hothers]
        cases written with
        | null => exact absurd rfl hwrites.not_null
        | _ => exact congrArg (Option.map some) hwrites.reads

theorem Faithful.defaulted (h : Faithful least asked decode encode)
    (hform : form.member? key = some asked) (hleast : least ≤ levels)
    (hfields : ∀ member ∈ fields, NestsWithin levels member.2) {fallback x : α}
    (hfallback : Kept levels asked decode encode fallback)
    (hread : Json.defaulted decode fallback key fields = some x) :
    ∃ written, encode x = some written ∧
      KeptAs levels form (Json.defaulted decode fallback key) x [(key, some written)] := by
  have hkept : Kept levels asked decode encode x := by
    rw [Json.defaulted] at hread
    split at hread
    · obtain rfl := Option.some.inj hread
      exact hfallback
    · rename_i value hvalue
      exact h levels value x hleast (nestsWithin_get? hfields hvalue) hread
  obtain ⟨written, hwritten, hwrites⟩ := hkept
  refine ⟨written, hwritten, .single hform hwrites.legible fun others hothers => ?_⟩
  rw [Json.defaulted, hothers]
  exact hwrites.reads

/-! Where everything has a text, so has every part. -/

variable {write : α → Json}

theorem Faithful.kept_required (h : Faithful least asked decode fun x => some (write x))
    (hform : form.member? key = some asked) (hleast : least ≤ levels)
    (hfields : ∀ member ∈ fields, NestsWithin levels member.2) {x : α}
    (hread : Json.required decode key fields = some x) :
    KeptAs levels form (Json.required decode key) x [(key, some (write x))] := by
  obtain ⟨written, hwritten, hkept⟩ := h.required hform hleast hfields hread
  obtain rfl := Option.some.inj hwritten
  exact hkept

theorem Faithful.kept_optional (h : Faithful least asked decode fun x => some (write x))
    (hform : form.member? key = some asked) (hleast : least ≤ levels)
    (hfields : ∀ member ∈ fields, NestsWithin levels member.2) {x : Option α}
    (hread : Json.optional decode key fields = some x) :
    KeptAs levels form (Json.optional decode key) x [(key, x.map write)] := by
  obtain ⟨written, hwritten, hkept⟩ := h.optional hform hleast hfields hread
  cases x <;> cases written <;> simp_all [memberM, member]

theorem Faithful.kept_defaulted (h : Faithful least asked decode fun x => some (write x))
    (hform : form.member? key = some asked) (hleast : least ≤ levels)
    (hfields : ∀ member ∈ fields, NestsWithin levels member.2) {fallback x : α}
    (hfallback : Kept levels asked decode (fun x => some (write x)) fallback)
    (hread : Json.defaulted decode fallback key fields = some x) :
    KeptAs levels form (Json.defaulted decode fallback key) x [(key, some (write x))] := by
  obtain ⟨written, hwritten, hkept⟩ := h.defaulted hform hleast hfields hfallback hread
  obtain rfl := Option.some.inj hwritten
  exact hkept

end Parts

/-- The fields of a record nest one level less than the record. -/
theorem nestsWithin_of_objectFields? {known : List String} {value : Json} {fields : Fields}
    (hfields : value.objectFields? known = some fields) (hvalue : NestsWithin levels value) :
    ∃ inner, levels = inner + 1 ∧ ∀ member ∈ fields, NestsWithin inner member.2 := by
  cases value with
  | object members =>
      obtain ⟨inner, hlevels, hinner⟩ := hvalue.of_object
      refine ⟨inner, hlevels, fun member hmember => hinner member ?_⟩
      rw [objectFields?, memberFields?] at hfields
      split at hfields
      · obtain rfl := Option.some.inj hfields
        exact List.mem_of_mem_filter hmember
      · contradiction
  | _ => contradiction

theorem nestsWithin_of_fields? {known : List String} {value : Json} {fields : Fields}
    (hfields : value.fields? known = some fields) (hvalue : NestsWithin levels value) :
    ∃ inner, levels = inner + 1 ∧ ∀ member ∈ fields, NestsWithin inner member.2 := by
  cases value with
  | object members =>
      have hobject : (Json.object members).objectFields? known = some fields := hfields
      exact nestsWithin_of_objectFields? hobject hvalue
  | array items =>
      obtain ⟨inner, hlevels, hinner⟩ := hvalue.of_array
      refine ⟨inner, hlevels, fun member hmember => hinner member.2 ?_⟩
      rw [fields?, listFields?] at hfields
      split at hfields
      · obtain rfl := Option.some.inj hfields
        exact (List.of_mem_zip hmember).2
      · contradiction
  | _ => contradiction

section Records

variable {known : List String} {read : Fields → Option α}

/-- Whatever is read from such fields is kept in parts under these keys. -/
def KeepsFields (least : Nat) (form : Form) (known : List String) (read : Fields → Option α)
    (encode : α → Option Json) : Prop :=
  ∀ levels fields x, least ≤ levels → (∀ member ∈ fields, NestsWithin levels member.2) →
    read fields = some x → ∃ parts, Assoc.keys parts = known ∧
      encode x = some (.object (present parts)) ∧ KeptAs levels form read x parts

/-- A record is kept if its fields are, under distinct keys. -/
theorem KeepsFields.faithful_object (h : KeepsFields (least - 1) form known read encode)
    (hnodup : known.Nodup) :
    Faithful least form (fun value => (value.objectFields? known).bind read) encode := by
  intro levels value x hleast hvalue hread
  obtain ⟨fields, hfields, hread⟩ := Option.bind_eq_some_iff.mp hread
  obtain ⟨inner, rfl, hinner⟩ := nestsWithin_of_objectFields? hfields hvalue
  obtain ⟨parts, hkeys, hencode, hkept⟩ := h inner fields x (by omega) hinner hread
  exact ⟨_, hencode, hkept.writes hkeys hnodup⟩

/-- The same if the fields may also be listed; they are not written so. -/
theorem KeepsFields.faithful (h : KeepsFields (least - 1) form known read encode)
    (hnodup : known.Nodup) :
    Faithful least form (fun value => (value.fields? known).bind read) encode := by
  intro levels value x hleast hvalue hread
  obtain ⟨fields, hfields, hread⟩ := Option.bind_eq_some_iff.mp hread
  obtain ⟨inner, rfl, hinner⟩ := nestsWithin_of_fields? hfields hvalue
  obtain ⟨parts, hkeys, hencode, hkept⟩ := h inner fields x (by omega) hinner hread
  have hwrites := hkept.writes hkeys hnodup
  exact ⟨_, hencode, hwrites.of_reads hwrites.reads⟩

end Records

end JoinPlan
