import JoinPlan.Proofs.Schema.Options
import JoinPlan.Proofs.Schema.TypeRef

/-!
# Types and schemas are written faithfully

The definition of a field is its type beside its options, so the parts of the options are
parts of the definition.  What has a default is written all the same, except for an empty
list of types, which is left out and read again as the default.
-/

namespace JoinPlan

open Json

/-! ### Texts that are read back -/

theorem kept_text {α : Type} (levels : Nat) (form : Form) {decode : Json → Option α}
    {text : α → String} {x : α} (h : decode (.string (text x)) = some x) :
    Kept levels form decode (fun x => some (.string (text x))) x :=
  ⟨_, rfl, h, legible_string levels form (text x), by simp⟩

theorem faithful_text {α : Type} (form : Form) {decode : Json → Option α} {text : α → String}
    (h : ∀ value x, decode value = some x → decode (.string (text x)) = some x) :
    Faithful 0 form decode fun x => some (.string (text x)) :=
  fun levels value x _ _ hread => kept_text levels form (h value x hread)

theorem faithful_typeRef (form : Form) :
    Faithful 0 form TypeRef.decode fun type => some (.string type.text) := by
  apply faithful_text
  intro value type hread
  obtain ⟨text, -, hparse⟩ := Option.bind_eq_some_iff.mp hread
  cases hparsed : TypeRef.parse text with
  | error part =>
      rw [hparsed] at hparse
      contradiction
  | ok parsed =>
      rw [hparsed] at hparse
      obtain rfl := Option.some.inj hparse
      rw [TypeRef.decode, string?, Option.bind_some, TypeRef.parse_text hparsed]
      rfl

theorem faithful_typeKind (form : Form) :
    Faithful 0 form TypeKind.decode fun kind => some (.string kind.text) := by
  apply faithful_text
  intro value kind _
  cases kind <;> rfl

/-! ### Tables and fields -/

theorem member?_ofNames {names : List String} {key : String} (h : key ∈ names) :
    (Form.ofNames names).member? key = some .whole :=
  (Assoc.get?_map_pair fun _ => Form.whole).trans (if_pos h)

theorem faithful_table : Faithful 0 TableOptions.form TableOptions.decode TableOptions.encode := by
  refine KeepsFields.faithful ?_ (by decide : TableOptions.form.names.Nodup)
  intro levels fields table hleast hfields hread
  simp only [Option.bind_eq_bind, Option.bind_eq_some_iff, Option.some.injEq] at hread
  obtain ⟨sqlTable, hsqlTable, uniqueKey, huniqueKey, alwaysFetch, halwaysFetch, rfl⟩ := hread
  have hform {key : String} (hkey : key ∈ ["sqlTable", "uniqueKey", "alwaysFetch"]) :
      TableOptions.form.member? key = some .whole := member?_ofNames hkey
  obtain ⟨writtenTable, hwrittenTable, ktable⟩ := (faithful_string .whole).computed.required
    (hform (by decide)) hleast hfields hsqlTable
  have kkey := faithful_uniqueKey.kept_required (hform (by decide)) hleast hfields huniqueKey
  have hcolumns := (faithful_template (F := String → Arguments → Context → String) .whole).oneOrMany
    fun _ => rfl
  obtain ⟨writtenColumns, hwrittenColumns, kcolumns⟩ := hcolumns.optional (hform (by decide))
    hleast hfields halwaysFetch
  refine ⟨_, rfl, ?_, ktable.bind (kkey.bind (kcolumns.bind (.nil _)))⟩
  simp only [TableOptions.encode, Computed.encode_eq, hwrittenTable, hwrittenColumns,
    Option.bind_eq_bind, Option.bind_some]
  simp

theorem faithful_field : Faithful 0 .whole FieldDefinition.decode FieldDefinition.encode := by
  refine KeepsFields.faithful_object ?_ (by decide : ("type" :: FieldOptions.names).Nodup)
  intro levels fields field hleast hfields hread
  simp only [Option.bind_eq_bind, Option.bind_eq_some_iff, Option.some.injEq] at hread
  obtain ⟨type, htype, options, hoptions, rfl⟩ := hread
  have ktype := (faithful_typeRef .whole).kept_required (member?_whole _) hleast hfields htype
  obtain ⟨parts, hkeys, hencode, koptions⟩ := faithful_options
    (faithful_optionsWithin nestingLimit) levels fields options hleast hfields hoptions
  obtain ⟨members, hmembers, hobject⟩ := Option.map_eq_some_iff.mp hencode
  obtain rfl := Json.object.inj hobject
  refine ⟨_, ?_, ?_, ktype.bind (koptions.bind (.nil _))⟩
  · simp [Assoc.keys, ← hkeys]
  · rw [FieldDefinition.encode, hmembers]
    simp

/-! ### Types -/

/-- An empty list of texts is left out, which is its default. -/
theorem kept_stringsMember {levels : Nat} {form : Form} {key : String} {fields : Fields}
    (hform : form.member? key = some .whole) (hlevels : 1 ≤ levels)
    (hfields : ∀ member ∈ fields, NestsWithin levels member.2) {texts : List String}
    (hread : defaulted (listOf string?) [] key fields = some texts) :
    ∃ written, stringsMember key texts = member key id written ∧
      KeptAs levels form (defaulted (listOf string?) [] key) texts [(key, written)] := by
  obtain ⟨inner, rfl⟩ := Nat.exists_eq_add_of_le' hlevels
  cases texts with
  | nil =>
      refine ⟨none, rfl, .missing fun others hothers => ?_⟩
      rw [defaulted, hothers]
  | cons text texts =>
      have hempty : Kept (inner + 1) .whole (listOf string?)
          (fun texts => some (encodeStrings texts)) [] :=
        ⟨.array [], rfl, rfl, by simp [Legible], by simp⟩
      exact ⟨_, rfl, faithful_strings.kept_defaulted hform (Nat.zero_le _) hfields hempty hread⟩

theorem faithful_type :
    Faithful 2 TypeDefinition.form TypeDefinition.decode TypeDefinition.encode := by
  refine KeepsFields.faithful ?_ (by decide : TypeDefinition.form.names.Nodup)
  intro levels fields type hlevels hfields hread
  simp only [Option.bind_eq_bind, Option.bind_eq_some_iff, Option.some.injEq] at hread
  obtain ⟨kind, hkind, definitions, hdefinitions, interfaces, hinterfaces, possibleTypes,
    hpossibleTypes, table, htable, rfl⟩ := hread
  obtain ⟨inner, rfl⟩ := Nat.exists_eq_add_of_le' hlevels
  have hleast := Nat.zero_le (inner + 1)
  have kkind := (faithful_typeKind .whole).kept_required
    (rfl : TypeDefinition.form.member? "kind" = _) hleast hfields hkind
  have hdictionary : Faithful 0 .whole (dictionaryOf FieldDefinition.decode)
      (encodeEntries FieldDefinition.encode) := Faithful.dictionary faithful_field member?_whole
  obtain ⟨writtenFields, hwrittenFields, kfields⟩ := hdictionary.defaulted
    (rfl : TypeDefinition.form.member? "fields" = _) hleast hfields kept_dictionary_nil hdefinitions
  obtain ⟨writtenInterfaces, hwrittenInterfaces, kinterfaces⟩ := kept_stringsMember
    (rfl : TypeDefinition.form.member? "interfaces" = _) (Nat.le_add_left 1 inner) hfields
    hinterfaces
  obtain ⟨writtenTypes, hwrittenTypes, ktypes⟩ := kept_stringsMember
    (rfl : TypeDefinition.form.member? "possibleTypes" = _) (Nat.le_add_left 1 inner) hfields
    hpossibleTypes
  obtain ⟨writtenTable, hwrittenTable, ktable⟩ := faithful_table.optional
    (rfl : TypeDefinition.form.member? "table" = _) hleast hfields htable
  refine ⟨_, rfl, ?_, kkind.bind (kfields.bind (kinterfaces.bind (ktypes.bind
    (ktable.bind (.nil _)))))⟩
  simp only [TypeDefinition.encode, hwrittenFields, hwrittenInterfaces, hwrittenTypes,
    hwrittenTable, Option.bind_eq_bind, Option.bind_some]
  simp

theorem faithful_schema : Faithful 4 Schema.form Schema.decode Schema.encode := by
  refine KeepsFields.faithful ?_ (by decide : Schema.form.names.Nodup)
  intro levels fields schema hlevels hfields hread
  simp only [Option.bind_eq_bind, Option.bind_eq_some_iff, Option.some.injEq] at hread
  obtain ⟨types, htypes, rfl⟩ := hread
  obtain ⟨inner, rfl⟩ := Nat.exists_eq_add_of_le' hlevels
  have hdictionary : Faithful 3 (.dictionary TypeDefinition.form)
      (dictionaryOf TypeDefinition.decode) (encodeEntries TypeDefinition.encode) :=
    Faithful.dictionary faithful_type fun _ => rfl
  obtain ⟨written, hwritten, ktypes⟩ := hdictionary.defaulted
    (rfl : Schema.form.member? "types" = _) (by omega) hfields kept_dictionary_nil htypes
  refine ⟨_, rfl, ?_, ktypes.bind (.nil _)⟩
  simp only [Schema.encode, hwritten, Option.bind_eq_bind, Option.bind_some]
  simp

end JoinPlan
