import JoinPlan.Configuration
import JoinPlan.Proofs.Json.Injective
import JoinPlan.Proofs.Schema.Definitions

/-!
# A configuration survives being written

Every configuration that a text gives has a text again, which gives the same
configuration: what can be read is written faithfully, part by part, and what is
written is legible, so the indented text reads back.
-/

namespace JoinPlan

open Json

theorem Dialect.decode_choice (dialect : Dialect) :
    Dialect.decode (.string dialect.choice) = some dialect := by
  cases dialect <;> rfl

theorem faithful_dialect (form : Form) :
    Faithful 0 form Dialect.decode fun dialect => some (.string dialect.choice) :=
  faithful_text form fun _ dialect _ => dialect.decode_choice

/-- A text as the only field of an object. -/
theorem faithful_onlyField (key : String) :
    Faithful 0 .whole (fun value => (value.objectFields? [key]).bind (required string? key))
      fun text => some (.object [(key, .string text)]) := by
  refine KeepsFields.faithful_object ?_ (List.nodup_singleton key)
  intro levels fields text hleast hfields hread
  exact ⟨_, rfl, rfl, (faithful_string .whole).kept_required (member?_whole _) hleast hfields hread⟩

/-- A secret is written under its own key only, so a variable is not taken for a text. -/
theorem faithful_secret : Faithful 0 .whole Secret.decode fun secret => some secret.encode := by
  intro levels value secret hleast hvalue hread
  rcases Option.or_eq_some_iff.mp hread with hplain | ⟨-, hvariable⟩
  · obtain ⟨text, htext, rfl⟩ := Option.map_eq_some_iff.mp hplain
    obtain ⟨_, hwritten, hwrites⟩ := faithful_onlyField "value" levels value text hleast hvalue
      htext
    obtain rfl := Option.some.inj hwritten
    refine ⟨_, rfl, hwrites.of_reads ?_⟩
    exact congrArg (fun read => (Option.map Secret.plain read).or _) hwrites.reads
  · obtain ⟨name, hname, rfl⟩ := Option.map_eq_some_iff.mp hvariable
    obtain ⟨_, hwritten, hwrites⟩ := faithful_onlyField "variable" levels value name hleast hvalue
      hname
    obtain rfl := Option.some.inj hwritten
    refine ⟨_, rfl, hwrites.of_reads ?_⟩
    exact congrArg (Option.map Secret.variable) hwrites.reads

namespace Configuration

theorem faithful_version (form : Form) :
    Faithful 0 form decodeVersion fun version => some (.ofNat version) := by
  intro levels value version _ _ hread
  obtain ⟨hcount, hlimit⟩ := Option.filter_eq_some_iff.mp hread
  have hn := lt_of_count? hcount
  refine ⟨.ofNat version, rfl, ?_, legible_ofNat levels form hn, by simp [Json.ofNat]⟩
  rw [decodeVersion, count?_ofNat hn]
  exact Option.filter_eq_some_iff.mpr ⟨rfl, hlimit⟩

theorem faithful : Faithful 5 form decode encode := by
  refine KeepsFields.faithful ?_ (by decide : form.names.Nodup)
  intro levels fields configuration hlevels hfields hread
  simp only [Option.bind_eq_bind, Option.bind_eq_some_iff, Option.some.injEq] at hread
  obtain ⟨version, hversion, dialect, hdialect, minify, hminify, connectionUri, hconnectionUri,
    schema, hschema, rfl⟩ := hread
  have hleast := Nat.zero_le levels
  have kversion := (faithful_version .whole).kept_required
    (rfl : form.member? "version" = _) hleast hfields hversion
  have kdialect := (faithful_dialect .whole).kept_defaulted
    (rfl : form.member? "dialect" = _) hleast hfields
    (kept_text levels .whole (Dialect.decode_choice .sqlite)) hdialect
  have kminify := (faithful_bool .whole).kept_defaulted
    (rfl : form.member? "minify" = _) hleast hfields (kept_bool .whole levels false) hminify
  have kuri := faithful_secret.kept_optional
    (rfl : form.member? "connectionUri" = _) hleast hfields hconnectionUri
  have hinitial : Kept levels Schema.form Schema.decode Schema.encode .empty := by
    obtain ⟨inner, rfl⟩ := Nat.exists_eq_add_of_le' hlevels
    exact faithful_schema (inner + 4) (.object []) .empty (by omega) (by simp [NestsWithin]) rfl
  obtain ⟨writtenSchema, hwrittenSchema, kschema⟩ := faithful_schema.defaulted
    (rfl : form.member? "schema" = _) hlevels hfields hinitial hschema
  refine ⟨_, rfl, ?_, kversion.bind (kdialect.bind (kminify.bind (kuri.bind
    (kschema.bind (.nil _)))))⟩
  simp only [encode, hwrittenSchema, Option.bind_eq_bind, Option.bind_some]
  simp

/-- A configuration read from a text has a text, and reading that gives it again. -/
theorem parses_back {text : String} {configuration : Configuration}
    (h : parse? text = some configuration) :
    ∃ written, configuration.text? = some written ∧ parse? written = some configuration := by
  obtain ⟨value, hread, hdecode⟩ := Option.bind_eq_some_iff.mp h
  obtain ⟨written, hencode, hwrites⟩ := faithful nestingLimit value configuration (by decide)
    (nestsWithin_of_readAs? hread) hdecode
  refine ⟨written.indentedText ++ "\n", by rw [text?, hencode]; rfl, ?_⟩
  rw [parse?, readAs?_indentedText hwrites.legible, Option.bind_some, hwrites.reads]

/-- Records that are listed, an option that is null, and a type with white space in it: read, but
not written so. -/
def listedText : String :=
  "\x7b\"version\":1,\"schema\":[\x7b\"Post\":[\"object\",\x7b\"tags\":\x7b" ++
    "\"type\":\"[Tag !]\",\"where\":null,\"orderBy\":\x7b\"b\":\"DESC\",\"a\":\"ASC\"\x7d" ++
    "\x7d\x7d]\x7d]\x7d"

def listedConfiguration : Configuration :=
  { initial with
    schema := ⟨[("Post", {
      kind := .object
      fields := [("tags", {
        type := .list (.nonNull (.named "Tag"))
        options := { FieldOptions.empty with
          orderBy := some (.literal (.mapping [("b", "DESC"), ("a", "ASC")])) } })]
      interfaces := []
      possibleTypes := []
      table := none })]⟩ }

/-- The value of that text, with the records that are listed. -/
def listedValue : Json :=
  .object [("version", .number (.int 1)),
    ("schema", .array [.object [("Post", .array [.string "object", .object [("tags",
      .object [("type", .string "[Tag !]"), ("where", .null),
        ("orderBy", .object [("b", .string "DESC"), ("a", .string "ASC")])])]])]])]

theorem readAs?_listedText : readAs? form listedText = some listedValue := by
  have htext : (readAs? form listedText).map Json.text = some listedValue.text := by
    decide +kernel
  obtain ⟨value, hvalue, hsame⟩ := Option.map_eq_some_iff.mp htext
  rw [hvalue, text_injective hsame]

/-- Type references are read by well-founded recursion, which unfolds only when told to. -/
theorem decode_listedValue : decode listedValue = some listedConfiguration := by
  with_unfolding_all rfl

theorem parse?_listedText : parse? listedText = some listedConfiguration := by
  rw [parse?, readAs?_listedText, Option.bind_some, decode_listedValue]

theorem parses_back_listedConfiguration :
    parse? listedText = some listedConfiguration ∧
      ∃ written, listedConfiguration.text? = some written ∧
        parse? written = some listedConfiguration :=
  ⟨parse?_listedText, parses_back parse?_listedText⟩

end Configuration

end JoinPlan
