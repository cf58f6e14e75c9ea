import JoinPlan.Proofs.Schema.TypeRef
import Mathlib.Data.List.DropRight

/-!
# Type references as tokens

A type is written as names, brackets and marks, and white space of any kind may stand
before, between and after these tokens.  Reading peels a text from its two ends, which
comes to the same: it accepts the texts in which the tokens of a type stand in their order
with nothing but white space around them, and no others.
-/

namespace JoinPlan

namespace Text

/-- A text in which tokens stand one after the other, with white space around them. -/
inductive Spaced : List (List Char) → List Char → Prop
  | nil {blanks : List Char} (hblanks : ∀ c ∈ blanks, isBlank c = true) : Spaced [] blanks
  | cons {blanks token rest : List Char} {tokens : List (List Char)}
      (hblanks : ∀ c ∈ blanks, isBlank c = true) (hrest : Spaced tokens rest) :
      Spaced (token :: tokens) (blanks ++ (token ++ rest))

/-! ### White space at the ends -/

theorem trim_append_left {blanks : List Char} (hblanks : ∀ c ∈ blanks, isBlank c = true)
    (text : List Char) : trim (blanks ++ text) = trim text := by
  rw [trim, trim, List.dropWhile_append_of_pos hblanks]

theorem trim_dropWhile (text : List Char) : trim (text.dropWhile isBlank) = trim text := by
  rw [trim, trim, List.dropWhile_idempotent]

theorem trim_concat_of_blank {c : Char} (hc : isBlank c = true) (text : List Char) :
    trim (text ++ [c]) = trim text := by
  rw [trim, trim, List.dropWhile_append]
  split
  · rename_i hempty
    simp [List.isEmpty_iff.mp hempty, hc]
  · simp [hc]

theorem trim_append_right {blanks : List Char} (hblanks : ∀ c ∈ blanks, isBlank c = true)
    (text : List Char) : trim (text ++ blanks) = trim text := by
  induction blanks using List.reverseRecOn with
  | nil => rw [List.append_nil]
  | append_singleton blanks c ih =>
      rw [List.forall_mem_append, List.forall_mem_singleton] at hblanks
      rw [← List.append_assoc, trim_concat_of_blank hblanks.2, ih hblanks.1]

/-- A text that ends in no white space is only trimmed before it. -/
theorem trim_concat {c : Char} (hc : isBlank c = false) (text : List Char) :
    trim (text ++ [c]) = text.dropWhile isBlank ++ [c] := by
  have hdrop : (text ++ [c]).dropWhile isBlank = text.dropWhile isBlank ++ [c] := by
    rw [List.dropWhile_append]
    split
    · rename_i hempty
      simp [List.isEmpty_iff.mp hempty, hc]
    · rfl
  rw [trim, hdrop]
  simp [hc]

/-- A text is what is left of it when trimmed, with white space around it. -/
theorem exists_trim (text : List Char) :
    ∃ before after, (∀ c ∈ before, isBlank c = true) ∧ (∀ c ∈ after, isBlank c = true) ∧
      text = before ++ (trim text ++ after) := by
  refine ⟨text.takeWhile isBlank, ((text.dropWhile isBlank).reverse.takeWhile isBlank).reverse,
    ?_, ?_, ?_⟩
  · exact fun c hc => List.mem_takeWhile_imp hc
  · exact fun c hc => List.mem_takeWhile_imp (List.mem_reverse.mp hc)
  · rw [trim, ← List.reverse_append, List.takeWhile_append_dropWhile, List.reverse_reverse,
      List.takeWhile_append_dropWhile]

/-! ### Tokens put together -/

section Spaced

variable {tokens : List (List Char)} {text : List Char}

theorem spaced_cons_iff {token : List Char} :
    Spaced (token :: tokens) text ↔
      ∃ blanks rest, (∀ c ∈ blanks, isBlank c = true) ∧ Spaced tokens rest ∧
        text = blanks ++ (token ++ rest) := by
  constructor
  · rintro ⟨⟩
    exact ⟨_, _, ‹_›, ‹_›, rfl⟩
  · rintro ⟨blanks, rest, hblanks, hrest, rfl⟩
    exact .cons hblanks hrest

theorem spaced_nil_iff : Spaced [] text ↔ ∀ c ∈ text, isBlank c = true := by
  constructor
  · rintro ⟨hblanks⟩
    exact hblanks
  · exact .nil

/-- A last token has white space after it; what is before belongs to the others. -/
theorem spaced_concat_iff {token : List Char} :
    Spaced (tokens ++ [token]) text ↔
      ∃ before blanks, Spaced tokens before ∧ (∀ c ∈ blanks, isBlank c = true) ∧
        text = before ++ (token ++ blanks) := by
  induction tokens generalizing text with
  | nil =>
      rw [List.nil_append, spaced_cons_iff]
      simp only [spaced_nil_iff]
  | cons first rest ih =>
      rw [List.cons_append, spaced_cons_iff]
      simp only [spaced_cons_iff, ih]
      constructor
      · rintro ⟨blanks, _, hblanks, ⟨before, after, hbefore, hafter, rfl⟩, rfl⟩
        exact ⟨_, after, ⟨blanks, before, hblanks, hbefore, rfl⟩, hafter, by simp⟩
      · rintro ⟨_, after, ⟨blanks, before, hblanks, hbefore, rfl⟩, hafter, rfl⟩
        exact ⟨blanks, _, hblanks, ⟨before, after, hbefore, hafter, rfl⟩, by simp⟩

theorem Spaced.append_left {blanks : List Char} (h : Spaced tokens text)
    (hblanks : ∀ c ∈ blanks, isBlank c = true) : Spaced tokens (blanks ++ text) := by
  cases h with
  | nil hmore => exact .nil (List.forall_mem_append.mpr ⟨hblanks, hmore⟩)
  | cons hmore hrest =>
      rw [← List.append_assoc]
      exact .cons (List.forall_mem_append.mpr ⟨hblanks, hmore⟩) hrest

theorem Spaced.append_right {blanks : List Char} (h : Spaced tokens text)
    (hblanks : ∀ c ∈ blanks, isBlank c = true) : Spaced tokens (text ++ blanks) := by
  induction h with
  | nil hmore => exact .nil (List.forall_mem_append.mpr ⟨hmore, hblanks⟩)
  | cons hmore _ ih =>
      rw [List.append_assoc, List.append_assoc]
      exact .cons hmore ih

theorem Spaced.prepend (h : Spaced tokens text) (token : List Char) :
    Spaced (token :: tokens) (token ++ text) :=
  spaced_cons_iff.mpr ⟨[], text, by simp, h, rfl⟩

theorem Spaced.concat (h : Spaced tokens text) (token : List Char) :
    Spaced (tokens ++ [token]) (text ++ token) :=
  spaced_concat_iff.mpr ⟨text, [], h, by simp, by simp⟩

theorem Spaced.of_trim (h : Spaced tokens (trim text)) : Spaced tokens text := by
  obtain ⟨before, after, hbefore, hafter, htext⟩ := exists_trim text
  rw [htext]
  exact (h.append_right hafter).append_left hbefore

end Spaced

end Text

namespace TypeRef

/-- The names, brackets and marks a type is written with. -/
def tokens : TypeRef → List (List Char)
  | .named name => [name.toList]
  | .list item => ['['] :: (item.tokens ++ [[']']])
  | .nonNull type => type.tokens ++ [['!']]

/-- A text that writes a type: its tokens, with white space before, between and after them. -/
def Writes (text : List Char) (type : TypeRef) : Prop :=
  type.WellFormed ∧ Text.Spaced type.tokens text

/-! ### One step of reading -/

/-- What is peeled off a text without white space at its ends. -/
inductive Peels : List Char → TypeRef → Prop
  | named {name : String} (hname : (named name).WellFormed) : Peels name.toList (.named name)
  | list {inner : List Char} {item : TypeRef} (hinner : read inner = .ok item) :
      Peels ('[' :: (inner ++ [']'])) (.list item)
  | nonNull {inner : List Char} {type : TypeRef} (hinner : read inner = .ok type)
      (honce : ∀ marked, type ≠ .nonNull marked) : Peels (inner ++ ['!']) (.nonNull type)

theorem eq_concat_of_dropLast? {c : Char} {text inner : List Char}
    (h : dropLast? c text = some inner) : text = inner ++ [c] := by
  unfold dropLast? at h
  split at h
  · rename_i hlast
    obtain ⟨init, rfl⟩ := List.getLast?_eq_some_iff.mp hlast
    rw [List.dropLast_concat, Option.some.injEq] at h
    rw [h]
  · cases h

theorem peels_of_read {written : List Char} {type : TypeRef} (h : read written = .ok type) :
    Peels (Text.trim written) type := by
  have hwell := wellFormed_of_read h
  rw [read] at h
  split at h
  · rename_i inner hmark
    rw [eq_concat_of_dropLast? hmark]
    cases hread : read inner with
    | error part =>
        rw [hread] at h
        cases h
    | ok marked =>
        rw [hread] at h
        cases marked with
        | nonNull twice => cases h
        | named | list =>
            obtain rfl := Except.ok.inj h
            exact .nonNull hread (by simp)
  · split at h
    · rename_i rest hopen
      split at h
      · rename_i inner hclose
        rw [hopen, eq_concat_of_dropLast? hclose]
        cases hread : read inner with
        | error part =>
            rw [hread] at h
            cases h
        | ok item =>
            rw [hread] at h
            obtain rfl := Except.ok.inj h
            exact .list hread
      · cases h
    · split at h
      · cases h
      · obtain rfl := Except.ok.inj h
        simpa using Peels.named hwell

theorem read_iff {written : List Char} {type : TypeRef} :
    read written = .ok type ↔ Peels (Text.trim written) type := by
  refine ⟨peels_of_read, fun h => ?_⟩
  generalize htrim : Text.trim written = text at h
  cases h with
  | named hname => exact read_of_name htrim hname
  | list hinner => exact read_of_bracketed htrim hinner
  | nonNull hinner honce => exact read_of_marked htrim hinner honce

/-- White space before a text changes nothing. -/
theorem read_dropWhile {written : List Char} {type : TypeRef} :
    read (written.dropWhile Text.isBlank) = .ok type ↔ read written = .ok type := by
  rw [read_iff, read_iff, Text.trim_dropWhile]

/-! ### Reading accepts what is written -/

theorem spaced_of_read {type : TypeRef} {written : List Char} (h : read written = .ok type) :
    Text.Spaced type.tokens written := by
  induction type generalizing written with
  | named name =>
      have hpeels := peels_of_read h
      apply Text.Spaced.of_trim
      generalize Text.trim written = text at hpeels ⊢
      cases hpeels with
      | named hname =>
          have hempty : Text.Spaced [] [] := .nil (by simp)
          simpa [tokens] using hempty.prepend name.toList
  | list item ih =>
      have hpeels := peels_of_read h
      apply Text.Spaced.of_trim
      generalize Text.trim written = text at hpeels ⊢
      cases hpeels with
      | list hinner => exact ((ih hinner).concat [']']).prepend ['[']
  | nonNull type ih =>
      have hpeels := peels_of_read h
      apply Text.Spaced.of_trim
      generalize Text.trim written = text at hpeels ⊢
      cases hpeels with
      | nonNull hinner honce => exact (ih hinner).concat ['!']

theorem read_of_spaced {type : TypeRef} (h : type.WellFormed) {written : List Char}
    (hspaced : Text.Spaced type.tokens written) : read written = .ok type := by
  induction h generalizing written with
  | @named name hne hchars =>
      obtain ⟨before, after, hbefore, hafter, rfl⟩ := Text.spaced_cons_iff.mp hspaced
      have hname := WellFormed.named hne hchars
      apply read_of_name _ hname
      rw [Text.trim_append_left hbefore, Text.trim_append_right (Text.spaced_nil_iff.mp hafter)]
      exact trim_chars hname
  | @list item inner ih =>
      obtain ⟨before, rest, hbefore, hrest, rfl⟩ := Text.spaced_cons_iff.mp hspaced
      obtain ⟨between, after, hbetween, hafter, rfl⟩ := Text.spaced_concat_iff.mp hrest
      apply read_of_bracketed _ (ih hbetween)
      rw [Text.trim_append_left hbefore, ← List.append_assoc, ← List.append_assoc,
        Text.trim_append_right hafter, Text.trim_concat (by decide)]
      rfl
  | @nonNull type inner once ih =>
      obtain ⟨before, after, hbefore, hafter, rfl⟩ := Text.spaced_concat_iff.mp hspaced
      apply read_of_marked _ (read_dropWhile.mpr (ih hbefore)) once
      rw [← List.append_assoc, Text.trim_append_right hafter, Text.trim_concat (by decide)]

theorem read_eq_ok_iff {written : List Char} {type : TypeRef} :
    read written = .ok type ↔ Writes written type :=
  ⟨fun h => ⟨wellFormed_of_read h, spaced_of_read h⟩, fun h => read_of_spaced h.1 h.2⟩

theorem parse_eq_ok_iff {text : String} {type : TypeRef} :
    parse text = .ok type ↔ Writes text.toList type := by
  rw [← read_eq_ok_iff, parse]
  cases read text.toList with
  | error part => simp
  | ok read => simp

/-- The texts that are accepted are those that write a type, the type that is read is the only
one they write, and its own text is read as the same type. -/
theorem parse_accepts_written (text : String) :
    (∀ type, parse text = .ok type ↔ Writes text.toList type) ∧
      (∀ type other, Writes text.toList type → Writes text.toList other → type = other) ∧
      ∀ type, parse text = .ok type → parse type.text = .ok type := by
  refine ⟨fun type => parse_eq_ok_iff, fun type other htype hother => ?_, fun type => parse_text⟩
  have hsame := (parse_eq_ok_iff.mpr htype).symm.trans (parse_eq_ok_iff.mpr hother)
  exact Except.ok.inj hsame

/-- A list that is never null, of posts that are never null, with a no-break space, a tab and a
line end between the tokens. -/
theorem parse_accepts_written_posts :
    Writes "\xa0[ Post !\t]\n! ".toList (.nonNull (.list (.nonNull (.named "Post")))) ∧
      parse "\xa0[ Post !\t]\n! " = .ok (.nonNull (.list (.nonNull (.named "Post")))) ∧
      parse "[Post!]!" = .ok (.nonNull (.list (.nonNull (.named "Post")))) := by
  have hpost : WellFormed (.named "Post") := .named (by decide) (List.all_eq_true.mp rfl)
  have hwell : WellFormed (.nonNull (.list (.nonNull (.named "Post")))) :=
    .nonNull (.list (.nonNull hpost (by simp))) (by simp)
  have hspace : ∀ c ∈ [' '], Text.isBlank c = true := List.all_eq_true.mp rfl
  have htab : ∀ c ∈ ['\t'], Text.isBlank c = true := List.all_eq_true.mp rfl
  have hline : ∀ c ∈ ['\n'], Text.isBlank c = true := List.all_eq_true.mp rfl
  have hnoBreak : ∀ c ∈ ['\xa0'], Text.isBlank c = true := List.all_eq_true.mp rfl
  have hmark : Text.Spaced [['!']] "\n! ".toList :=
    Text.spaced_cons_iff.mpr ⟨['\n'], [' '], hline, .nil hspace, rfl⟩
  have hclose : Text.Spaced [[']'], ['!']] "\t]\n! ".toList :=
    Text.spaced_cons_iff.mpr ⟨['\t'], "\n! ".toList, htab, hmark, rfl⟩
  have hitem : Text.Spaced [['!'], [']'], ['!']] " !\t]\n! ".toList :=
    Text.spaced_cons_iff.mpr ⟨[' '], "\t]\n! ".toList, hspace, hclose, rfl⟩
  have hname : Text.Spaced ["Post".toList, ['!'], [']'], ['!']] " Post !\t]\n! ".toList :=
    Text.spaced_cons_iff.mpr ⟨[' '], " !\t]\n! ".toList, hspace, hitem, rfl⟩
  have hspaced : Text.Spaced [['['], "Post".toList, ['!'], [']'], ['!']]
      "\xa0[ Post !\t]\n! ".toList :=
    Text.spaced_cons_iff.mpr ⟨['\xa0'], " Post !\t]\n! ".toList, hnoBreak, hname, rfl⟩
  have hwrites : Writes "\xa0[ Post !\t]\n! ".toList
      (.nonNull (.list (.nonNull (.named "Post")))) := ⟨hwell, hspaced⟩
  obtain ⟨haccepts, -, htext⟩ := parse_accepts_written "\xa0[ Post !\t]\n! "
  have hparse := (haccepts _).mpr hwrites
  exact ⟨hwrites, hparse, htext _ hparse⟩

end TypeRef

end JoinPlan
