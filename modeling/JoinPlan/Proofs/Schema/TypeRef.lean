import JoinPlan.Schema.TypeRef

/-!
# Type references read back

White space may stand between the tokens of a type reference, but its text has none.
Reading gives names that are made of name characters and marks no type twice; the
text of such a type reads back.
-/

namespace JoinPlan

namespace Text

theorem dropWhile_isBlank {text : List Char} (h : ∀ c, text.head? = some c → isBlank c = false) :
    text.dropWhile isBlank = text := by
  cases text with
  | nil => rfl
  | cons c rest => simp [h c rfl]

/-- Nothing is trimmed from a text with no white space at its ends. -/
theorem trim_eq_self {text : List Char}
    (hhead : ∀ c, text.head? = some c → isBlank c = false)
    (hlast : ∀ c, text.getLast? = some c → isBlank c = false) : trim text = text := by
  rw [trim, dropWhile_isBlank hhead, dropWhile_isBlank, List.reverse_reverse]
  rwa [List.head?_reverse]

end Text

namespace TypeRef

/-- The names are made of name characters, and no type is marked twice. -/
inductive WellFormed : TypeRef → Prop
  | named {name : String} (nonempty : name.toList ≠ [])
      (chars : ∀ c ∈ name.toList, isNameChar c = true) : WellFormed (.named name)
  | list {item : TypeRef} (inner : WellFormed item) : WellFormed (.list item)
  | nonNull {type : TypeRef} (inner : WellFormed type)
      (once : ∀ marked, type ≠ .nonNull marked) : WellFormed (.nonNull type)

theorem wellFormed_of_read {written : List Char} {type : TypeRef}
    (h : read written = .ok type) : type.WellFormed := by
  fun_induction read written generalizing type with
  | case1 written inner hmark ih =>
      cases hread : read inner with
      | error part =>
          rw [hread] at h
          contradiction
      | ok marked =>
          rw [hread] at h
          have hinner := ih hread
          cases marked with
          | nonNull twice => contradiction
          | named name =>
              obtain rfl := Except.ok.inj h
              exact hinner.nonNull (by simp)
          | list item =>
              obtain rfl := Except.ok.inj h
              exact hinner.nonNull (by simp)
  | case2 written hmark rest hopen inner hclose ih =>
      cases hread : read inner with
      | error part =>
          rw [hread] at h
          contradiction
      | ok item =>
          rw [hread] at h
          obtain rfl := Except.ok.inj h
          exact (ih hread).list
  | case3 => contradiction
  | case4 => contradiction
  | case5 written hmark hopen hname =>
      obtain rfl := Except.ok.inj h
      rw [Bool.or_eq_true, not_or] at hname
      refine .named ?_ ?_
      · rw [String.toList_ofList]
        exact fun hempty => hname.1 (List.isEmpty_iff.mpr hempty)
      · rw [String.toList_ofList]
        simpa using hname.2

/-! ### The ends of a type's text -/

private theorem isNameChar_of_blankRange : ∀ range ∈ Text.blankRanges,
    ∀ n ∈ List.range' range.1 (range.2 + 1 - range.1), isNameChar (Char.ofNat n) = false := by
  decide

theorem isBlank_of_isNameChar {c : Char} (hc : isNameChar c = true) : Text.isBlank c = false := by
  apply Bool.eq_false_iff.mpr
  intro hblank
  obtain ⟨range, hrange, hwithin⟩ := List.any_eq_true.mp hblank
  rw [Bool.and_eq_true, decide_eq_true_eq, decide_eq_true_eq] at hwithin
  have hmem : c.toNat ∈ List.range' range.1 (range.2 + 1 - range.1) :=
    List.mem_range'_1.mpr (by omega)
  have hnot := isNameChar_of_blankRange range hrange c.toNat hmem
  rw [Char.ofNat_toNat, hc] at hnot
  contradiction

theorem head?_chars {type : TypeRef} (h : type.WellFormed) :
    ∃ c, type.chars.head? = some c ∧ (isNameChar c = true ∨ c = '[') := by
  induction h with
  | @named name hne hchars =>
      obtain ⟨c, rest, hname⟩ := List.exists_cons_of_ne_nil hne
      have hc : c ∈ name.toList := by rw [hname]; exact List.mem_cons_self
      exact ⟨c, by rw [chars, hname]; rfl, Or.inl (hchars c hc)⟩
  | list _ _ => exact ⟨'[', rfl, Or.inr rfl⟩
  | nonNull _ _ ih =>
      obtain ⟨c, hc, hkind⟩ := ih
      exact ⟨c, by rw [chars, List.head?_append, hc]; rfl, hkind⟩

theorem getLast?_chars_list (item : TypeRef) : (list item).chars.getLast? = some ']' := by
  rw [chars, ← List.cons_append, List.getLast?_concat]

theorem getLast?_chars {type : TypeRef} (h : type.WellFormed) :
    ∃ c, type.chars.getLast? = some c ∧ (isNameChar c = true ∨ c = ']' ∨ c = '!') := by
  cases h with
  | @named name hne hchars =>
      obtain ⟨c, hc⟩ := Option.ne_none_iff_exists'.mp (mt List.getLast?_eq_none_iff.mp hne)
      exact ⟨c, hc, Or.inl (hchars c (List.mem_of_getLast? hc))⟩
  | @list item _ => exact ⟨']', getLast?_chars_list item, Or.inr (Or.inl rfl)⟩
  | nonNull _ _ => exact ⟨'!', by simp [chars], Or.inr (Or.inr rfl)⟩

/-- Neither end of a type's text is white space. -/
theorem trim_chars {type : TypeRef} (h : type.WellFormed) : Text.trim type.chars = type.chars := by
  apply Text.trim_eq_self
  · intro c hc
    obtain ⟨head, hhead, hkind⟩ := head?_chars h
    obtain rfl := Option.some.inj (hhead.symm.trans hc)
    rcases hkind with hname | rfl
    · exact isBlank_of_isNameChar hname
    · rfl
  · intro c hc
    obtain ⟨last, hlast, hkind⟩ := getLast?_chars h
    obtain rfl := Option.some.inj (hlast.symm.trans hc)
    rcases hkind with hname | rfl | rfl
    · exact isBlank_of_isNameChar hname
    · rfl
    · rfl

theorem dropLast?_append (c : Char) (text : List Char) : dropLast? c (text ++ [c]) = some text := by
  simp [dropLast?]

theorem dropLast?_of_getLast? {c last : Char} {text : List Char} (h : text.getLast? = some last)
    (hne : last ≠ c) : dropLast? c text = none := by
  simp [dropLast?, h, hne]

theorem read_of_name {written : List Char} {name : String}
    (htrim : Text.trim written = name.toList) (h : (named name).WellFormed) :
    read written = .ok (.named name) := by
  obtain ⟨last, hlast, -⟩ := getLast?_chars h
  obtain ⟨hne, hchars⟩ : name.toList ≠ [] ∧ ∀ c ∈ name.toList, isNameChar c = true := by
    cases h with
    | named hne hchars => exact ⟨hne, hchars⟩
  rw [chars] at hlast
  have hunmarked : dropLast? '!' name.toList = none := by
    apply dropLast?_of_getLast? hlast
    rintro rfl
    have hmark := hchars '!' (List.mem_of_getLast? hlast)
    contradiction
  rw [read, htrim]
  split
  · rename_i inner hmark
    rw [hunmarked] at hmark
    contradiction
  · split
    · rename_i rest hopen
      have hbracket := hchars '[' (by rw [hopen]; exact List.mem_cons_self)
      contradiction
    · have haccepted : (name.toList.isEmpty || !name.toList.all isNameChar) = false := by
        simpa [hne] using hchars
      rw [haccepted, String.ofList_toList]
      rfl

theorem read_of_bracketed {written inner : List Char} {item : TypeRef}
    (htrim : Text.trim written = '[' :: (inner ++ [']'])) (hinner : read inner = .ok item) :
    read written = .ok (.list item) := by
  have hlast : (Text.trim written).getLast? = some ']' := by
    rw [htrim, ← List.cons_append, List.getLast?_concat]
  have hunmarked := dropLast?_of_getLast? hlast (show ']' ≠ '!' by decide)
  rw [read]
  split
  · rename_i marked hmark
    rw [hunmarked] at hmark
    contradiction
  · split
    · rename_i rest hopen
      obtain rfl := (List.cons.inj (htrim.symm.trans hopen)).2
      split
      · rename_i closed hclose
        rw [dropLast?_append] at hclose
        obtain rfl := Option.some.inj hclose
        rw [hinner]
        rfl
      · rename_i hclose
        rw [dropLast?_append] at hclose
        contradiction
    · rename_i hopen
      exact (hopen _ htrim).elim

theorem read_of_marked {written inner : List Char} {type : TypeRef}
    (htrim : Text.trim written = inner ++ ['!']) (hinner : read inner = .ok type)
    (once : ∀ marked, type ≠ .nonNull marked) : read written = .ok (.nonNull type) := by
  rw [read]
  split
  · rename_i marked hmark
    rw [htrim, dropLast?_append] at hmark
    obtain rfl := Option.some.inj hmark
    rw [hinner]
    cases type with
    | nonNull marked => exact absurd rfl (once marked)
    | named name => rfl
    | list item => rfl
  · rename_i hmark
    rw [htrim, dropLast?_append] at hmark
    contradiction

/-- The text of a type reads back. -/
theorem read_chars {type : TypeRef} (h : type.WellFormed) : read type.chars = .ok type := by
  induction h with
  | named hne hchars => exact read_of_name (trim_chars (.named hne hchars)) (.named hne hchars)
  | list inner ih => exact read_of_bracketed (trim_chars inner.list) ih
  | nonNull inner once ih => exact read_of_marked (trim_chars (inner.nonNull once)) ih once

/-- Reading the text of a type that was read gives the type. -/
theorem parse_text {written : String} {type : TypeRef} (h : parse written = .ok type) :
    parse type.text = .ok type := by
  rw [parse] at h
  split at h
  · rename_i read hread
    obtain rfl := Except.ok.inj h
    rw [parse, text, String.toList_ofList, read_chars (wellFormed_of_read hread)]
  · contradiction

end TypeRef

end JoinPlan
