import JoinPlan.Proofs.Json.Reading

/-!
# Different values have different texts

The text of a value ends by itself: of two values whose texts start one and the same
list of characters, both are the same value, and what comes after is the same.  So a
text can stand for its value where values are grouped.
-/

namespace JoinPlan.Json

/-- What kind of value a text starts with. -/
inductive Kind
  | null
  | bool (value : Bool)
  | string
  | array
  | object
  | number
deriving DecidableEq, Repr

def kindOfHead (c : Char) : Kind :=
  if c = 'n' then .null
  else if c = 't' then .bool true
  else if c = 'f' then .bool false
  else if c = '"' then .string
  else if c = '[' then .array
  else if c = '\x7b' then .object
  else .number

def kind : Json → Kind
  | .null => .null
  | .bool value => .bool value
  | .number _ => .number
  | .string _ => .string
  | .array _ => .array
  | .object _ => .object

theorem kindOfHead_digit {c : Char} (hc : c = '-' ∨ c.isDigit = true) :
    kindOfHead c = .number := by
  have hother : c ≠ 'n' ∧ c ≠ 't' ∧ c ≠ 'f' ∧ c ≠ '"' ∧ c ≠ '[' ∧ c ≠ '\x7b' := by
    refine ⟨?_, ?_, ?_, ?_, ?_, ?_⟩ <;>
      · rintro rfl
        simp [Char.isDigit] at hc
  simp [kindOfHead, hother]

theorem kind_of_compact {value : Json} {c : Char} {text : List Char}
    (h : compact value = c :: text) : kindOfHead c = value.kind := by
  cases value with
  | null => cases h; rfl
  | bool value => cases value <;> cases h <;> rfl
  | number value =>
      obtain ⟨head, tail, htext, hhead⟩ := exists_head_numberText value
      rw [compact, htext] at h
      obtain rfl := (List.cons.inj h).1
      exact kindOfHead_digit hhead
  | string value => cases h; rfl
  | array items => cases h; rfl
  | object members => cases h; rfl

theorem kind_eq_of_compact_append {value other : Json} {rest rest' : List Char}
    (h : compact value ++ rest = compact other ++ rest') : value.kind = other.kind := by
  obtain ⟨c, text, htext, -⟩ := exists_head_compact value
  obtain ⟨c', text', htext', -⟩ := exists_head_compact other
  rw [← kind_of_compact htext, ← kind_of_compact htext']
  rw [htext, htext', List.cons_append, List.cons_append] at h
  exact congrArg kindOfHead (List.cons.inj h).1

/-! ### Strings -/

theorem eq_of_escaped_append {chars chars' rest rest' : List Char}
    (h : chars.flatMap escapeChar ++ '"' :: rest = chars'.flatMap escapeChar ++ '"' :: rest') :
    chars = chars' ∧ rest = rest' := by
  have hread := readChars_escaped chars rest (chars.length + chars'.length + 1) (by omega)
  have hread' := readChars_escaped chars' rest' (chars.length + chars'.length + 1) (by omega)
  rw [h] at hread
  exact Prod.mk.inj (Option.some.inj (hread.symm.trans hread'))

theorem eq_of_quoted_append {text text' : String} {rest rest' : List Char}
    (h : quoted text ++ rest = quoted text' ++ rest') : text = text' ∧ rest = rest' := by
  simp only [quoted, List.cons_append, List.append_assoc] at h
  have hparts := eq_of_escaped_append (List.cons.inj h).2
  exact ⟨String.toList_injective hparts.1, hparts.2⟩

/-! ### Items and members -/

section Separated

variable {A : Type} {write : A → List Char} {close : Char} {items others : List A}
  {rest rest' : List Char}

/-- The text of an item tells the item, whatever follows it. -/
def EndsByItself (write : A → List Char) (item : A) : Prop :=
  ∀ other rest rest', Delimited rest → Delimited rest' →
    write item ++ rest = write other ++ rest' → item = other ∧ rest = rest'

theorem eq_of_joined_append (hclose : close = ']' ∨ close = '\x7d')
    (hopens : ∀ item, ∃ c text, write item = c :: text ∧ Opens c)
    (hitems : ∀ item ∈ items, EndsByItself write item)
    (h : joined (items.map write) ++ close :: rest = joined (others.map write) ++ close :: rest') :
    items = others ∧ rest = rest' := by
  have hempty {item : A} {texts : List (List Char)} {after after' : List Char}
      (h : close :: after = write item ++ afterItem texts after') : False := by
    obtain ⟨c, text, htext, hc⟩ := hopens item
    rw [htext, List.cons_append] at h
    obtain rfl := (List.cons.inj h).1
    rcases hclose with rfl | rfl
    · exact hc.not_bracket rfl
    · exact hc.not_brace rfl
  induction items generalizing others with
  | nil =>
      cases others with
      | nil => exact ⟨rfl, (List.cons.inj h).2⟩
      | cons other others =>
          rw [List.map_cons, joined_cons_append] at h
          exact (hempty h).elim
  | cons item items ih =>
      cases others with
      | nil =>
          rw [List.map_cons, joined_cons_append] at h
          exact (hempty h.symm).elim
      | cons other others =>
          rw [List.map_cons, List.map_cons, joined_cons_append, joined_cons_append] at h
          obtain ⟨rfl, hafter⟩ := hitems item List.mem_cons_self other _ _
            (delimited_afterItem (closes_bracket hclose rest).delimited _)
            (delimited_afterItem (closes_bracket hclose rest').delimited _) h
          have hcomma : ',' ≠ close := by rcases hclose with rfl | rfl <;> decide
          cases items with
          | nil =>
              cases others with
              | nil => exact ⟨rfl, (List.cons.inj hafter).2⟩
              | cons next others => exact absurd (List.cons.inj hafter).1.symm hcomma
          | cons following items =>
              cases others with
              | nil => exact absurd (List.cons.inj hafter).1 hcomma
              | cons next others =>
                  have hrest := ih (fun later hlater =>
                    hitems later (List.mem_cons_of_mem _ hlater)) (List.cons.inj hafter).2
                  exact ⟨congrArg (List.cons item) hrest.1, hrest.2⟩

end Separated

theorem endsByItself_compactMember {member : String × Json}
    (hvalue : EndsByItself compact member.2) : EndsByItself compactMember member := by
  rintro ⟨key', value'⟩ rest rest' hrest hrest' h
  rcases member with ⟨key, value⟩
  simp only [compactMember, List.append_assoc, List.cons_append] at h
  obtain ⟨rfl, hafter⟩ := eq_of_quoted_append h
  obtain ⟨rfl, hrests⟩ := hvalue value' rest rest' hrest hrest' (List.cons.inj hafter).2
  exact ⟨rfl, hrests⟩

theorem endsByItself_compact (value : Json) : EndsByItself compact value := by
  induction value with
  | null =>
      intro other rest rest' _ _ h
      have hkind := kind_eq_of_compact_append h
      cases other with
      | null => exact ⟨rfl, List.append_cancel_left h⟩
      | _ => contradiction
  | bool value =>
      intro other rest rest' _ _ h
      have hkind := kind_eq_of_compact_append h
      cases other with
      | bool other =>
          obtain rfl := Kind.bool.inj hkind
          exact ⟨rfl, List.append_cancel_left h⟩
      | _ => contradiction
  | number value =>
      intro other rest rest' hrest hrest' h
      have hkind := kind_eq_of_compact_append h
      cases other with
      | number other =>
          have hparts := eq_of_numberText_append hrest hrest' h
          exact ⟨congrArg Json.number hparts.1, hparts.2⟩
      | _ => contradiction
  | string value =>
      intro other rest rest' _ _ h
      have hkind := kind_eq_of_compact_append h
      cases other with
      | string other =>
          have hparts := eq_of_quoted_append h
          exact ⟨congrArg Json.string hparts.1, hparts.2⟩
      | _ => contradiction
  | array items ih =>
      intro other rest rest' _ _ h
      have hkind := kind_eq_of_compact_append h
      cases other with
      | array others =>
          simp only [compact, compactItems_eq, List.cons_append, List.append_assoc] at h
          have hparts := eq_of_joined_append (Or.inl rfl) exists_head_compact ih
            (List.cons.inj h).2
          exact ⟨congrArg Json.array hparts.1, hparts.2⟩
      | _ => contradiction
  | object members ih =>
      intro other rest rest' _ _ h
      have hkind := kind_eq_of_compact_append h
      cases other with
      | object others =>
          simp only [compact, compactMembers_eq, List.cons_append, List.append_assoc] at h
          have hopens (member : String × Json) :
              ∃ c text, compactMember member = c :: text ∧ Opens c := by
            obtain ⟨text, hhead⟩ := exists_head_compactMember member
            exact ⟨'"', text, hhead, rfl, by decide, by decide⟩
          have hparts := eq_of_joined_append (Or.inr rfl) hopens
            (fun member hmember => endsByItself_compactMember (ih member hmember))
            (List.cons.inj h).2
          exact ⟨congrArg Json.object hparts.1, hparts.2⟩
      | _ => contradiction

/-- Different values have different texts. -/
theorem text_injective : Function.Injective text := by
  intro value other h
  have hcompact : compact value = compact other := String.ofList_injective h
  have hends := endsByItself_compact value other [] [] delimited_nil delimited_nil
    (by rw [hcompact])
  exact hends.1

end JoinPlan.Json
