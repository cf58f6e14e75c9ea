import JoinPlan.Sql.Render
import Mathlib.Data.List.Basic

/-!
# Quoted text can be told from what surrounds it

A quoted name or text doubles its quote character, so the first quote character
that stands alone ends it.  From the end of an item of a select list the same
holds backwards: before the quoted output alias stands a space.  Two items with
one text therefore have one output alias, whatever their expressions say.
-/

namespace JoinPlan

namespace Dialect

@[simp]
theorem doubled_nil (quote : Char) : doubled quote [] = [] := rfl

theorem doubled_cons (quote c : Char) (rest : List Char) :
    doubled quote (c :: rest) =
      (if c = quote then [quote, quote] else [c]) ++ doubled quote rest := rfl

@[simp]
theorem doubled_append (quote : Char) (left right : List Char) :
    doubled quote (left ++ right) = doubled quote left ++ doubled quote right := by
  simp [doubled]

theorem doubled_reverse (quote : Char) (text : List Char) :
    doubled quote text.reverse = (doubled quote text).reverse := by
  induction text with
  | nil => rfl
  | cons c rest ih =>
      rw [List.reverse_cons, doubled_append, ih, doubled_cons quote c rest]
      by_cases hc : c = quote <;> simp [doubled_cons, hc]

/-- A doubled text ends at the first quote character that no other follows. -/
theorem doubled_frame_injective {quote : Char} {left right tail other : List Char}
    (htail : tail.head? ≠ some quote) (hother : other.head? ≠ some quote)
    (heq : doubled quote left ++ quote :: tail = doubled quote right ++ quote :: other) :
    left = right ∧ tail = other := by
  induction left generalizing right with
  | nil =>
      cases right with
      | nil => simpa using heq
      | cons c rest =>
          by_cases hc : c = quote
          · subst hc
            simp only [doubled_nil, doubled_cons, if_true, List.nil_append, List.cons_append,
              List.cons.injEq, true_and] at heq
            simp [heq] at htail
          · simp [doubled_cons, hc, Ne.symm hc] at heq
  | cons c left ih =>
      cases right with
      | nil =>
          by_cases hc : c = quote
          · subst hc
            simp only [doubled_nil, doubled_cons, if_true, List.nil_append, List.cons_append,
              List.cons.injEq, true_and] at heq
            simp [← heq] at hother
          · simp [doubled_cons, hc] at heq
      | cons d right =>
          have hsame : c = d ∧
              doubled quote left ++ quote :: tail = doubled quote right ++ quote :: other := by
            by_cases hc : c = quote <;> by_cases hd : d = quote <;>
              simp_all [doubled_cons]
          obtain ⟨rfl, hrest⟩ := hsame
          obtain ⟨rfl, hends⟩ := ih hrest
          exact ⟨rfl, hends⟩

/-- Different names are quoted differently. -/
theorem quote_injective (dialect : Dialect) : Function.Injective dialect.quote := by
  intro first second heq
  have hframe : doubled dialect.nameQuote first.toList ++ [dialect.nameQuote] =
      doubled dialect.nameQuote second.toList ++ [dialect.nameQuote] :=
    (List.cons.inj (String.ofList_injective heq)).2
  exact String.toList_inj.mp (doubled_frame_injective (by simp) (by simp) hframe).1

theorem space_ne_nameQuote (dialect : Dialect) : ' ' ≠ dialect.nameQuote := by
  cases dialect <;> decide

end Dialect

namespace Sql

/-- An item of a select list read from its end: the quoted alias, and a space
before it. -/
theorem reverse_renderItem (dialect : Dialect) (item : String × Expression) :
    ∃ before : List Char, (renderItem dialect item).toList.reverse =
      dialect.nameQuote :: (Dialect.doubled dialect.nameQuote item.1.toList.reverse ++
        dialect.nameQuote :: ' ' :: before) := by
  refine ⟨((item.2.render dialect).toList ++ [' ', 'A', 'S']).reverse, ?_⟩
  have has : " AS ".toList = [' ', 'A', 'S', ' '] := by decide
  simp [renderItem, Dialect.quote, Dialect.doubled_reverse, has]

/-- Items with one text have one output alias. -/
theorem alias_eq_of_renderItem_eq {dialect : Dialect} {left right : String × Expression}
    (htext : renderItem dialect left = renderItem dialect right) : left.1 = right.1 := by
  obtain ⟨before, hleft⟩ := reverse_renderItem dialect left
  obtain ⟨other, hright⟩ := reverse_renderItem dialect right
  rw [htext, hright] at hleft
  have hspace : ∀ text : List Char, (' ' :: text).head? ≠ some dialect.nameQuote := by
    intro text
    simpa using dialect.space_ne_nameQuote
  have hreverse := (Dialect.doubled_frame_injective (hspace _) (hspace _)
    (List.cons.inj hleft).2).1
  exact String.toList_inj.mp (List.reverse_injective hreverse.symm)

/-- Items with one text have one expression text. -/
theorem render_eq_of_renderItem_eq {dialect : Dialect} {left right : String × Expression}
    (htext : renderItem dialect left = renderItem dialect right) :
    left.2.render dialect = right.2.render dialect := by
  have halias := alias_eq_of_renderItem_eq htext
  rw [renderItem, renderItem, halias, String.append_left_inj, String.append_left_inj] at htext
  exact htext

end Sql

end JoinPlan
