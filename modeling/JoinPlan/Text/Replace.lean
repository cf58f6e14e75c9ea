/-!
# Replacing a text inside another

Every occurrence is replaced, from left to right and without overlap.  The
walk copies one character at a time; after an occurrence it skips the
characters the pattern covers, so it recurses on the text alone.
-/

namespace JoinPlan.Text

/-- Replaces the occurrences of `pattern` after the next `skip` characters,
which are dropped. -/
def replaceFrom (pattern value : List Char) : Nat → List Char → List Char
  | _, [] => []
  | skip + 1, _ :: rest => replaceFrom pattern value skip rest
  | 0, c :: rest =>
      if pattern.isPrefixOf (c :: rest) then
        value ++ replaceFrom pattern value (pattern.length - 1) rest
      else c :: replaceFrom pattern value 0 rest

/-- Replaces every occurrence of a pattern, which is not empty. -/
def replace (pattern value text : String) : String :=
  String.ofList (replaceFrom pattern.toList value.toList 0 text.toList)

@[simp]
theorem replaceFrom_nil (pattern value : List Char) (skip : Nat) :
    replaceFrom pattern value skip [] = [] := by
  cases skip <;> rfl

theorem replaceFrom_cons_of_absent (pattern value : List Char) (c : Char) (rest : List Char)
    (h : pattern.isPrefixOf (c :: rest) = false) :
    replaceFrom pattern value 0 (c :: rest) = c :: replaceFrom pattern value 0 rest := by
  simp [replaceFrom, h]

theorem replaceFrom_eq_drop (pattern value : List Char) (skip : Nat) (text : List Char) :
    replaceFrom pattern value skip text = replaceFrom pattern value 0 (text.drop skip) := by
  induction skip generalizing text with
  | zero => rfl
  | succ skip ih =>
      cases text with
      | nil => simp
      | cons c rest => rw [replaceFrom, ih, List.drop_succ_cons]

/-- What follows an occurrence is searched on its own. -/
theorem replaceFrom_append_self {pattern : List Char} (hpattern : pattern ≠ [])
    (value rest : List Char) :
    replaceFrom pattern value 0 (pattern ++ rest) =
      value ++ replaceFrom pattern value 0 rest := by
  obtain ⟨c, tail, rfl⟩ := List.exists_cons_of_ne_nil hpattern
  have hoccurs : (c :: tail).isPrefixOf (c :: (tail ++ rest)) = true :=
    List.isPrefixOf_iff_prefix.mpr (List.prefix_append (c :: tail) rest)
  rw [List.cons_append, replaceFrom, if_pos hoccurs, replaceFrom_eq_drop]
  simp

/-- Characters that no occurrence starts with are copied. -/
theorem replaceFrom_append_of_notMem {first : Char} {tail text : List Char} (h : first ∉ text)
    (value rest : List Char) :
    replaceFrom (first :: tail) value 0 (text ++ rest) =
      text ++ replaceFrom (first :: tail) value 0 rest := by
  induction text with
  | nil => rfl
  | cons c text ih =>
      rw [List.mem_cons, not_or] at h
      have habsent : (first :: tail).isPrefixOf (c :: (text ++ rest)) = false := by
        simp [List.isPrefixOf, h.1]
      rw [List.cons_append, replaceFrom_cons_of_absent _ _ _ _ habsent, ih h.2, List.cons_append]

end JoinPlan.Text
