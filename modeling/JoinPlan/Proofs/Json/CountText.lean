import JoinPlan.Proofs.Json.Indented
import JoinPlan.Proofs.Json.Path

/-!
# Texts of counts

A text is read as a number that fits 64 bits without a sign exactly if it is the digits of
that number, with nothing but white space around them: no sign, no leading zero, no fraction
and no exponent.
-/

namespace JoinPlan.Json

/-- Nothing but white space. -/
def Blank (text : List Char) : Prop := ∀ c ∈ text, isSpace c = true

/-- The digits of a number with white space around them. -/
def WritesCount (n : Nat) (text : String) : Prop :=
  ∃ before after : List Char, Blank before ∧ Blank after ∧
    text.toList = before ++ (Nat.toDigits 10 n ++ after)

/-! ### White space -/

theorem skipSpace_of_blank {before : List Char} (hbefore : Blank before) (text : List Char) :
    skipSpace (before ++ text) = skipSpace text :=
  List.dropWhile_append_of_pos hbefore

theorem skipSpace_eq_nil_iff {text : List Char} : skipSpace text = [] ↔ Blank text := by
  simp [skipSpace, Blank, List.dropWhile_eq_nil_iff]

theorem isDigit_of_isSpace {c : Char} (hc : isSpace c = true) : c.isDigit = false := by
  simp only [isSpace, Bool.or_eq_true, decide_eq_true_eq] at hc
  rcases hc with ((rfl | rfl) | rfl) | rfl <;> rfl

/-! ### Numerals of digits only -/

/-- Digits before white space are a numeral without a sign, a fraction or an exponent. -/
theorem readNumeral_digits {digits after : List Char} (hdigits : IsWhole digits)
    (hafter : Blank after) :
    readNumeral (digits ++ after) = some (⟨false, digits, none, none⟩, after) := by
  have hend : readFraction after = some (none, after) ∧
      readExponent after = some (none, after) := by
    cases after with
    | nil => exact ⟨rfl, rfl⟩
    | cons c rest =>
        have hc := hafter c List.mem_cons_self
        simp only [isSpace, Bool.or_eq_true, decide_eq_true_eq] at hc
        rcases hc with ((rfl | rfl) | rfl) | rfl <;> exact ⟨rfl, rfl⟩
  have hnoDigit : NoDigitHead after := fun c hc =>
    isDigit_of_isSpace (hafter c (List.mem_of_mem_head? hc))
  have hminus : readMinus (digits ++ after) = (false, digits ++ after) :=
    @readMinus_text false _ _ hdigits
  have haccepted :
      (digits.isEmpty || (digits.head? == some '0' && digits.length != 1)) = false := by
    have hnonempty := hdigits.nonempty
    have hzero := hdigits.no_leading_zero
    grind
  simp only [readNumeral, hminus, readDigits_append hdigits.digit hnoDigit, haccepted,
    Bool.false_eq_true, if_false, hend.1, hend.2, Option.bind_eq_bind, Option.bind_some]

theorem readMinus_of_false {text : List Char} (h : (readMinus text).1 = false) :
    (readMinus text).2 = text := by
  unfold readMinus at h ⊢
  split at h
  · contradiction
  · rfl

theorem eq_of_readFraction {text rest : List Char} (h : readFraction text = some (none, rest)) :
    rest = text := by
  unfold readFraction at h
  split at h
  · dsimp only at h
    split at h <;> simp at h
  · exact (Prod.mk.inj (Option.some.inj h)).2.symm

theorem eq_of_readExponent {text rest : List Char} (h : readExponent text = some (none, rest)) :
    rest = text := by
  unfold readExponent at h
  split at h
  · simp at h
  · simp at h
  · exact (Prod.mk.inj (Option.some.inj h)).2.symm

/-- A numeral without a sign, a fraction and an exponent is its digits. -/
theorem eq_of_readNumeral {text rest digits : List Char}
    (h : readNumeral text = some (⟨false, digits, none, none⟩, rest)) :
    IsWhole digits ∧ text = digits ++ rest := by
  simp only [readNumeral, Option.bind_eq_bind, Option.bind_eq_some_iff,
    Option.ite_none_left_eq_some, Option.some.injEq, Prod.mk.injEq, Numeral.mk.injEq,
    Bool.not_eq_true, Bool.or_eq_false_iff, Bool.and_eq_false_iff, Prod.exists] at h
  obtain ⟨⟨hnonempty, hzero⟩, fraction, between, hfraction, exponent, after, hexponent,
    ⟨hsign, hdigits, rfl, rfl⟩, rfl⟩ := h
  have htext : (readMinus text).2 = text := readMinus_of_false hsign
  rw [htext] at hfraction hdigits hnonempty hzero
  rw [eq_of_readExponent hexponent, eq_of_readFraction hfraction, ← hdigits]
  refine ⟨⟨⟨?_, fun c hc => ?_⟩, ?_⟩, ?_⟩
  · simpa using hnonempty
  · exact List.mem_takeWhile_imp hc
  · intro hhead
    rw [hhead] at hzero
    simpa using hzero
  · exact List.takeWhile_append_dropWhile.symm

theorem eq_of_gather {value total : Nat} {digits : List Char}
    (h : gather value digits = (total, [])) : Text.ofDigits value digits = total := by
  induction digits generalizing value with
  | nil => exact (Prod.mk.inj h).1
  | cons c rest ih =>
      rw [gather] at h
      split at h
      · exact ih h
      · cases h

/-- A numeral that is read as a count has digits only. -/
theorem eq_of_number? {written : Numeral} {n : Nat} (h : written.number? = some (.int n)) :
    written = ⟨false, written.whole, none, none⟩ ∧ Text.ofDigits 0 written.whole = n := by
  obtain ⟨negative, whole, fraction, exponent⟩ := written
  cases hgather : gather 0 whole with
  | mk gathered left =>
      cases fraction with
      | some digits => simp [Numeral.number?, hgather] at h
      | none =>
          cases exponent with
          | some power => simp [Numeral.number?, hgather] at h
          | none =>
              simp only [Numeral.number?, hgather] at h
              split at h
              · simp at h
              rename_i hleft
              obtain rfl : left = [] := by simpa using hleft
              split at h
              · rename_i hpositive
                obtain rfl : negative = false := by simpa using hpositive
                have hvalue : (gathered : Int) = n := Number.int.inj (Option.some.inj h)
                exact ⟨rfl, (eq_of_gather hgather).trans (Int.ofNat_inj.mp hvalue)⟩
              split at h
              · have hvalue : -(gathered : Int) = n := Number.int.inj (Option.some.inj h)
                omega
              · simp at h

/-! ### Texts read as numbers -/

theorem readNumber_of_readScalar {bound : Nat} {text rest : List Char} {number : Number}
    (h : readScalar bound text = some (.number number, rest)) :
    readNumber text = some (number, rest) := by
  unfold readScalar at h
  split at h
  on_goal 5 =>
    obtain ⟨⟨found, after⟩, hread, heq⟩ := Option.map_eq_some_iff.mp h
    obtain ⟨hnumber, rfl⟩ := Prod.mk.inj heq
    obtain rfl := Json.number.inj hnumber
    exact hread
  all_goals simp at h

theorem readNumber_of_readValue {bound levels : Nat} {form : Form} {text rest : List Char}
    {number : Number} (h : readValue bound levels form text = some (.number number, rest)) :
    readNumber (skipSpace text) = some (number, rest) := by
  cases levels with
  | zero => exact readNumber_of_readScalar h
  | succ levels =>
      rw [readValue_succ] at h
      split at h
      · simp at h
      · simp at h
      · exact readNumber_of_readScalar h

theorem eq_number_of_canonical {value : Json} {number : Number}
    (h : value.canonical = .number number) : value = .number number := by
  cases value <;> simp_all [canonical]

/-- The text of a number, nothing of which is left but white space. -/
theorem readNumber_of_parse? {text : String} {number : Number}
    (h : parse? text = some (.number number)) :
    ∃ after, Blank after ∧ readNumber (skipSpace text.toList) = some (number, after) := by
  obtain ⟨value, hread, hvalue⟩ := Option.map_eq_some_iff.mp h
  obtain rfl := eq_number_of_canonical hvalue
  simp only [readAs?, readWithin] at hread
  split at hread
  · rename_i found after hfound
    split at hread
    · rename_i hblank
      obtain rfl := Option.some.inj hread
      exact ⟨after, skipSpace_eq_nil_iff.mp (List.isEmpty_iff.mp hblank),
        readNumber_of_readValue hfound⟩
    · cases hread
  · cases hread

/-- Digits between white space are read as their number. -/
theorem parse?_digits {text : String} {n : Nat} (hlimit : n < countLimit)
    (h : WritesCount n text) : parse? text = some (.ofNat n) := by
  obtain ⟨before, after, hbefore, hafter, htext⟩ := h
  have hread : readNumber (Nat.toDigits 10 n ++ after) = some (.int n, after) := by
    rw [readNumber, readNumeral_digits (isWhole_toDigits n) hafter]
    simp [number?_digits hlimit]
  have hwhole := isWhole_toDigits n
  obtain ⟨first, rest, hdigits⟩ := List.exists_cons_of_ne_nil hwhole.nonempty
  have hfirst : first.isDigit = true := hwhole.digit first (by simp [hdigits])
  have hopens := opens_of_digit (.inr hfirst)
  have hshown : skipSpace text.toList = first :: (rest ++ after) := by
    rw [htext, skipSpace_of_blank hbefore, hdigits, List.cons_append,
      skipSpace_cons hopens.not_space]
  have hbracket : first ≠ '[' := by
    rintro rfl
    contradiction
  have hbrace : first ≠ '\x7b' := by
    rintro rfl
    contradiction
  rw [hdigits, List.cons_append] at hread
  have hvalue : readValue (text.toList.length + 1) nestingLimit .whole text.toList =
      some (.number (.int n), after) := by
    rw [← readValue_skipSpace, hshown,
      readValue_scalar _ _ _ _ hopens.not_space hbracket hbrace,
      readScalar_number _ (.inr hfirst), hread, Option.map_some]
  rw [parse?, readAs?, readWithin]
  simp [hvalue, skipSpace_eq_nil_iff.mpr hafter, canonical, ofNat, Number.ofNat]

/-- A text is read as a count exactly if it is the count's digits between white space. -/
theorem parse?_count_iff {text : String} {n : Nat} :
    (parse? text).bind count? = some n ↔ n < countLimit ∧ WritesCount n text := by
  constructor
  · intro h
    obtain ⟨value, hparse, hcount⟩ := Option.bind_eq_some_iff.mp h
    obtain ⟨rfl, hlimit⟩ := count?_eq_some_iff.mp hcount
    obtain ⟨after, hafter, hread⟩ := readNumber_of_parse? hparse
    obtain ⟨⟨written, rest⟩, hnumeral, hnumber⟩ := Option.bind_eq_some_iff.mp hread
    obtain ⟨number, hvalue, heq⟩ := Option.bind_eq_some_iff.mp hnumber
    obtain ⟨rfl, rfl⟩ := Prod.mk.inj (Option.some.inj heq)
    obtain ⟨hwritten, hn⟩ := eq_of_number? hvalue
    rw [hwritten] at hnumeral
    obtain ⟨hwhole, hshown⟩ := eq_of_readNumeral hnumeral
    refine ⟨hlimit, text.toList.takeWhile isSpace, rest, fun c hc => List.mem_takeWhile_imp hc,
      hafter, ?_⟩
    rw [← hn, toDigits_ofDigits hwhole, ← hshown]
    exact List.takeWhile_append_dropWhile.symm
  · rintro ⟨hlimit, hwrites⟩
    rw [parse?_digits hlimit hwrites, Option.bind_some]
    exact count?_eq_some_iff.mpr ⟨rfl, hlimit⟩

end JoinPlan.Json
