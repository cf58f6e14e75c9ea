import JoinPlan.Proofs.Json.Numeral

/-!
# How numbers are spelled

The text of an integer is its digits.  The text of a decimal has a point or an
exponent, and its digits, read together, are those of the decimal at the decimal's
place; only a decimal without a fraction is spelled with further zeros.  Since no
zero ends a decimal's digits, different numbers have different texts.
-/

namespace JoinPlan

-- powers are those of the core library, as in the definition of decimals
attribute [local instance (high)] instPowNat

namespace Text

theorem ofDigits_append (value : Nat) (digits others : List Char) :
    ofDigits value (digits ++ others) = ofDigits (ofDigits value digits) others :=
  List.foldl_append

theorem ofDigits_toDigits (n : Nat) : ofDigits 0 (Nat.toDigits 10 n) = n := by
  have hstep : (fun value c => value * 10 + digitValue c) =
      fun value c => 10 * value + (c.toNat - '0'.toNat) := by
    funext value c
    rw [Nat.mul_comm, digitValue]
  rw [ofDigits, hstep]
  exact Nat.ofDigitChars_ten_toDigits

theorem ofDigits_zeros (value count : Nat) :
    ofDigits value (Decimal.zeros count) = value * 10 ^ count := by
  induction count generalizing value with
  | zero => simp [Decimal.zeros, ofDigits]
  | succ count ih =>
      have hnext := ih (value * 10)
      rw [Nat.pow_succ, Nat.mul_comm (10 ^ count), ← Nat.mul_assoc, ← hnext]
      rfl

end Text

namespace Json

namespace Numeral

/-- All digits of a numeral as one number. -/
def significand (written : Numeral) : Nat :=
  Text.ofDigits 0 (written.whole ++ written.fraction.getD [])

/-- The place of the last of them. -/
def scale (written : Numeral) : Int :=
  written.exponent.getD 0 - (written.fraction.getD []).length

/-- Whether the numeral writes more than an integer. -/
def isDecimal (written : Numeral) : Bool :=
  written.fraction.isSome || written.exponent.isSome

/-- The numeral writes a number with these digits at this place. -/
structure Writes (written : Numeral) (negative : Bool) (digits : Nat) (exponent : Int) :
    Prop where
  sign : written.negative = negative
  isDecimal : written.isDecimal = true
  digits : written.significand = digits ∧ written.scale = exponent ∨
    0 ≤ exponent ∧ written.significand = digits * 10 ^ (exponent.toNat + 1) ∧ written.scale = -1

end Numeral

private theorem isDigits_zero : IsDigits ['0'] := ⟨by simp, by simp [Char.isDigit]⟩

private theorem isWhole_zero : IsWhole ['0'] := ⟨isDigits_zero, fun _ => rfl⟩

theorem IsWhole.append_digits {whole digits : List Char} (hwhole : IsWhole whole)
    (hzero : whole.head? ≠ some '0') (hdigits : ∀ c ∈ digits, c.isDigit = true) :
    IsWhole (whole ++ digits) where
  nonempty := by simp [hwhole.nonempty]
  digit c hc := (List.mem_append.mp hc).elim (hwhole.digit c) (hdigits c)
  no_leading_zero hhead := by
    rw [List.head?_append_of_ne_nil _ hwhole.nonempty] at hhead
    exact absurd hhead hzero

theorem IsWhole.take {whole : List Char} (hwhole : IsWhole whole)
    (hzero : whole.head? ≠ some '0') {count : Nat} (hcount : 0 < count) :
    IsWhole (whole.take count) where
  nonempty := by simp [hwhole.nonempty, Nat.ne_of_gt hcount]
  digit c hc := hwhole.digit c (List.mem_of_mem_take hc)
  no_leading_zero hhead := by
    rw [List.head?_take, if_neg (Nat.ne_of_gt hcount)] at hhead
    exact absurd hhead hzero

theorem IsDigits.drop {digits : List Char} (hdigits : IsDigits digits) {count : Nat}
    (hcount : count < digits.length) : IsDigits (digits.drop count) where
  nonempty := by
    intro hnil
    exact absurd (List.drop_eq_nil_iff.mp hnil) (by omega)
  digit c hc := hdigits.digit c (List.mem_of_mem_drop hc)

theorem isDigits_zeros_append (count : Nat) {digits : List Char} (hdigits : IsDigits digits) :
    IsDigits (Decimal.zeros count ++ digits) where
  nonempty := by simp [hdigits.nonempty]
  digit c hc := (List.mem_append.mp hc).elim (isDigit_of_mem_zeros count) (hdigits.digit c)

/-! ### Integers -/

/-- The sign of an integer and its digits. -/
def intSpelling : Int → Spelling
  | .ofNat n => ⟨false, Nat.toDigits 10 n, none, none, isWhole_toDigits n, by simp, by simp⟩
  | .negSucc n =>
      ⟨true, Nat.toDigits 10 (n + 1), none, none, isWhole_toDigits (n + 1), by simp, by simp⟩

theorem text_intSpelling (value : Int) : (intSpelling value).text = intText value := by
  cases value with
  | ofNat n => exact List.append_nil _
  | negSucc n => exact congrArg (List.cons '-') (List.append_nil _)

/-! ### Decimals -/

section Layouts

variable (negative : Bool) {shown : List Char}

/-- A decimal without a fraction. -/
def positional (count : Nat) (hshown : IsWhole shown) (hzero : shown.head? ≠ some '0') :
    Spelling where
  negative := negative
  whole := shown ++ Decimal.zeros count
  fraction := some ['0']
  exponent := none
  isWhole := hshown.append_digits hzero fun _ => isDigit_of_mem_zeros count
  isDigits_fraction := by simpa using isDigits_zero
  isDigits_exponent := by simp

/-- A decimal whose point stands among its digits. -/
def pointed (place : Nat) (hplace : 0 < place ∧ place < shown.length) (hshown : IsWhole shown)
    (hzero : shown.head? ≠ some '0') : Spelling where
  negative := negative
  whole := shown.take place
  fraction := some (shown.drop place)
  exponent := none
  isWhole := hshown.take hzero hplace.1
  isDigits_fraction := by simpa using hshown.toIsDigits.drop hplace.2
  isDigits_exponent := by simp

/-- A decimal whose digits come after the point. -/
def fractional (count : Nat) (hshown : IsDigits shown) : Spelling where
  negative := negative
  whole := ['0']
  fraction := some (Decimal.zeros count ++ shown)
  exponent := none
  isWhole := isWhole_zero
  isDigits_fraction := by simpa using isDigits_zeros_append count hshown
  isDigits_exponent := by simp

/-- A decimal with an exponent. -/
def scientific (power : Int) (hshown : IsWhole shown) (hzero : shown.head? ≠ some '0') :
    Spelling where
  negative := negative
  whole := shown.take 1
  fraction := if shown.length = 1 then none else some (shown.drop 1)
  exponent := some (decide (power < 0), Nat.toDigits 10 power.natAbs)
  isWhole := hshown.take hzero (Nat.zero_lt_one)
  isDigits_fraction := by
    intro digits hdigits
    have hlength := List.length_pos_iff.mpr hshown.nonempty
    split at hdigits
    · contradiction
    · obtain rfl := Option.some.inj hdigits
      exact hshown.toIsDigits.drop (by omega)
  isDigits_exponent := by simpa using isDigits_toDigits power.natAbs

open Numeral

variable {digits : Nat}

theorem writes_positional (count : Nat) (hshown : IsWhole shown)
    (hzero : shown.head? ≠ some '0') (hdigits : Text.ofDigits 0 shown = digits) :
    (positional negative count hshown hzero).numeral.Writes negative digits count where
  sign := rfl
  isDecimal := rfl
  digits := by
    refine Or.inr ⟨Int.natCast_nonneg count, ?_, rfl⟩
    change Text.ofDigits 0 (shown ++ Decimal.zeros count ++ ['0']) = _
    rw [Text.ofDigits_append, Text.ofDigits_append, hdigits, Text.ofDigits_zeros,
      Int.toNat_natCast, Nat.pow_succ, ← Nat.mul_assoc]
    rfl

theorem writes_pointed (place : Nat) (hplace : 0 < place ∧ place < shown.length)
    (hshown : IsWhole shown) (hzero : shown.head? ≠ some '0')
    (hdigits : Text.ofDigits 0 shown = digits) :
    (pointed negative place hplace hshown hzero).numeral.Writes negative digits
      (place - shown.length) where
  sign := rfl
  isDecimal := rfl
  digits := by
    refine Or.inl ⟨?_, ?_⟩
    · change Text.ofDigits 0 (shown.take place ++ shown.drop place) = _
      rw [List.take_append_drop, hdigits]
    · change (0 : Int) - (shown.drop place).length = _
      rw [List.length_drop]
      omega

theorem writes_fractional (count : Nat) (hshown : IsDigits shown)
    (hdigits : Text.ofDigits 0 shown = digits) :
    (fractional negative count hshown).numeral.Writes negative digits
      (-(count + shown.length : Nat)) where
  sign := rfl
  isDecimal := rfl
  digits := by
    refine Or.inl ⟨?_, ?_⟩
    · change Text.ofDigits (Text.ofDigits 0 ['0']) (Decimal.zeros count ++ shown) = _
      rw [Text.ofDigits_append, Text.ofDigits_zeros, ← hdigits]
      simp [Text.ofDigits, Text.digitValue]
    · change (0 : Int) - (Decimal.zeros count ++ shown).length = _
      rw [List.length_append, Decimal.zeros, List.length_replicate]
      omega

theorem exponentValue_natAbs (power : Int) :
    exponentValue (decide (power < 0), Nat.toDigits 10 power.natAbs) = power := by
  rw [exponentValue, Text.ofDigits_toDigits]
  split
  · rename_i hnegative
    have := of_decide_eq_true hnegative
    omega
  · rename_i hnegative
    have := of_decide_eq_false (Bool.eq_false_iff.mpr hnegative)
    omega

theorem writes_scientific (power : Int) (hshown : IsWhole shown)
    (hzero : shown.head? ≠ some '0') (hdigits : Text.ofDigits 0 shown = digits) :
    (scientific negative power hshown hzero).numeral.Writes negative digits
      (power + 1 - shown.length) where
  sign := rfl
  isDecimal := by simp [scientific, Spelling.numeral, Numeral.isDecimal]
  digits := by
    have hlength := List.length_pos_iff.mpr hshown.nonempty
    have hparts : shown.take 1 ++
        (if shown.length = 1 then none else some (shown.drop 1)).getD [] = shown := by
      split
      · rw [Option.getD_none, List.append_nil, List.take_of_length_le (by omega)]
      · rw [Option.getD_some, List.take_append_drop]
    refine Or.inl ⟨?_, ?_⟩
    · exact (congrArg (Text.ofDigits 0) hparts).trans hdigits
    · have hcount := congrArg List.length hparts
      rw [List.length_append, List.length_take] at hcount
      rw [Numeral.scale]
      change exponentValue (decide (power < 0), Nat.toDigits 10 power.natAbs) -
        ((if shown.length = 1 then none else some (shown.drop 1)).getD []).length = _
      rw [exponentValue_natAbs]
      omega

end Layouts

/-- Every way of writing the digits of a number spells them at their place. -/
theorem exists_spelling_magnitude (negative : Bool) {digits : Nat} {exponent : Int}
    (hnormal : digits % 10 = 0 → digits = 0 ∧ exponent = 0) :
    ∃ spelling : Spelling,
      spelling.text = signText negative ++ Decimal.magnitudeText digits exponent ∧
        spelling.numeral.Writes negative digits exponent := by
  have hshown := isWhole_toDigits digits
  have hdigits := Text.ofDigits_toDigits digits
  rw [Decimal.magnitudeText]
  by_cases hnone : digits = 0
  · obtain rfl : exponent = 0 := (hnormal (by rw [hnone])).2
    refine ⟨fractional negative 0 isDigits_zero, by rw [if_pos hnone]; rfl, rfl, rfl, Or.inr ?_⟩
    rw [hnone]
    exact ⟨Int.le_refl 0, rfl, rfl⟩
  have hzero := head?_toDigits_ne_zero (Nat.pos_of_ne_zero hnone)
  generalize Nat.toDigits 10 digits = shown at hshown hzero hdigits
  simp only [if_neg hnone]
  split
  · refine ⟨positional negative exponent.toNat hshown hzero, ?_, ?_⟩
    · simp [Spelling.text, positional, fractionText, exponentText]
    · have hwrites := writes_positional negative exponent.toNat hshown hzero hdigits
      rwa [Int.toNat_of_nonneg (by omega)] at hwrites
  split
  · have hplace : 0 < (shown.length + exponent).toNat ∧
        (shown.length + exponent).toNat < shown.length := by omega
    refine ⟨pointed negative _ hplace hshown hzero, ?_, ?_⟩
    · simp [Spelling.text, pointed, fractionText, exponentText]
    · have hwrites := writes_pointed negative _ hplace hshown hzero hdigits
      rwa [show ((shown.length + exponent).toNat : Int) - shown.length = exponent by omega]
        at hwrites
  split
  · refine ⟨fractional negative (-(shown.length + exponent)).toNat hshown.toIsDigits, ?_, ?_⟩
    · simp [Spelling.text, fractional, fractionText, exponentText]
    · have hwrites := writes_fractional negative (-(shown.length + exponent)).toNat
        hshown.toIsDigits hdigits
      rwa [show -(((-(shown.length + exponent)).toNat + shown.length : Nat) : Int) = exponent by
        omega] at hwrites
  · refine ⟨scientific negative (shown.length + exponent - 1) hshown hzero, ?_, ?_⟩
    · by_cases hone : shown.length = 1 <;>
        simp [Spelling.text, scientific, fractionText, exponentText, hone]
    · have hwrites := writes_scientific negative (shown.length + exponent - 1) hshown hzero
        hdigits
      rwa [show (shown.length : Int) + exponent - 1 + 1 - shown.length = exponent by omega]
        at hwrites

theorem exists_spelling_decimal (value : Decimal) :
    ∃ spelling : Spelling, spelling.text = value.text ∧
      spelling.numeral.Writes value.negative value.digits value.exponent :=
  exists_spelling_magnitude value.negative value.normal

theorem exists_spelling (number : Number) :
    ∃ spelling : Spelling, spelling.text = numberText number := by
  cases number with
  | int value => exact ⟨intSpelling value, text_intSpelling value⟩
  | decimal value =>
      obtain ⟨spelling, htext, -⟩ := exists_spelling_decimal value
      exact ⟨spelling, htext⟩

/-! ### Different numbers have different texts -/

theorem toDigits_injective : Function.Injective (Nat.toDigits 10) := by
  intro first second heq
  have hvalues := congrArg (Text.ofDigits 0) heq
  rwa [Text.ofDigits_toDigits, Text.ofDigits_toDigits] at hvalues

theorem numeral_intSpelling_injective :
    Function.Injective fun value : Int => (intSpelling value).numeral := by
  intro first second heq
  have hsign := congrArg Numeral.negative heq
  have hwhole := congrArg Numeral.whole heq
  cases first <;> cases second
  · exact congrArg Int.ofNat (toDigits_injective hwhole)
  · contradiction
  · contradiction
  · exact congrArg Int.negSucc (Nat.succ.inj (toDigits_injective hwhole))

theorem isDecimal_intSpelling (value : Int) : (intSpelling value).numeral.isDecimal = false := by
  cases value <;> rfl

private theorem toNat_le_of_mul_pow_eq {first second : Decimal}
    (h : first.digits * 10 ^ (first.exponent.toNat + 1) =
      second.digits * 10 ^ (second.exponent.toNat + 1)) :
    second.exponent.toNat ≤ first.exponent.toNat := by
  apply Nat.le_of_not_lt
  intro hlt
  obtain ⟨more, hmore⟩ := Nat.exists_eq_add_of_lt hlt
  have hpow : 10 ^ (second.exponent.toNat + 1) =
      10 ^ (more + 1) * 10 ^ (first.exponent.toNat + 1) := by
    rw [← Nat.pow_add, hmore]
    congr 1
    omega
  rw [hpow, ← Nat.mul_assoc] at h
  have hdigits := Nat.eq_of_mul_eq_mul_right (Nat.pow_pos (by decide)) h
  have hend : first.digits % 10 = 0 := by
    rw [hdigits, Nat.pow_succ, ← Nat.mul_assoc, Nat.mul_mod_left]
  have hzero : second.digits = 0 := by
    rw [(first.normal hend).1] at hdigits
    have hpos : 0 < 10 ^ (more + 1) := Nat.pow_pos (by decide)
    exact (Nat.mul_eq_zero.mp hdigits.symm).resolve_right (by omega)
  have hexponent := (second.normal (by rw [hzero])).2
  omega

/-- Digits that do not end in a zero cannot also be spelled with zeros added. -/
theorem Numeral.Writes.unique {written : Numeral} {first second : Decimal}
    (hfirst : written.Writes first.negative first.digits first.exponent)
    (hsecond : written.Writes second.negative second.digits second.exponent) :
    first = second := by
  have hsign := hfirst.sign.symm.trans hsecond.sign
  have hplain {plain padded : Decimal} (hplain : written.scale = plain.exponent)
      (hpadded : written.scale = -1) (hdigits : written.significand = plain.digits)
      (hzeros : written.significand = padded.digits * 10 ^ (padded.exponent.toNat + 1)) :
      False := by
    have hend : plain.digits % 10 = 0 := by
      rw [← hdigits, hzeros, Nat.pow_succ, ← Nat.mul_assoc, Nat.mul_mod_left]
    have hexponent := (plain.normal hend).2
    omega
  rcases hfirst.digits with ⟨hdigits, hscale⟩ | ⟨hnonneg, hdigits, hscale⟩
  · rcases hsecond.digits with ⟨hdigits', hscale'⟩ | ⟨-, hdigits', hscale'⟩
    · exact Decimal.ext hsign (hdigits.symm.trans hdigits') (hscale.symm.trans hscale')
    · exact (hplain hscale hscale' hdigits hdigits').elim
  · rcases hsecond.digits with ⟨hdigits', hscale'⟩ | ⟨hnonneg', hdigits', hscale'⟩
    · exact (hplain hscale' hscale hdigits' hdigits).elim
    · have hshifted := hdigits.symm.trans hdigits'
      have hplace := Nat.le_antisymm (toNat_le_of_mul_pow_eq hshifted.symm)
        (toNat_le_of_mul_pow_eq hshifted)
      rw [hplace] at hshifted
      have hequal := Nat.eq_of_mul_eq_mul_right (Nat.pow_pos (by decide)) hshifted
      exact Decimal.ext hsign hequal (by omega)

/-- A number's text tells the number, whatever follows. -/
theorem eq_of_numberText_append {first second : Number} {rest rest' : List Char}
    (hrest : Delimited rest) (hrest' : Delimited rest')
    (h : numberText first ++ rest = numberText second ++ rest') :
    first = second ∧ rest = rest' := by
  have hread {spelling other : Spelling} (htext : spelling.text ++ rest = other.text ++ rest') :
      spelling.numeral = other.numeral ∧ rest = rest' := by
    have hparts := (spelling.readNumeral_text hrest).symm.trans
      ((congrArg readNumeral htext).trans (other.readNumeral_text hrest'))
    exact Prod.mk.inj (Option.some.inj hparts)
  cases first with
  | int first =>
      cases second with
      | int second =>
          have hparts := @hread (intSpelling first) (intSpelling second) (by
            rw [text_intSpelling, text_intSpelling]
            exact h)
          exact ⟨congrArg Number.int (numeral_intSpelling_injective hparts.1), hparts.2⟩
      | decimal second =>
          obtain ⟨spelling, htext, hwrites⟩ := exists_spelling_decimal second
          have hparts := @hread (intSpelling first) spelling (by
            rw [text_intSpelling, htext]
            exact h)
          have hpoint := hwrites.isDecimal
          rw [← hparts.1, isDecimal_intSpelling] at hpoint
          contradiction
  | decimal first =>
      obtain ⟨spelling, htext, hwrites⟩ := exists_spelling_decimal first
      cases second with
      | int second =>
          have hparts := @hread spelling (intSpelling second) (by
            rw [text_intSpelling, htext]
            exact h)
          have hpoint := hwrites.isDecimal
          rw [hparts.1, isDecimal_intSpelling] at hpoint
          contradiction
      | decimal second =>
          obtain ⟨other, htext', hwrites'⟩ := exists_spelling_decimal second
          have hparts := @hread spelling other (by
            rw [htext, htext']
            exact h)
          rw [← hparts.1] at hwrites'
          exact ⟨congrArg Number.decimal (hwrites.unique hwrites'), hparts.2⟩

end Json

end JoinPlan
