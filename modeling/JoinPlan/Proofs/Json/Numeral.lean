import JoinPlan.Json.Printer
import JoinPlan.Json.Reader
import Mathlib.Data.List.Basic

/-!
# Number texts are numerals

Whatever a number is, its text is a sign, a whole part without leading zeros, and
perhaps a fraction and an exponent.  So a reader stops exactly where the text
ends, provided that what follows is the end of the text or a mark that ends a
value.
-/

namespace JoinPlan.Json

/-- Nothing follows a value but the end of the text, a comma, a closing bracket or a
line break. -/
def Delimited (rest : List Char) : Prop :=
  ∀ c, rest.head? = some c → c = ',' ∨ c = ']' ∨ c = '\x7d' ∨ c = '\n'

theorem delimited_nil : Delimited [] := by
  intro c hc
  simp at hc

theorem delimited_cons {c : Char} {rest : List Char} :
    Delimited (c :: rest) ↔ c = ',' ∨ c = ']' ∨ c = '\x7d' ∨ c = '\n' := by
  simp [Delimited]

/-- The text does not go on with a digit. -/
def NoDigitHead (rest : List Char) : Prop :=
  ∀ c, rest.head? = some c → c.isDigit = false

theorem Delimited.noDigitHead {rest : List Char} (hrest : Delimited rest) :
    NoDigitHead rest := by
  intro c hc
  rcases hrest c hc with rfl | rfl | rfl | rfl <;> rfl

structure IsDigits (digits : List Char) : Prop where
  nonempty : digits ≠ []
  digit : ∀ c ∈ digits, c.isDigit = true

/-- Digits without a leading zero, unless zero is meant. -/
structure IsWhole (digits : List Char) : Prop extends IsDigits digits where
  no_leading_zero : digits.head? = some '0' → digits.length = 1

theorem isDigits_toDigits (n : Nat) : IsDigits (Nat.toDigits 10 n) where
  nonempty := Nat.toDigits_ne_nil
  digit _ hc := Nat.isDigit_of_mem_toDigits (by decide) (by decide) hc

private theorem digitChar_ne_zero :
    ∀ n ∈ List.range 10, 0 < n → n.digitChar ≠ '0' := by
  decide

theorem head?_toDigits_ne_zero {n : Nat} (hn : 0 < n) :
    (Nat.toDigits 10 n).head? ≠ some '0' := by
  induction n using Nat.strongRecOn with
  | ind n ih =>
      by_cases hsmall : n < 10
      · rw [Nat.toDigits_of_lt_base hsmall]
        simpa using digitChar_ne_zero n (List.mem_range.mpr hsmall) hn
      · rw [Nat.toDigits_of_base_le (by decide) (by omega),
          List.head?_append_of_ne_nil _ Nat.toDigits_ne_nil]
        exact ih (n / 10) (by omega) (by omega)

theorem isWhole_toDigits (n : Nat) : IsWhole (Nat.toDigits 10 n) where
  toIsDigits := isDigits_toDigits n
  no_leading_zero hzero := by
    by_cases hn : n = 0
    · rw [hn]
      rfl
    · exact absurd hzero (head?_toDigits_ne_zero (Nat.pos_of_ne_zero hn))

theorem isDigit_of_mem_zeros (count : Nat) {c : Char} (hc : c ∈ Decimal.zeros count) :
    c.isDigit = true := by
  rw [List.eq_of_mem_replicate hc]
  rfl

/-! ### Reading the parts -/

theorem readDigits_append {digits rest : List Char} (hdigits : ∀ c ∈ digits, c.isDigit = true)
    (hrest : NoDigitHead rest) : readDigits (digits ++ rest) = (digits, rest) := by
  have hnone : rest.takeWhile Char.isDigit = [] ∧ rest.dropWhile Char.isDigit = rest := by
    cases rest with
    | nil => exact ⟨rfl, rfl⟩
    | cons c rest => simp [hrest c rfl]
  rw [readDigits, List.takeWhile_append_of_pos hdigits, List.dropWhile_append_of_pos hdigits,
    hnone.1, hnone.2, List.append_nil]

def signText (negative : Bool) : List Char := if negative then ['-'] else []

def fractionText : Option (List Char) → List Char
  | none => []
  | some digits => '.' :: digits

def exponentText : Option (Bool × List Char) → List Char
  | none => []
  | some (negative, digits) => 'e' :: (if negative then '-' else '+') :: digits

/-- The number of a signed run of digits. -/
def exponentValue : Bool × List Char → Int
  | (negative, digits) =>
      if negative then -(Text.ofDigits 0 digits : Int) else Text.ofDigits 0 digits

theorem readExponent_text {exponent : Option (Bool × List Char)} {rest : List Char}
    (hexponent : ∀ part, exponent = some part → IsDigits part.2) (hrest : Delimited rest) :
    readExponent (exponentText exponent ++ rest) = some (exponent.map exponentValue, rest) := by
  cases exponent with
  | none =>
      cases rest with
      | nil => rfl
      | cons c rest => rcases delimited_cons.mp hrest with rfl | rfl | rfl | rfl <;> rfl
  | some part =>
      have hpart := hexponent part rfl
      have hdigits := readDigits_append hpart.digit hrest.noDigitHead
      have hnonempty : part.2.isEmpty = false := by simpa using hpart.nonempty
      cases part with
      | mk negative digits =>
          cases negative <;>
            simp_all [exponentText, readExponent, readSignedDigits, exponentValue]

theorem noDigitHead_exponentText (exponent : Option (Bool × List Char)) {rest : List Char}
    (hrest : Delimited rest) : NoDigitHead (exponentText exponent ++ rest) := by
  cases exponent with
  | none => exact hrest.noDigitHead
  | some part =>
      intro c hc
      obtain rfl : 'e' = c := by simpa [exponentText] using hc
      rfl

theorem readFraction_text {fraction : Option (List Char)}
    {exponent : Option (Bool × List Char)} {rest : List Char}
    (hfraction : ∀ digits, fraction = some digits → IsDigits digits) (hrest : Delimited rest) :
    readFraction (fractionText fraction ++ (exponentText exponent ++ rest)) =
      some (fraction, exponentText exponent ++ rest) := by
  cases fraction with
  | none =>
      cases exponent with
      | some part => rfl
      | none =>
          cases rest with
          | nil => rfl
          | cons c rest => rcases delimited_cons.mp hrest with rfl | rfl | rfl | rfl <;> rfl
  | some digits =>
      have hpart := hfraction digits rfl
      have hdigits := readDigits_append hpart.digit
        (noDigitHead_exponentText exponent hrest)
      have hnonempty : digits.isEmpty = false := by simpa using hpart.nonempty
      simp [fractionText, readFraction, hdigits, hnonempty]

theorem noDigitHead_fractionText (fraction : Option (List Char))
    (exponent : Option (Bool × List Char)) {rest : List Char} (hrest : Delimited rest) :
    NoDigitHead (fractionText fraction ++ (exponentText exponent ++ rest)) := by
  cases fraction with
  | none => exact noDigitHead_exponentText exponent hrest
  | some digits =>
      intro c hc
      obtain rfl : '.' = c := by simpa [fractionText] using hc
      rfl

theorem readMinus_text {negative : Bool} {whole rest : List Char} (hwhole : IsWhole whole) :
    readMinus (signText negative ++ (whole ++ rest)) = (negative, whole ++ rest) := by
  cases negative with
  | true => rfl
  | false =>
      cases whole with
      | nil => exact absurd rfl hwhole.nonempty
      | cons c digits =>
          have hc : c ≠ '-' := by
            intro heq
            have hdigit := hwhole.digit c List.mem_cons_self
            rw [heq] at hdigit
            contradiction
          simp [signText, readMinus, hc]

/-- A number as it is spelled: a sign, a whole part, and perhaps a fraction and an
exponent with its own sign. -/
structure Spelling where
  negative : Bool
  whole : List Char
  fraction : Option (List Char)
  exponent : Option (Bool × List Char)
  isWhole : IsWhole whole
  isDigits_fraction : ∀ digits, fraction = some digits → IsDigits digits
  isDigits_exponent : ∀ part, exponent = some part → IsDigits part.2

namespace Spelling

def text (spelling : Spelling) : List Char :=
  signText spelling.negative ++
    (spelling.whole ++ (fractionText spelling.fraction ++ exponentText spelling.exponent))

def numeral (spelling : Spelling) : Numeral :=
  ⟨spelling.negative, spelling.whole, spelling.fraction, spelling.exponent.map exponentValue⟩

/-- A number is read as it is spelled, whatever follows. -/
theorem readNumeral_text (spelling : Spelling) {rest : List Char} (hrest : Delimited rest) :
    readNumeral (spelling.text ++ rest) = some (spelling.numeral, rest) := by
  cases spelling with
  | mk negative whole fraction exponent hwhole hfraction hexponent =>
      have hdigits := readDigits_append hwhole.digit
        (noDigitHead_fractionText fraction exponent hrest)
      have haccepted :
          (whole.isEmpty || (whole.head? == some '0' && whole.length != 1)) = false := by
        have hnonempty := hwhole.nonempty
        have hzero := hwhole.no_leading_zero
        grind
      simp only [text, List.append_assoc, readNumeral, readMinus_text hwhole, hdigits, haccepted,
        Bool.false_eq_true, if_false, readFraction_text hfraction hrest,
        readExponent_text hexponent hrest, Option.bind_eq_bind, Option.bind_some, numeral]

end Spelling

end JoinPlan.Json
