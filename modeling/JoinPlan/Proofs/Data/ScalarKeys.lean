import JoinPlan.Proofs.Data.PlainBatches

/-!
# Keys of one scalar type

A database compares keys by value, and the rows of a batch are matched by the text of their
keys.  For keys of one scalar type this comes to the same, but for the two zeros of the
floating point numbers: they are worth the same and are written differently.
-/

namespace JoinPlan

open Plan Sql

inductive ScalarType
  | boolean
  | integer
  | float
  | text
deriving DecidableEq, Repr

namespace ScalarType

/-- Whether a value is of the type. -/
def has : ScalarType → Json → Bool
  | .boolean, .bool _ => true
  | .integer, .number (.int _) => true
  | .float, .number (.decimal _) => true
  | .text, .string _ => true
  | _, _ => false

/-- A column of the type holds values of it and nulls. -/
def Holds (type : ScalarType) (value : Json) : Prop := value = .null ∨ type.has value = true

end ScalarType

/-- The zeros of the floating point numbers. -/
def OppositeZeros (first second : Json) : Prop :=
  ∃ negative, first = .number (.decimal (.zero negative)) ∧
    second = .number (.decimal (.zero !negative))

theorem Decimal.eq_zero_of_digits {decimal : Decimal} (h : decimal.digits = 0) :
    decimal = .zero decimal.negative := by
  have hexponent : decimal.exponent = 0 := (decimal.normal (by rw [h])).2
  ext <;> simp [Decimal.zero, h, hexponent]

/-- Of values of one type only the zeros are the same without being equal. -/
theorem same_iff {type : ScalarType} {first second : Json} (hfirst : type.has first = true)
    (hsecond : type.has second = true) (hzeros : ¬ OppositeZeros first second) :
    same first second = true ↔ first = second := by
  cases type with
  | boolean =>
      cases first <;> simp [ScalarType.has] at hfirst
      cases second <;> simp [ScalarType.has] at hsecond
      simp [same]
  | text =>
      cases first <;> simp [ScalarType.has] at hfirst
      cases second <;> simp [ScalarType.has] at hsecond
      simp [same]
  | integer =>
      rcases first with _ | _ | ⟨_ | _⟩ | _ | _ | _ <;> simp [ScalarType.has] at hfirst
      rcases second with _ | _ | ⟨_ | _⟩ | _ | _ | _ <;> simp [ScalarType.has] at hsecond
      simp [same, Number.same]
  | float =>
      rcases first with _ | _ | ⟨_ | one⟩ | _ | _ | _ <;> simp [ScalarType.has] at hfirst
      rcases second with _ | _ | ⟨_ | other⟩ | _ | _ | _ <;> simp [ScalarType.has] at hsecond
      simp only [same, Number.same, Bool.or_eq_true, beq_iff_eq, Bool.and_eq_true,
        Json.number.injEq, Number.decimal.injEq]
      constructor
      · rintro (rfl | ⟨hone, hother⟩)
        · rfl
        · rw [Decimal.eq_zero_of_digits hone, Decimal.eq_zero_of_digits hother] at hzeros ⊢
          by_contra hne
          apply hzeros
          refine ⟨one.negative, rfl, ?_⟩
          have hsigns : other.negative = !one.negative := by
            cases hn : one.negative <;> cases hm : other.negative <;> simp_all
          rw [hsigns]
      · exact Or.inl

theorem keyText?_eq_iff {type : ScalarType} {first second : Json} (hfirst : type.has first = true)
    (hsecond : type.has second = true) : keyText? first = keyText? second ↔ first = second := by
  constructor
  · intro h
    cases type with
    | text =>
        cases first <;> simp [ScalarType.has] at hfirst
        cases second <;> simp [ScalarType.has] at hsecond
        simpa [keyText?] using h
    | boolean | integer | float =>
        apply Json.text_injective
        cases first <;> simp [ScalarType.has] at hfirst
        cases second <;> simp [ScalarType.has] at hsecond
        simpa [keyText?] using h
  · exact congrArg keyText?

/-- Keys of one scalar type are equal for the database when they are matched. -/
theorem isTrue_equal_eq_matched {type : ScalarType} {key other : Json} (hkey : type.Holds key)
    (hother : type.Holds other) (hzeros : ¬ OppositeZeros other key) :
    Sql.isTrue (equal other key) = matched key other := by
  have hnotNull {value : Json} (h : type.has value = true) :
      value.isNull = false ∧ (keyText? value).isSome = true := by
    cases value with
    | null => cases type <;> simp [ScalarType.has] at h
    | bool | number | string | array | object => simp [Json.isNull, keyText?]
  rcases hkey with rfl | hkey
  · simp [equal, Json.isNull, Sql.isTrue, matched, keyText?]
  rcases hother with rfl | hother
  · obtain ⟨text, htext⟩ := Option.isSome_iff_exists.mp (hnotNull hkey).2
    have hnone : keyText? .null = none := rfl
    simp [equal, Json.isNull, Sql.isTrue, matched, hnone, htext]
  rw [matched, (hnotNull hkey).2, Bool.true_and, equal, (hnotNull hkey).1, (hnotNull hother).1,
    Bool.or_self, if_neg Bool.false_ne_true, Bool.eq_iff_iff, beq_iff_eq,
    keyText?_eq_iff hother hkey, ← same_iff hother hkey hzeros]
  cases same other key <;> simp [Sql.isTrue]

end JoinPlan
