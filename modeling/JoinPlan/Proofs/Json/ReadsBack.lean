import JoinPlan.Proofs.Json.Reading

/-!
# Values that read back

Strings, truth values and 64 bit integers always read back from their text.  An object
reads back when each of its members does in an object of its own.
-/

namespace JoinPlan.Json

/-- Parsing the text of the value gives the value. -/
def ReadsBack (value : Json) : Prop := parse? value.text = some value

/-! ### Integers -/

theorem le_ofDigits (value : Nat) (digits : List Char) :
    value ≤ Text.ofDigits value digits := by
  induction digits generalizing value with
  | nil => exact Nat.le_refl value
  | cons c rest ih =>
      have hrest := ih (value * 10 + Text.digitValue c)
      rw [Text.ofDigits] at hrest
      rw [Text.ofDigits, List.foldl_cons]
      omega

theorem gather_of_lt (value : Nat) (digits : List Char)
    (h : Text.ofDigits value digits < countLimit) :
    gather value digits = (Text.ofDigits value digits, []) := by
  induction digits generalizing value with
  | nil => rfl
  | cons c rest ih =>
      have hle := le_ofDigits (value * 10 + Text.digitValue c) rest
      rw [gather, if_pos (Nat.lt_of_le_of_lt hle h)]
      exact ih _ h

theorem gather_toDigits {n : Nat} (hn : n < countLimit) :
    gather 0 (Nat.toDigits 10 n) = (n, []) := by
  have hdigits := gather_of_lt 0 (Nat.toDigits 10 n)
    (by rwa [Text.ofDigits_toDigits])
  rwa [Text.ofDigits_toDigits] at hdigits

theorem number?_digits {n : Nat} (hn : n < countLimit) :
    Numeral.number? ⟨false, Nat.toDigits 10 n, none, none⟩ = some (.int n) := by
  simp [Numeral.number?, gather_toDigits hn]

theorem number?_negative_digits {n : Nat} (hpos : 0 < n) (hn : 2 * n ≤ countLimit) :
    Numeral.number? ⟨true, Nat.toDigits 10 n, none, none⟩ = some (.int (-n)) := by
  simp [Numeral.number?, gather_toDigits (show n < countLimit by omega), hpos, hn]

theorem number?_intSpelling {value : Int} (hlow : -(countLimit : Int) ≤ 2 * value)
    (hhigh : value < countLimit) : (intSpelling value).numeral.number? = some (.int value) := by
  cases value with
  | ofNat n =>
      have hn : n < countLimit := Int.ofNat_lt.mp hhigh
      exact number?_digits hn
  | negSucc n =>
      have hn : 2 * (n + 1) ≤ countLimit := by omega
      exact number?_negative_digits (Nat.succ_pos n) hn

theorem rereadNumber?_int {value : Int} (hlow : -(countLimit : Int) ≤ 2 * value)
    (hhigh : value < countLimit) : rereadNumber? (.int value) = some (.int value) := by
  have hnumber := number?_intSpelling hlow hhigh
  have hread := (intSpelling value).readNumeral_text delimited_nil
  rw [List.append_nil, text_intSpelling] at hread
  rw [rereadNumber?, numberText, readNumber, hread]
  simp [hnumber]

/-! ### Objects -/

theorem exists_reread_members (levels : Nat) (members : Object)
    (h : ∀ member ∈ members, (reread? levels member.2).map canonical = some member.2) :
    ∃ read, members.mapM (rereadMember? levels) = some read ∧
      Assoc.mapValues canonical read = members := by
  induction members with
  | nil => exact ⟨[], rfl, rfl⟩
  | cons member rest ih =>
      obtain ⟨others, hothers, hcanonical⟩ := ih fun other hother =>
        h other (List.mem_cons_of_mem _ hother)
      obtain ⟨value, hvalue, hsame⟩ := Option.map_eq_some_iff.mp (h member List.mem_cons_self)
      refine ⟨(member.1, value) :: others, ?_, ?_⟩
      · simp [rereadMember?_eq, hvalue, hothers]
      · rw [Assoc.mapValues, List.map_cons, hsame]
        rw [Assoc.mapValues] at hcanonical
        rw [hcanonical]

theorem readsBack_singleton {key : String} {value : Json} :
    ReadsBack (.object [(key, value)]) ↔
      (reread? (nestingLimit - 1) value).map canonical = some value := by
  have hlimit : nestingLimit = nestingLimit - 1 + 1 := rfl
  rw [ReadsBack, parse?_text, hlimit, reread?, rereadMembers?, rereadMembers?, rereadMember?]
  cases hread : reread? (nestingLimit - 1) value <;>
    simp [hread, canonical, canonicalMembers, canonicalMember, Assoc.sorted, Assoc.insert]

/-- An object reads back when each of its members does. -/
theorem readsBack_ofMembers {members : Object}
    (h : ∀ member ∈ members, ReadsBack (.object [member])) : ReadsBack (.ofMembers members) := by
  have hlimit : nestingLimit = nestingLimit - 1 + 1 := rfl
  obtain ⟨read, hread, hsame⟩ := exists_reread_members (nestingLimit - 1)
    (Assoc.sorted members) fun member hmember =>
      readsBack_singleton.mp (h member (Assoc.mem_of_mem_sorted hmember))
  rw [ReadsBack, parse?_text, ofMembers, hlimit, reread?, rereadMembers?_eq, hread]
  rw [Option.map_some, Option.map_some, canonical, canonicalMembers_eq, hsame,
    Assoc.sorted_sorted]

theorem readsBack_int {value : Int} (hlow : -(countLimit : Int) ≤ 2 * value)
    (hhigh : value < countLimit) : ReadsBack (.number (.int value)) := by
  rw [ReadsBack, parse?_text, reread?_number, rereadNumber?_int hlow hhigh]
  rfl

theorem readsBack_singleton_int (key : String) {value : Int}
    (hlow : -(countLimit : Int) ≤ 2 * value) (hhigh : value < countLimit) :
    ReadsBack (.object [(key, .number (.int value))]) := by
  rw [readsBack_singleton, reread?_number, rereadNumber?_int hlow hhigh]
  rfl

end JoinPlan.Json
