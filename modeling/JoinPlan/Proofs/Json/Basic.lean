import JoinPlan.Json.Printer
import JoinPlan.Proofs.LastValue

/-!
# Values as trees

A value is a scalar, or an array or object whose parts are values.  Proofs follow
that view: their induction hypotheses are about the items and about the values of
the members.
-/

namespace JoinPlan.Json

@[elab_as_elim, induction_eliminator]
theorem induction {motive : Json → Prop} (null : motive .null)
    (bool : ∀ value, motive (.bool value)) (number : ∀ value, motive (.number value))
    (string : ∀ value, motive (.string value))
    (array : ∀ items, (∀ item ∈ items, motive item) → motive (.array items))
    (object : ∀ members : Object, (∀ member ∈ members, motive member.2) →
      motive (.object members)) (value : Json) : motive value := by
  refine Json.rec (motive_1 := motive) (motive_2 := fun items => ∀ item ∈ items, motive item)
    (motive_3 := fun members => ∀ member ∈ members, motive member.2)
    (motive_4 := fun member => motive member.2)
    null bool number string array object ?_ ?_ ?_ ?_ ?_ value
  · simp
  · intro item rest hitem hrest other hother
    rcases List.mem_cons.mp hother with rfl | h
    · exact hitem
    · exact hrest other h
  · simp
  · intro member rest hmember hrest other hother
    rcases List.mem_cons.mp hother with rfl | h
    · exact hmember
    · exact hrest other h
  · exact fun _ _ hvalue => hvalue

theorem canonicalMembers_eq (members : Object) :
    canonicalMembers members = Assoc.mapValues canonical members := by
  induction members with
  | nil => rfl
  | cons member rest ih =>
      cases member with
      | mk key value =>
          rw [canonicalMembers, ih, Assoc.mapValues, Assoc.mapValues, List.map_cons,
            canonicalMember]

/-- Of members with one key the last is found. -/
@[simp]
theorem getD_ofMembers (key : String) (members : Object) :
    (ofMembers members).getD key = (Assoc.last? key members).getD .null := by
  rw [ofMembers, getD, get?, Assoc.get?_sorted]

/-- What is a count is that number, in 64 bits without a sign. -/
theorem count?_eq_some_iff {value : Json} {n : Nat} :
    value.count? = some n ↔ value = .ofNat n ∧ n < countLimit := by
  constructor
  · intro h
    cases value with
    | number value =>
        cases value with
        | int value =>
            rw [count?, Number.count?] at h
            split at h
            · obtain rfl := Option.some.inj h
              rw [ofNat, Number.ofNat, Int.toNat_of_nonneg (by omega)]
              exact ⟨rfl, by omega⟩
            · contradiction
        | decimal value => contradiction
    | _ => contradiction
  · rintro ⟨rfl, hn⟩
    have hfits : (0 : Int) ≤ n ∧ (n : Int) < countLimit := by omega
    simp [ofNat, Number.ofNat, count?, Number.count?, hfits]

/-! ### Texts separated by commas -/

def joined : List (List Char) → List Char
  | [] => []
  | [text] => text
  | text :: rest => text ++ ',' :: joined rest

/-- What follows an item: the end of the list, or a comma and the other items. -/
def afterItem (texts : List (List Char)) (closing : List Char) : List Char :=
  match texts with
  | [] => closing
  | texts => ',' :: (joined texts ++ closing)

theorem joined_cons_append (text : List Char) (texts : List (List Char))
    (closing : List Char) :
    joined (text :: texts) ++ closing = text ++ afterItem texts closing := by
  cases texts <;> simp [joined, afterItem]

theorem compactItems_eq (items : List Json) : compactItems items = joined (items.map compact) := by
  induction items with
  | nil => rfl
  | cons item rest ih =>
      cases rest with
      | nil => rfl
      | cons next others =>
          rw [compactItems, ih]
          · rfl
          · simp

theorem compactMembers_eq (members : Object) :
    compactMembers members = joined (members.map compactMember) := by
  induction members with
  | nil => rfl
  | cons member rest ih =>
      cases rest with
      | nil => rfl
      | cons next others =>
          rw [compactMembers, ih]
          · rfl
          · simp

theorem length_le_joined {texts : List (List Char)} {text : List Char} (h : text ∈ texts) :
    text.length ≤ (joined texts).length := by
  induction texts using joined.induct with
  | case1 => simp at h
  | case2 only =>
      rw [List.mem_singleton.mp h]
      exact Nat.le_refl _
  | case3 first rest hrest ih =>
      rw [joined]
      · rw [List.length_append, List.length_cons]
        rcases List.mem_cons.mp h with rfl | h
        · omega
        · have := ih h
          omega
      · exact hrest

theorem length_texts_le_joined (texts : List (List Char)) (h : ∀ text ∈ texts, text ≠ []) :
    texts.length ≤ (joined texts).length := by
  induction texts using joined.induct with
  | case1 => simp
  | case2 only =>
      have honly := List.length_pos_iff.mpr (h only List.mem_cons_self)
      rw [joined, List.length_singleton]
      omega
  | case3 first rest hrest ih =>
      have hlength := ih fun text htext => h text (List.mem_cons_of_mem _ htext)
      rw [joined]
      · rw [List.length_append, List.length_cons, List.length_cons]
        omega
      · exact hrest

end JoinPlan.Json
