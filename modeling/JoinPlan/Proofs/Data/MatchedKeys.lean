import JoinPlan.Data.Batch
import JoinPlan.Proofs.Grouping
import Mathlib.Data.List.Forall2

/-!
# Keys and their texts

Parents and children are matched by the texts of their keys.  A string is its own text, and any
other value has the one it is written with; null has none, so an object whose key is null or
missing is matched with nothing.  A batch is for the keys of its parents, one for each text.
-/

namespace JoinPlan.Plan

open Json (Pointer)

/-! ### The text of a key -/

/-- A key and the text it is matched by. -/
inductive KeyText : Json → String → Prop
  | string (text : String) : KeyText (.string text) text
  | other {value : Json} : value ≠ .null → (∀ text, value ≠ .string text) →
      KeyText value value.text

theorem keyText?_eq_some_iff {value : Json} {text : String} :
    keyText? value = some text ↔ KeyText value text := by
  constructor
  · intro h
    cases value with
    | null => contradiction
    | string own =>
        obtain rfl := Option.some.inj h
        exact .string own
    | bool | number | array | object =>
        obtain rfl := Option.some.inj h
        exact .other (by simp) (by simp)
  · intro h
    cases h with
    | string => rfl
    | other hnull hstring =>
        cases value with
        | null => exact absurd rfl hnull
        | string text => exact absurd rfl (hstring text)
        | bool | number | array | object => rfl

theorem keyText?_eq_none_iff {value : Json} : keyText? value = none ↔ value = .null := by
  cases value <;> simp [keyText?]

/-- An object with a key of this text under the name. -/
def HasKey (name : String) (object : Json) (text : String) : Prop :=
  ∃ value, object.get? name = some value ∧ KeyText value text

theorem keyOf?_eq_some_iff {name text : String} {object value : Json} :
    keyOf? name object = some (text, value) ↔
      object.get? name = some value ∧ KeyText value text := by
  rw [keyOf?, Option.bind_eq_bind, Option.bind_eq_some_iff]
  constructor
  · rintro ⟨found, hfound, hkey⟩
    obtain ⟨own, htext, hkey⟩ := Option.bind_eq_some_iff.mp hkey
    obtain ⟨rfl, rfl⟩ := Prod.mk.inj (Option.some.inj hkey)
    exact ⟨hfound, keyText?_eq_some_iff.mp htext⟩
  · rintro ⟨hvalue, htext⟩
    exact ⟨value, hvalue, by rw [keyText?_eq_some_iff.mpr htext]; rfl⟩

theorem fst_keyOf?_eq_some_iff {name text : String} {object : Json} :
    (keyOf? name object).map Prod.fst = some text ↔ HasKey name object text := by
  rw [Option.map_eq_some_iff]
  constructor
  · rintro ⟨⟨own, value⟩, hkey, rfl⟩
    exact ⟨value, keyOf?_eq_some_iff.mp hkey⟩
  · rintro ⟨value, hkey⟩
    exact ⟨(text, value), keyOf?_eq_some_iff.mpr hkey, rfl⟩

/-- A null key is as good as none. -/
theorem keyOf?_eq_none_iff {name : String} {object : Json} :
    keyOf? name object = none ↔ object.getD name = .null := by
  rw [keyOf?, Json.getD, Option.bind_eq_bind]
  cases object.get? name with
  | none => simp
  | some value =>
      rw [Option.bind_some, Option.getD_some, ← keyText?_eq_none_iff]
      cases keyText? value <;> simp

/-! ### The keys a batch is for -/

/-- The keys under a name of the objects that some pointers lead to, with their texts. -/
inductive KeysAt (data : Json) (name : String) : List Pointer → List (String × Json) → Prop
  | nil : KeysAt data name [] []
  | keyed {parent : Pointer} {rest : List Pointer} {keys : List (String × Json)}
      {object value : Json} {text : String} :
      data.resolve? parent = some object → object.get? name = some value → KeyText value text →
        KeysAt data name rest keys → KeysAt data name (parent :: rest) ((text, value) :: keys)
  | keyless {parent : Pointer} {rest : List Pointer} {keys : List (String × Json)} :
      (∀ object, data.resolve? parent = some object → object.getD name = .null) →
        KeysAt data name rest keys → KeysAt data name (parent :: rest) keys

/-- One value for each text among some keys, in order of first appearance. -/
structure ScopeOf (keys : List (String × Json)) (scope : List Json) : Prop where
  texts : List.Forall₂ KeyText scope (keys.map Prod.fst).eraseDups
  /-- The value for a text is that of the first key that has it. -/
  first : ∀ value ∈ scope, ∃ text, keys.find? (fun key => key.1 = text) = some (text, value)

/-- The keys of the parents of a boundary, with their texts. -/
def parentKeys (data : Json) (boundary : Located) (parentKey : Column) :
    List (String × Json) :=
  boundary.objects.filterMap fun parent =>
    (data.resolve? parent).bind (keyOf? parentKey.fieldName)

section Scope

variable {data : Json} {boundary : Located} {thisKey parentKey : Column}

theorem keysAt_parentKeys :
    KeysAt data parentKey.fieldName boundary.objects (parentKeys data boundary parentKey) := by
  rw [parentKeys]
  induction boundary.objects with
  | nil => exact .nil
  | cons parent rest ih =>
      rw [List.filterMap_cons]
      cases hkey : (data.resolve? parent).bind (keyOf? parentKey.fieldName) with
      | none =>
          refine .keyless (fun object hobject => ?_) ih
          rw [hobject, Option.bind_some] at hkey
          exact keyOf?_eq_none_iff.mp hkey
      | some key =>
          obtain ⟨object, hobject, hown⟩ := Option.bind_eq_some_iff.mp hkey
          obtain ⟨hvalue, htext⟩ := keyOf?_eq_some_iff.mp hown
          exact .keyed hobject hvalue htext ih

theorem keyText?_of_mem_parentKeys {key : String × Json}
    (h : key ∈ parentKeys data boundary parentKey) : keyText? key.2 = some key.1 := by
  obtain ⟨parent, -, hfound⟩ := List.mem_filterMap.mp h
  obtain ⟨object, -, hobject⟩ := Option.bind_eq_some_iff.mp hfound
  exact keyText?_eq_some_iff.mpr (keyOf?_eq_some_iff.mp hobject).2

theorem batchScope_eq (hkeys : boundary.table.info.batchKeys? = some (thisKey, parentKey)) :
    batchScope data boundary =
      (Assoc.distinctBy Prod.fst (parentKeys data boundary parentKey)).map Prod.snd := by
  simp only [batchScope, hkeys, parentKeys]

theorem scopeOf_batchScope
    (hkeys : boundary.table.info.batchKeys? = some (thisKey, parentKey)) :
    ScopeOf (parentKeys data boundary parentKey) (batchScope data boundary) := by
  rw [batchScope_eq hkeys]
  constructor
  · have htexts : ((parentKeys data boundary parentKey).map Prod.fst).eraseDups =
        (Assoc.distinctBy Prod.fst (parentKeys data boundary parentKey)).map Prod.fst := by
      simp [Assoc.distinctBy, Assoc.map_distinctByFrom]
    rw [htexts, List.forall₂_map_left_iff, List.forall₂_map_right_iff, List.forall₂_same]
    intro key hkey
    exact keyText?_eq_some_iff.mp
      (keyText?_of_mem_parentKeys (Assoc.mem_of_mem_distinctBy hkey))
  · intro value hvalue
    obtain ⟨⟨text, found⟩, hkey, rfl⟩ := List.mem_map.mp hvalue
    exact ⟨text, Assoc.find?_of_mem_distinctByFrom hkey⟩

end Scope

/-! ### The children of a parent -/

/-- A parent and a child with keys of one text. -/
def SameKey (thisKey parentKey : Column) (parent child : Json) : Prop :=
  ∃ text, HasKey parentKey.fieldName parent text ∧ HasKey thisKey.fieldName child text

section Children

variable {thisKey parentKey : Column} {parent child : Json}

theorem sameKey_iff :
    SameKey thisKey parentKey parent child ↔
      (keyOf? parentKey.fieldName parent).isSome ∧
        (keyOf? thisKey.fieldName child).map Prod.fst =
          (keyOf? parentKey.fieldName parent).map Prod.fst := by
  simp only [SameKey, ← fst_keyOf?_eq_some_iff]
  cases keyOf? parentKey.fieldName parent <;> simp

instance : Decidable (SameKey thisKey parentKey parent child) :=
  decidable_of_iff _ sameKey_iff.symm

/-- The children that match a parent: those whose key has the text of the parent's. -/
def matching (thisKey parentKey : Column) (children : List Json) (parent : Json) : List Json :=
  children.filter fun child => SameKey thisKey parentKey parent child

theorem matching_of_keyOf? {key : String × Json}
    (hkey : keyOf? parentKey.fieldName parent = some key) (children : List Json) :
    matching thisKey parentKey children parent =
      children.filter fun child =>
        (keyOf? thisKey.fieldName child).map Prod.fst = some key.1 := by
  apply List.filter_congr
  intro child _
  rw [decide_eq_decide, sameKey_iff, hkey]
  simp

/-- A parent whose key is null or missing is matched with nothing. -/
theorem matching_of_keyless (hkey : parent.getD parentKey.fieldName = .null)
    (children : List Json) : matching thisKey parentKey children parent = [] := by
  simp [matching, sameKey_iff, keyOf?_eq_none_iff.mpr hkey]

end Children

end JoinPlan.Plan
