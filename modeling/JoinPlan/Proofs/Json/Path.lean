import JoinPlan.Json.Pointer
import JoinPlan.Proofs.Assoc
import JoinPlan.Proofs.Json.Spelling
import Mathlib.Data.List.Infix

/-!
# Changing a value in one place

A change at a path is seen at and below the path, and nowhere else: what lies apart is
the same value, and what contains the place keeps its outline, the list or object that it
is.  Changes at paths apart from each other can be made in either order.
-/

namespace JoinPlan.Json

/-! ### Indexes -/

theorem digitValue_lt {c : Char} (hc : c.isDigit = true) : Text.digitValue c < 10 := by
  simp only [Char.isDigit, Bool.and_eq_true, decide_eq_true_eq] at hc
  have hle : c.toNat ≤ '9'.toNat := hc.2
  have hnine : '9'.toNat = '0'.toNat + 9 := rfl
  simp only [Text.digitValue]
  omega

theorem digitChar_digitValue {c : Char} (hc : c.isDigit = true) :
    (Text.digitValue c).digitChar = c := by
  have hzero : '0'.toNat ≤ c.toNat := by
    simp only [Char.isDigit, Bool.and_eq_true, decide_eq_true_eq] at hc
    exact hc.1
  have hdigits : ∀ n ∈ List.range 10, n.digitChar = Char.ofNat ('0'.toNat + n) := by decide
  rw [hdigits _ (List.mem_range.mpr (digitValue_lt hc)), Text.digitValue,
    Nat.add_sub_cancel' hzero, Char.ofNat_toNat]

theorem toDigits_ofDigits_of_pos {before : Nat} {digits : List Char}
    (hdigits : ∀ c ∈ digits, c.isDigit = true) (hpos : 0 < before) :
    Nat.toDigits 10 (Text.ofDigits before digits) = Nat.toDigits 10 before ++ digits := by
  induction digits generalizing before with
  | nil => simp [Text.ofDigits]
  | cons c rest ih =>
      rw [List.forall_mem_cons] at hdigits
      have hlt := digitValue_lt hdigits.1
      have hdiv : (before * 10 + Text.digitValue c) / 10 = before := by omega
      have hmod : (before * 10 + Text.digitValue c) % 10 = Text.digitValue c := by omega
      have hnext : Nat.toDigits 10 (before * 10 + Text.digitValue c) =
          Nat.toDigits 10 before ++ [c] := by
        rw [Nat.toDigits_of_base_le (by decide) (by omega), hdiv, hmod,
          digitChar_digitValue hdigits.1]
      have hstep : Text.ofDigits before (c :: rest) =
          Text.ofDigits (before * 10 + Text.digitValue c) rest := rfl
      rw [hstep, ih hdigits.2 (by omega), hnext, List.append_assoc, List.singleton_append]

theorem toDigits_ofDigits {digits : List Char} (hwhole : IsWhole digits) :
    Nat.toDigits 10 (Text.ofDigits 0 digits) = digits := by
  cases digits with
  | nil => exact absurd rfl hwhole.nonempty
  | cons c rest =>
      have hc : c.isDigit = true := hwhole.digit c List.mem_cons_self
      have hfirst : Text.ofDigits 0 (c :: rest) = Text.ofDigits (Text.digitValue c) rest := by
        simp [Text.ofDigits]
      by_cases hzero : c = '0'
      · have hlength := hwhole.no_leading_zero (by simp [hzero])
        have hrest : rest = [] := List.length_eq_zero_iff.mp (by simpa using hlength)
        rw [hzero, hrest]
        rfl
      · have hpos : 0 < Text.digitValue c := by
          apply Nat.pos_of_ne_zero
          intro hvalue
          have hchar := digitChar_digitValue hc
          rw [hvalue] at hchar
          exact hzero hchar.symm
        rw [hfirst, toDigits_ofDigits_of_pos
          (fun d hd => hwhole.digit d (List.mem_cons_of_mem _ hd)) hpos,
          Nat.toDigits_of_lt_base (digitValue_lt hc), digitChar_digitValue hc,
          List.singleton_append]

theorem index?_eq_some {token : String} {index : Nat} (h : index? token = some index) :
    token = indexToken index := by
  simp only [index?] at h
  split at h
  · contradiction
  · rename_i hdigits
    split at h
    · contradiction
    · rename_i hzero
      obtain rfl := Option.some.inj h
      simp only [Bool.or_eq_true, List.isEmpty_iff, Bool.not_eq_true', not_or,
        Bool.not_eq_false, List.all_eq_true] at hdigits
      have hwhole : IsWhole token.toList :=
        ⟨⟨hdigits.1, hdigits.2⟩, fun hhead => by
          by_contra hlength
          exact hzero (by simp [hhead, hlength])⟩
      rw [indexToken, toDigits_ofDigits hwhole, String.ofList_toList]

@[simp]
theorem index?_indexToken (index : Nat) : index? (indexToken index) = some index := by
  have hwhole := isWhole_toDigits index
  have hdigits : (Nat.toDigits 10 index).all Char.isDigit = true :=
    List.all_eq_true.mpr hwhole.digit
  have hempty : (Nat.toDigits 10 index).isEmpty = false :=
    List.isEmpty_eq_false_iff.mpr hwhole.nonempty
  have hzero : ((Nat.toDigits 10 index).head? == some '0' &&
      (Nat.toDigits 10 index).length != 1) = false := by
    apply Bool.eq_false_iff.mpr
    intro hboth
    simp only [Bool.and_eq_true, beq_iff_eq, bne_iff_ne] at hboth
    exact hboth.2 (hwhole.no_leading_zero hboth.1)
  simp only [index?, indexToken, String.toList_ofList, hdigits, hempty, hzero,
    Text.ofDigits_toDigits]
  rfl

theorem indexToken_injective : Function.Injective indexToken := by
  intro first second heq
  have hindex := congrArg index? heq
  rw [index?_indexToken, index?_indexToken] at hindex
  exact Option.some.inj hindex

/-! ### One token -/

section Child

variable {value child other : Json} {token another : String}

theorem child?_setChild_self (child : Json) (h : (value.child? token).isSome) :
    (value.setChild token child).child? token = some child := by
  cases value with
  | object members => simp [setChild, child?, Assoc.get?_put]
  | array items =>
      simp only [child?] at h ⊢
      cases hindex : index? token with
      | none => simp [hindex] at h
      | some index =>
          rw [hindex] at h
          have hlt : index < items.length := by simpa using h
          simp [setChild, hindex, hlt]
  | null | bool | number | string => simp [child?] at h

theorem child?_setChild_of_ne (hne : token ≠ another) :
    (value.setChild token child).child? another = value.child? another := by
  cases value with
  | object members => simp [setChild, child?, Assoc.get?_put, hne]
  | array items =>
      simp only [setChild]
      cases hindex : index? token with
      | none => rfl
      | some index =>
          simp only [child?]
          cases hother : index? another with
          | none => rfl
          | some place =>
              have hplaces : index ≠ place := by
                rintro rfl
                exact hne ((index?_eq_some hindex).trans (index?_eq_some hother).symm)
              simp [hplaces]
  | null | bool | number | string => rfl

theorem setChild_setChild : (value.setChild token child).setChild token other =
    value.setChild token other := by
  cases value with
  | object members => simp [setChild, Assoc.put_put]
  | array items =>
      cases hindex : index? token with
      | none => simp [setChild, hindex]
      | some index => simp [setChild, hindex]
  | null | bool | number | string => rfl

theorem setChild_comm (hne : token ≠ another) (htoken : (value.child? token).isSome)
    (hanother : (value.child? another).isSome) :
    (value.setChild token child).setChild another other =
      (value.setChild another other).setChild token child := by
  cases value with
  | object members =>
      simp only [setChild]
      rw [Assoc.put_comm (Ne.symm hne) _ _ hanother htoken]
  | array items =>
      cases hindex : index? token with
      | none => cases hother : index? another <;> simp [setChild, hindex, hother]
      | some index =>
          cases hother : index? another with
          | none => simp [setChild, hindex, hother]
          | some place =>
              have hplaces : index ≠ place := by
                rintro rfl
                exact hne ((index?_eq_some hindex).trans (index?_eq_some hother).symm)
              simp [setChild, hindex, hother, List.set_comm _ _ hplaces]
  | null | bool | number | string => rfl

end Child

/-! ### Paths -/

/-- Neither path leads through the other. -/
def Apart (first second : Path) : Prop := ¬ first <+: second ∧ ¬ second <+: first

theorem Apart.symm {first second : Path} (h : Apart first second) : Apart second first :=
  ⟨h.2, h.1⟩

theorem Apart.append {first second : Path} (h : Apart first second) (rest others : Path) :
    Apart (first ++ rest) (second ++ others) := by
  constructor
  · intro hstart
    rcases List.prefix_or_prefix_of_prefix ((List.prefix_append first rest).trans hstart)
      (List.prefix_append second others) with hfirst | hsecond
    · exact h.1 hfirst
    · exact h.2 hsecond
  · intro hstart
    rcases List.prefix_or_prefix_of_prefix ((List.prefix_append second others).trans hstart)
      (List.prefix_append first rest) with hsecond | hfirst
    · exact h.2 hsecond
    · exact h.1 hfirst

theorem Apart.of_starts {first second longer other : Path} (h : Apart first second)
    (hfirst : first <+: longer) (hsecond : second <+: other) : Apart longer other := by
  obtain ⟨rest, rfl⟩ := hfirst
  obtain ⟨others, rfl⟩ := hsecond
  exact h.append rest others

theorem apart_cons_of_ne {token another : String} (hne : token ≠ another) (rest others : Path) :
    Apart (token :: rest) (another :: others) := by
  constructor
  · intro hstart
    exact hne (List.cons_prefix_cons.mp hstart).1
  · intro hstart
    exact hne (List.cons_prefix_cons.mp hstart).1.symm

theorem apart_cons_iff {token : String} {rest others : Path} :
    Apart (token :: rest) (token :: others) ↔ Apart rest others := by
  simp [Apart, List.cons_prefix_cons]

theorem apart_append_iff (path : Path) {rest others : Path} :
    Apart (path ++ rest) (path ++ others) ↔ Apart rest others := by
  induction path with
  | nil => rfl
  | cons token path ih =>
      rw [List.cons_append, List.cons_append, apart_cons_iff, ih]

theorem Apart.not_both_start {first second path : Path} (h : Apart first second)
    (hfirst : first <+: path) (hsecond : second <+: path) : False :=
  (List.prefix_or_prefix_of_prefix hfirst hsecond).elim h.1 h.2

/-- The path does not lead on from one of the places. -/
def Outside (places : List Path) (path : Path) : Prop :=
  ∀ place ∈ places, ∀ token rest, path ≠ place ++ token :: rest

theorem Outside.not_starts {places : List Path} {path place more : Path} (h : Outside places path)
    (hplace : place ∈ places) (hmore : more ≠ []) : ¬ place ++ more <+: path := by
  rintro ⟨rest, rfl⟩
  obtain ⟨token, others, rfl⟩ := List.exists_cons_of_ne_nil hmore
  exact h place hplace token (others ++ rest) (by simp)

theorem outside_of_length_le {places : List Path} {path : Path}
    (h : ∀ place ∈ places, path.length ≤ place.length) : Outside places path := by
  rintro place hplace token rest rfl
  have hlength := h place hplace
  rw [List.length_append, List.length_cons] at hlength
  omega

section Paths

variable {value : Json} {change changeOther : Json → Json} {path other rest : Path}

theorem at?_append (value : Json) (path rest : Path) :
    value.at? (path ++ rest) = (value.at? path).bind fun found => found.at? rest := by
  induction path generalizing value with
  | nil => rfl
  | cons token path ih =>
      rw [List.cons_append, at?, at?, Option.bind_assoc]
      congr 1
      funext child
      exact ih child

theorem at?_singleton (value : Json) (token : String) : value.at? [token] = value.child? token := by
  rw [at?]
  cases value.child? token <;> rfl

/-- One step down the path of a change, the change is that of the child. -/
theorem child?_modifyAt_cons (value : Json) (change : Json → Json) (token : String)
    (path : Path) :
    (value.modifyAt change (token :: path)).child? token =
      (value.child? token).map fun child => child.modifyAt change path := by
  rw [modifyAt]
  cases hchild : value.child? token with
  | none => exact hchild
  | some child => exact child?_setChild_self _ (Option.isSome_of_eq_some hchild)

/-- Any other step leads past the change. -/
theorem child?_modifyAt_of_ne {token another : String} (h : token ≠ another) :
    (value.modifyAt change (token :: path)).child? another = value.child? another := by
  rw [modifyAt]
  cases value.child? token with
  | none => rfl
  | some child => exact child?_setChild_of_ne h

/-- At and below the path the change is seen. -/
theorem at?_modifyAt_append (value : Json) (change : Json → Json) (path rest : Path) :
    (value.modifyAt change path).at? (path ++ rest) =
      (value.at? path).bind fun found => (change found).at? rest := by
  induction path generalizing value with
  | nil => rfl
  | cons token path ih =>
      rw [List.cons_append, at?, at?, child?_modifyAt_cons, Option.bind_map, Option.bind_assoc]
      congr 1
      funext child
      exact ih child

theorem at?_modifyAt_self (value : Json) (change : Json → Json) (path : Path) :
    (value.modifyAt change path).at? path = (value.at? path).map change := by
  have happend := at?_modifyAt_append value change path []
  rw [List.append_nil] at happend
  rw [happend]
  cases value.at? path <;> rfl

/-- Above the path the change is seen as a change below. -/
theorem at?_modifyAt_prefix (value : Json) (change : Json → Json) (path rest : Path) :
    (value.modifyAt change (path ++ rest)).at? path =
      (value.at? path).map fun found => found.modifyAt change rest := by
  induction path generalizing value with
  | nil => rfl
  | cons token path ih =>
      rw [List.cons_append, at?, at?, child?_modifyAt_cons, Option.bind_map, Option.map_bind]
      congr 1
      funext child
      exact ih child

theorem at?_modifyAt_of_apart (h : Apart path other) :
    (value.modifyAt change path).at? other = value.at? other := by
  induction path generalizing value other with
  | nil => exact absurd (List.nil_prefix) h.1
  | cons token path ih =>
      cases other with
      | nil => exact absurd (List.nil_prefix) h.2
      | cons another other =>
          by_cases heq : token = another
          · subst heq
            rw [at?, at?, child?_modifyAt_cons, Option.bind_map]
            congr 1
            funext child
            exact ih (apart_cons_iff.mp h)
          · rw [at?, at?, child?_modifyAt_of_ne heq]

/-- A change at a longer path is a change of the value on the way. -/
theorem modifyAt_append (value : Json) (change : Json → Json) (path rest : Path) :
    value.modifyAt change (path ++ rest) =
      value.modifyAt (fun found => found.modifyAt change rest) path := by
  induction path generalizing value with
  | nil => rfl
  | cons token path ih =>
      rw [List.cons_append, modifyAt, modifyAt]
      cases value.child? token with
      | none => rfl
      | some child => exact congrArg (value.setChild token) (ih child)

theorem modifyAt_congr {found : Json} (hfound : value.at? path = some found)
    (h : change found = changeOther found) :
    value.modifyAt change path = value.modifyAt changeOther path := by
  induction path generalizing value with
  | nil =>
      obtain rfl := Option.some.inj hfound
      exact h
  | cons token path ih =>
      rw [modifyAt, modifyAt]
      rw [at?] at hfound
      cases hchild : value.child? token with
      | none => rfl
      | some child =>
          rw [hchild] at hfound
          exact congrArg (value.setChild token) (ih hfound)

theorem modifyAt_modifyAt (value : Json) (change changeOther : Json → Json) (path : Path) :
    (value.modifyAt change path).modifyAt changeOther path =
      value.modifyAt (fun found => changeOther (change found)) path := by
  induction path generalizing value with
  | nil => rfl
  | cons token path ih =>
      rw [modifyAt, modifyAt]
      cases hchild : value.child? token with
      | none => simp [modifyAt, hchild]
      | some child =>
          have hset := child?_setChild_self (child.modifyAt change path)
            (Option.isSome_of_eq_some hchild)
          simp only [modifyAt, hset, hchild]
          rw [setChild_setChild, ih]

theorem modifyAt_comm (h : Apart path other) :
    (value.modifyAt change path).modifyAt changeOther other =
      (value.modifyAt changeOther other).modifyAt change path := by
  induction path generalizing value other with
  | nil => exact absurd (List.nil_prefix) h.1
  | cons token path ih =>
      cases other with
      | nil => exact absurd (List.nil_prefix) h.2
      | cons another other =>
          by_cases heq : token = another
          · -- the two changes are made below the same child
            subst heq
            have hsplit (inner : Path) (f : Json → Json) (found : Json) :
                found.modifyAt f (token :: inner) =
                  found.modifyAt (fun child => child.modifyAt f inner) [token] :=
              modifyAt_append found f [token] inner
            rw [hsplit path, hsplit other, hsplit other, hsplit path, modifyAt_modifyAt,
              modifyAt_modifyAt]
            congr 1
            funext child
            exact ih (apart_cons_iff.mp h)
          · simp only [modifyAt]
            cases hchild : value.child? token with
            | none =>
                cases hother : value.child? another with
                | none => simp [hchild]
                | some child => simp [child?_setChild_of_ne (Ne.symm heq), hchild]
            | some child =>
                cases hother : value.child? another with
                | none => simp [hother, child?_setChild_of_ne heq, hchild]
                | some second =>
                    simp only [child?_setChild_of_ne heq, child?_setChild_of_ne (Ne.symm heq),
                      hchild, hother]
                    exact setChild_comm heq (by simp [hchild]) (by simp [hother])

end Paths

/-! ### Outlines -/

/-- What a value is, without the parts of a list or an object. -/
def outline : Json → Json
  | .array _ => .array []
  | .object _ => .object []
  | value => value

/-- Two values have the same outline at a path. -/
def SameOutline (first second : Json) (path : Path) : Prop :=
  (first.at? path).map outline = (second.at? path).map outline

theorem outline_setChild (value : Json) (token : String) (child : Json) :
    (value.setChild token child).outline = value.outline := by
  cases value with
  | array items =>
      rw [setChild]
      split <;> rfl
  | object | null | bool | number | string => rfl

theorem outline_modifyAt_cons (value : Json) (change : Json → Json) (token : String)
    (rest : Path) : (value.modifyAt change (token :: rest)).outline = value.outline := by
  rw [modifyAt]
  split
  · exact outline_setChild _ _ _
  · rfl

theorem exists_object_of_isObject {value : Json} (h : value.isObject = true) :
    ∃ members, value = .object members := by
  cases value with
  | object members => exact ⟨members, rfl⟩
  | array | null | bool | number | string => simp [isObject] at h

theorem exists_object_of_any_isObject {found : Option Json} (h : found.any isObject = true) :
    ∃ members, found = some (.object members) := by
  cases found with
  | none => simp at h
  | some value =>
      obtain ⟨members, rfl⟩ := exists_object_of_isObject (by simpa using h)
      exact ⟨members, rfl⟩

theorem isObject_eq_of_outline_eq {first second : Json} (h : first.outline = second.outline) :
    first.isObject = second.isObject := by
  cases first <;> cases second <;> simp_all [outline, isObject]

section SameOutline

variable {first second third : Json} {path : Path}

theorem SameOutline.symm (h : SameOutline first second path) : SameOutline second first path :=
  Eq.symm h

theorem SameOutline.trans (h : SameOutline first second path)
    (hnext : SameOutline second third path) : SameOutline first third path :=
  Eq.trans h hnext

theorem SameOutline.isSome (h : SameOutline first second path) :
    (first.at? path).isSome = (second.at? path).isSome := by
  have hsome := congrArg Option.isSome h
  rwa [Option.isSome_map, Option.isSome_map] at hsome

theorem SameOutline.any_isObject (h : SameOutline first second path) :
    (first.at? path).any isObject = (second.at? path).any isObject := by
  have hany : ∀ found : Option Json,
      found.any isObject = (found.map outline).any isObject := by
    intro found
    cases found with
    | none => rfl
    | some value => cases value <;> rfl
  rw [hany, hany (second.at? path), h]

end SameOutline

end JoinPlan.Json
