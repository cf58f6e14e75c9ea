import JoinPlan.Proofs.Data.Places

/-!
# Putting values into parents

Splicing goes through the parents one after the other, each time with the data as the
earlier parents left it.  When no parent lies inside another, it comes to the same as
computing the values of all parents from the data as it was and putting them in
afterwards, and only the field of the parents is written.
-/

namespace JoinPlan.Plan

open Json (Path Apart)
open Json.Pointer (ofPath)

/-! ### One member of an object -/

/-- Gives a member to an object. -/
def withMember (name : String) (value : Json) : Json → Json
  | .object members => .object (Assoc.insert name value members)
  | other => other

/-- Takes a member from an object. -/
def withoutMember (name : String) : Json → Json
  | .object members => .object (Assoc.erase name members)
  | other => other

section Member

variable {name : String} {value data : Json} {path other : Path}

theorem outline_withMember (name : String) (value object : Json) :
    (withMember name value object).outline = object.outline := by
  cases object <;> rfl

theorem child?_withMember_self (name : String) (value : Json) (members : Object) :
    (withMember name value (.object members)).child? name = some value := by
  rw [withMember, Json.child?, Assoc.get?_insert, if_pos rfl]

theorem child?_withMember_of_ne {token : String} (hne : name ≠ token) (object : Json) :
    (withMember name value object).child? token = object.child? token := by
  cases object with
  | object members => rw [withMember, Json.child?, Json.child?, Assoc.get?_insert, if_neg hne]
  | array | null | bool | number | string => rfl

theorem withoutMember_withMember (name : String) (value object : Json) :
    withoutMember name (withMember name value object) = withoutMember name object := by
  cases object with
  | object members => rw [withMember, withoutMember, withoutMember, Assoc.erase_insert]
  | array | null | bool | number | string => rfl

theorem at?_modifyAt_withMember_of_apart (h : Apart (path ++ [name]) other) :
    (data.modifyAt (withMember name value) path).at? other = data.at? other := by
  by_cases hbelow : path <+: other
  · -- the other path goes on with another member
    obtain ⟨rest, rfl⟩ := hbelow
    rw [Json.apart_append_iff] at h
    rw [Json.at?_modifyAt_append, Json.at?_append]
    congr 1
    funext object
    cases rest with
    | nil => exact absurd List.nil_prefix h.2
    | cons token rest =>
        have hne : name ≠ token := by
          rintro rfl
          exact h.1 (List.cons_prefix_cons.mpr ⟨rfl, List.nil_prefix⟩)
        rw [Json.at?, Json.at?, child?_withMember_of_ne hne]
  · have habove : ¬ other <+: path := fun hstart =>
      h.2 (hstart.trans (List.prefix_append _ _))
    exact Json.at?_modifyAt_of_apart ⟨hbelow, habove⟩

theorem outline_at?_modifyAt_withMember (h : ¬ path ++ [name] <+: other) :
    Json.SameOutline (data.modifyAt (withMember name value) path) data other := by
  by_cases hapart : other <+: path ++ [name]
  · rcases List.prefix_concat_iff.mp hapart with heq | hstart
    · exact absurd (heq ▸ List.prefix_rfl) h
    · obtain ⟨rest, rfl⟩ := hstart
      rw [Json.SameOutline, Json.at?_modifyAt_prefix, Option.map_map]
      congr 1
      funext found
      cases rest with
      | nil => exact outline_withMember _ _ _
      | cons token rest => exact Json.outline_modifyAt_cons _ _ _ _
  · rw [Json.SameOutline, at?_modifyAt_withMember_of_apart ⟨h, hapart⟩]

end Member

/-! ### Members of several objects -/

/-- Gives a member to the objects at some paths. -/
def putAll (name : String) (values : List (Path × Json)) (data : Json) : Json :=
  values.foldl (fun data entry => data.modifyAt (withMember name entry.2) entry.1) data

/-- Takes a member from the objects at some paths. -/
def eraseAll (name : String) (paths : List Path) (data : Json) : Json :=
  paths.foldl (fun data path => data.modifyAt (withoutMember name) path) data

section Members

variable {name : String} {values : List (Path × Json)} {data : Json} {other : Path}

theorem at?_putAll_of_apart (h : ∀ entry ∈ values, Apart (entry.1 ++ [name]) other) :
    (putAll name values data).at? other = data.at? other := by
  induction values generalizing data with
  | nil => rfl
  | cons entry rest ih =>
      rw [List.forall_mem_cons] at h
      calc (putAll name rest (data.modifyAt (withMember name entry.2) entry.1)).at? other
          = (data.modifyAt (withMember name entry.2) entry.1).at? other := ih h.2
        _ = data.at? other := at?_modifyAt_withMember_of_apart h.1

theorem outline_at?_putAll (h : ∀ entry ∈ values, ¬ entry.1 ++ [name] <+: other) :
    Json.SameOutline (putAll name values data) data other := by
  induction values generalizing data with
  | nil => rfl
  | cons entry rest ih =>
      rw [List.forall_mem_cons] at h
      exact (ih h.2).trans (outline_at?_modifyAt_withMember h.1)

/-- A parent has its value afterwards and is otherwise as it was. -/
theorem at?_putAll_self (hapart : (values.map Prod.fst).Pairwise Apart)
    {entry : Path × Json} (hentry : entry ∈ values) :
    (putAll name values data).at? entry.1 =
      (data.at? entry.1).map (withMember name entry.2) := by
  induction values generalizing data with
  | nil => simp at hentry
  | cons first rest ih =>
      rw [List.map_cons, List.pairwise_cons] at hapart
      have hothers : ∀ later ∈ rest, Apart first.1 later.1 := fun later hlater =>
        hapart.1 _ (List.mem_map_of_mem hlater)
      change (putAll name rest (data.modifyAt (withMember name first.2) first.1)).at? entry.1 = _
      rcases List.mem_cons.mp hentry with rfl | hrest
      · rw [at?_putAll_of_apart, Json.at?_modifyAt_self]
        intro later hlater
        simpa using (hothers later hlater).symm.append [name] []
      · rw [ih hapart.2 hrest, Json.at?_modifyAt_of_apart (hothers entry hrest)]

theorem eraseAll_modifyAt {paths : List Path} (hapart : paths.Pairwise Apart) {path : Path}
    (hpath : path ∈ paths) (value : Json) :
    eraseAll name paths (data.modifyAt (withMember name value) path) =
      eraseAll name paths data := by
  induction paths generalizing data with
  | nil => simp at hpath
  | cons first rest ih =>
      rw [List.pairwise_cons] at hapart
      simp only [eraseAll, List.foldl_cons]
      by_cases hfirst : first = path
      · subst hfirst
        rw [Json.modifyAt_modifyAt]
        simp only [withoutMember_withMember]
      · have hrest : path ∈ rest := (List.mem_cons.mp hpath).resolve_left (Ne.symm hfirst)
        rw [Json.modifyAt_comm (hapart.1 path hrest).symm]
        exact ih hapart.2 hrest

/-- Nothing but the member is changed. -/
theorem eraseAll_putAll {paths : List Path} (hapart : paths.Pairwise Apart)
    (hvalues : ∀ entry ∈ values, entry.1 ∈ paths) :
    eraseAll name paths (putAll name values data) = eraseAll name paths data := by
  induction values generalizing data with
  | nil => rfl
  | cons entry rest ih =>
      rw [List.forall_mem_cons] at hvalues
      exact (ih hvalues.2).trans (eraseAll_modifyAt hapart hvalues.1 entry.2)

end Members

/-! ### The values of a batched field -/

/-- The objects among the values at some paths, with their paths. -/
def parentsAt (data : Json) (paths : List Path) : List (Path × Json) :=
  paths.filterMap fun path =>
    ((data.at? path).filter Json.isObject).map fun object => (path, object)

/-- The value of a batched field for one parent. -/
def fieldValue (info : TableInfo) (parentKey : Column) (groups : Groups) (parent : Json) :
    Except RequestError Json :=
  batchValue info
    (((keyOf? parentKey.fieldName parent).bind fun key => Assoc.get? key.1 groups).getD [])

/-- The values of a batched field, with the paths of the parents they are for. -/
def fieldValues (info : TableInfo) (parentKey : Column) (groups : Groups) :
    List (Path × Json) → Except RequestError (List (Path × Json))
  | [] => .ok []
  | parent :: rest => do
      let value ← fieldValue info parentKey groups parent.2
      let values ← fieldValues info parentKey groups rest
      .ok ((parent.1, value) :: values)

/-- The paths of the objects put into some parents. -/
def putPaths (info : TableInfo) (values : List (Path × Json)) : List Path :=
  values.flatMap fun entry =>
    (info.places entry.2).map fun place => entry.1 ++ info.fieldName :: place

section Splice

variable {info : TableInfo} {parentKey : Column} {groups : Groups}

theorem mem_parentsAt {data : Json} {paths : List Path} {parent : Path × Json} :
    parent ∈ parentsAt data paths ↔
      parent.1 ∈ paths ∧ data.at? parent.1 = some parent.2 ∧ parent.2.isObject = true := by
  obtain ⟨path, object⟩ := parent
  simp only [parentsAt, List.mem_filterMap, Option.map_eq_some_iff, Option.filter_eq_some_iff,
    Prod.mk.injEq]
  constructor
  · rintro ⟨other, hother, found, ⟨hfound, hobject⟩, rfl, rfl⟩
    exact ⟨hother, hfound, hobject⟩
  · rintro ⟨hpath, hat, hobject⟩
    exact ⟨path, hpath, object, ⟨hat, hobject⟩, rfl, rfl⟩

theorem parentsAt_congr {first second : Json} {paths : List Path}
    (h : ∀ path ∈ paths, first.at? path = second.at? path) :
    parentsAt first paths = parentsAt second paths := by
  apply List.filterMap_congr
  intro path hpath
  rw [h path hpath]

theorem fst_parentsAt (data : Json) (paths : List Path) :
    (parentsAt data paths).map Prod.fst =
      paths.filter fun path => (data.at? path).any Json.isObject := by
  rw [parentsAt, List.map_filterMap, ← List.filterMap_eq_filter]
  congr 1
  funext path
  cases hat : data.at? path with
  | none => simp [Option.guard, hat]
  | some found =>
      cases hobject : found.isObject <;> simp [Option.filter, Option.guard, hat, hobject]

/-- The values are for the parents in order, each made from its own parent. -/
theorem forall₂_of_fieldValues {parents values : List (Path × Json)}
    (h : fieldValues info parentKey groups parents = .ok values) :
    List.Forall₂ (fun parent entry => parent.1 = entry.1 ∧
      fieldValue info parentKey groups parent.2 = .ok entry.2) parents values := by
  induction parents generalizing values with
  | nil =>
      obtain rfl := Except.ok.inj h
      exact List.Forall₂.nil
  | cons parent rest ih =>
      rw [fieldValues] at h
      cases hvalue : fieldValue info parentKey groups parent.2 with
      | error error => simp [hvalue, bind, Except.bind] at h
      | ok value =>
          cases hrest : fieldValues info parentKey groups rest with
          | error error => simp [hvalue, hrest, bind, Except.bind] at h
          | ok others =>
              simp only [hvalue, hrest, bind, Except.bind, Except.ok.injEq] at h
              subst h
              exact List.Forall₂.cons ⟨rfl, hvalue⟩ (ih hrest)

theorem exists_of_mem_fieldValues {parents values : List (Path × Json)}
    (h : fieldValues info parentKey groups parents = .ok values) {entry : Path × Json}
    (hentry : entry ∈ values) :
    ∃ parent ∈ parents, parent.1 = entry.1 ∧
      fieldValue info parentKey groups parent.2 = .ok entry.2 := by
  have hvalues := forall₂_of_fieldValues h
  clear h
  induction hvalues with
  | nil => simp at hentry
  | cons hparent _ ih =>
      rcases List.mem_cons.mp hentry with rfl | hrest
      · exact ⟨_, List.mem_cons_self, hparent⟩
      · obtain ⟨later, hlater, hentry⟩ := ih hrest
        exact ⟨later, List.mem_cons_of_mem _ hlater, hentry⟩

theorem exists_of_fieldValues_error {parents : List (Path × Json)} {error : RequestError}
    (h : fieldValues info parentKey groups parents = .error error) :
    ∃ parent ∈ parents, fieldValue info parentKey groups parent.2 = .error error := by
  induction parents with
  | nil => simp [fieldValues] at h
  | cons parent rest ih =>
      rw [fieldValues] at h
      cases hvalue : fieldValue info parentKey groups parent.2 with
      | error found =>
          simp only [hvalue, bind, Except.bind, Except.error.injEq] at h
          exact ⟨parent, List.mem_cons_self, by rw [hvalue, h]⟩
      | ok value =>
          cases hrest : fieldValues info parentKey groups rest with
          | error found =>
              simp only [hvalue, hrest, bind, Except.bind, Except.error.injEq] at h
              obtain ⟨later, hlater, hfails⟩ := ih (h ▸ hrest)
              exact ⟨later, List.mem_cons_of_mem _ hlater, hfails⟩
          | ok others => simp [hvalue, hrest, bind, Except.bind] at h

theorem fst_fieldValues {parents values : List (Path × Json)}
    (h : fieldValues info parentKey groups parents = .ok values) :
    values.map Prod.fst = parents.map Prod.fst := by
  have hvalues := forall₂_of_fieldValues h
  clear h
  induction hvalues with
  | nil => rfl
  | cons hparent _ ih => rw [List.map_cons, List.map_cons, ih, hparent.1]

theorem spliceInto_ofPath (data : Json) (path : Path) :
    spliceInto info parentKey groups data (ofPath path) =
      match (data.at? path).filter Json.isObject with
      | none => .ok (data, [])
      | some object => (fieldValue info parentKey groups object).map fun value =>
          (putAll info.fieldName [(path, value)] data,
            (putPaths info [(path, value)]).map ofPath) := by
  rw [spliceInto, Json.resolve?_ofPath]
  cases hat : data.at? path with
  | none => rfl
  | some found =>
      cases found with
      | object members =>
          have hkept : (some (Json.object members)).filter Json.isObject =
              some (.object members) := rfl
          simp only [hkept]
          change Except.bind (fieldValue info parentKey groups (.object members)) _ = _
          cases fieldValue info parentKey groups (.object members) with
          | error error => rfl
          | ok value =>
              have hdata : data.modify
                  (fun _ => .object (Assoc.insert info.fieldName value members))
                  (ofPath path) = data.modifyAt (withMember info.fieldName value) path := by
                rw [Json.modify_ofPath]
                exact Json.modifyAt_congr hat rfl
              have hvalue : (data.modifyAt (withMember info.fieldName value) path).at?
                  (path ++ [info.fieldName]) = some value := by
                rw [Json.at?_modifyAt_append, hat, Option.bind_some, Json.at?_singleton,
                  child?_withMember_self]
              change Except.ok _ = Except.ok _
              rw [hdata, Json.Pointer.child_ofPath, objectsAt_ofPath, objectPaths, hvalue]
              simp [putPaths, putAll]
      | array | null | bool | number | string => rfl

/-- Splicing puts in the values computed from the data as it was. -/
theorem spliceAll_ofPath {paths : List Path} (hapart : paths.Pairwise Apart) (data : Json) :
    spliceAll info parentKey groups (paths.map ofPath) data =
      (fieldValues info parentKey groups (parentsAt data paths)).map fun values =>
        (putAll info.fieldName values data, (putPaths info values).map ofPath) := by
  induction paths generalizing data with
  | nil => rfl
  | cons path rest ih =>
      rw [List.pairwise_cons] at hapart
      rw [List.map_cons, spliceAll, spliceInto_ofPath, parentsAt, List.filterMap_cons]
      cases (data.at? path).filter Json.isObject with
      | none =>
          change Except.bind (spliceAll info parentKey groups (rest.map ofPath) data) _ = _
          rw [ih hapart.2]
          change _ = (fieldValues info parentKey groups (parentsAt data rest)).map _
          cases fieldValues info parentKey groups (parentsAt data rest) <;> rfl
      | some object =>
          simp only [Option.map_some, fieldValues]
          cases fieldValue info parentKey groups object with
          | error error => rfl
          | ok value =>
              have hsame : parentsAt (putAll info.fieldName [(path, value)] data) rest =
                  parentsAt data rest :=
                parentsAt_congr fun other hother =>
                  Json.at?_modifyAt_of_apart (hapart.1 other hother)
              change Except.bind (spliceAll info parentKey groups (rest.map ofPath)
                (putAll info.fieldName [(path, value)] data)) _ = _
              rw [ih hapart.2, hsame]
              change _ = Except.map _ (Except.bind
                (fieldValues info parentKey groups (parentsAt data rest)) _)
              cases fieldValues info parentKey groups (parentsAt data rest) with
              | error error => rfl
              | ok values =>
                  change Except.ok _ = Except.ok _
                  simp [putAll, putPaths]

end Splice

end JoinPlan.Plan
