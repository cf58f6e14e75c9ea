import JoinPlan.Data.Union
import JoinPlan.Proofs.Assoc
import JoinPlan.Proofs.Plan.Tree
import Mathlib.Data.List.Induction

/-!
# Folding what is selected for concrete types

The properties marked with a type are folded into the ones without one mark after the
other, in place.  What the object holds afterwards is told key by key: nothing under a
marked name, the first value present under the name itself, and under other keys what was
there.  The invariant is on the marks folded so far.
-/

namespace JoinPlan.Plan

/-! ### Marked names -/

/-- A name that is not taken for one with a mark. -/
def Unqualified (name : String) : Prop := '@' ∉ name.toList

instance (name : String) : Decidable (Unqualified name) :=
  inferInstanceAs (Decidable ('@' ∉ name.toList))

/-- The name of a property that is selected for a concrete type, of the type and its own name. -/
def markedName (mark : String × String) : String := mark.2 ++ typeMark (some mark.1)

theorem toList_markedName (mark : String × String) :
    (markedName mark).toList = mark.2.toList ++ '@' :: mark.1.toList := by
  simp [markedName, typeMark]

theorem markedName_ne {name : String} (hname : Unqualified name) (mark : String × String) :
    markedName mark ≠ name := by
  rintro rfl
  apply hname
  simp [toList_markedName]

/-- A name is what stands before the first mark. -/
theorem takeWhile_markedName {mark : String × String} (hname : Unqualified mark.2) :
    (markedName mark).toList.takeWhile (· != '@') = mark.2.toList := by
  have hbefore : ∀ c ∈ mark.2.toList, (c != '@') = true := by
    intro c hc
    rw [bne_iff_ne]
    rintro rfl
    exact hname hc
  rw [toList_markedName, List.takeWhile_append_of_pos hbefore, List.takeWhile_cons_of_neg (by simp),
    List.append_nil]

theorem markedName_inj {first second : String × String} (hfirst : Unqualified first.2)
    (hsecond : Unqualified second.2) : markedName first = markedName second ↔ first = second := by
  refine ⟨fun h => ?_, fun h => h ▸ rfl⟩
  have hlist := congrArg String.toList h
  have hname : first.2.toList = second.2.toList := by
    rw [← takeWhile_markedName hfirst, ← takeWhile_markedName hsecond, h]
  rw [toList_markedName, toList_markedName, hname] at hlist
  have htype := (List.cons.inj (List.append_cancel_left hlist)).2
  exact Prod.ext (String.toList_inj.mp htype) (String.toList_inj.mp hname)

/-! ### The first value present -/

/-- The first of the values that is not null. -/
def firstPresent (values : List Json) : Json :=
  (values.find? fun value => !value.isNull).getD .null

theorem isNull_iff {value : Json} : value.isNull = true ↔ value = .null := by
  cases value <;> simp [Json.isNull]

theorem firstPresent_cons (value : Json) (rest : List Json) :
    firstPresent (value :: rest) = if value.isNull then firstPresent rest else value := by
  cases hnull : value.isNull <;> simp [firstPresent, hnull]

theorem firstPresent_singleton (value : Json) : firstPresent [value] = value := by
  rw [firstPresent_cons]
  split
  · exact (isNull_iff.mp ‹_›).symm
  · rfl

theorem firstPresent_pair (first second : Json) :
    firstPresent [first, second] = if first.isNull then second else first := by
  rw [firstPresent_cons, firstPresent_singleton]

theorem firstPresent_concat (values : List Json) (value : Json) :
    firstPresent (values ++ [value]) =
      if (firstPresent values).isNull then value else firstPresent values := by
  induction values with
  | nil => exact firstPresent_singleton value
  | cons first rest ih =>
      rw [List.cons_append, firstPresent_cons, firstPresent_cons, ih]
      cases hnull : first.isNull <;> simp [hnull]

theorem isNull_firstPresent {values : List Json} :
    (firstPresent values).isNull = true ↔ ∀ value ∈ values, value.isNull = true := by
  induction values with
  | nil => simp [firstPresent, Json.isNull]
  | cons first rest ih =>
      rw [firstPresent_cons, List.forall_mem_cons]
      cases hnull : first.isNull <;> simp [hnull, ih]

theorem firstPresent_mem_or (values : List Json) :
    firstPresent values ∈ values ∨ firstPresent values = .null := by
  rw [firstPresent]
  cases hfind : values.find? fun value => !value.isNull with
  | none => exact .inr rfl
  | some value => exact .inl (List.mem_of_find?_eq_some hfind)

theorem firstPresent_of_rest (value : Json) {rest : List Json}
    (h : ∀ other ∈ rest, other.isNull = true) : firstPresent (value :: rest) = value := by
  rw [firstPresent_cons]
  split
  · rename_i hnull
    rw [isNull_iff.mp hnull]
    exact isNull_iff.mp (isNull_firstPresent.mpr h)
  · rfl

/-! ### One mark -/

section Mark

variable {type name : String} {object : Object}

theorem get?_collapse (hname : Unqualified name) (key : String) :
    Assoc.get? key (collapse type name object) =
      if markedName (type, name) = key then none
      else if name = key then
        some (firstPresent [(Json.object object).getD name,
          (Json.object object).getD (markedName (type, name))])
      else Assoc.get? key object := by
  have hne : markedName (type, name) ≠ name := markedName_ne hname _
  have hkept : Assoc.get? name (Assoc.erase (markedName (type, name)) object) =
      Assoc.get? name object := by
    rw [Assoc.get?_erase, if_neg hne]
  have hmarked : name ++ typeMark (some type) = markedName (type, name) := rfl
  simp only [collapse, hmarked, hkept, firstPresent_pair, Json.getD, Json.get?]
  cases hown : Assoc.get? name object with
  | none => grind [Assoc.get?_insert, Assoc.get?_erase, Json.isNull]
  | some own =>
      cases own <;> grind [Assoc.get?_insert, Assoc.get?_erase, Json.isNull]

theorem increasing_collapse (h : Assoc.Increasing object) :
    Assoc.Increasing (collapse type name object) := by
  have herased := Assoc.increasing_erase (markedName (type, name)) h
  simp only [collapse]
  split
  · exact Assoc.increasing_insert _ _ herased
  · exact Assoc.increasing_insert _ _ herased
  · exact herased

end Mark

/-! ### All marks -/

/-- The marks a table folds, in order: its concrete types with the properties of their
children. -/
def Table.marks (table : Table Node) : List (String × String) :=
  table.typed.flatMap fun bucket =>
    (bucket.2.flatMap Node.propertyNames).map fun name => (bucket.1, name)

def foldMarks (marks : List (String × String)) (object : Object) : Object :=
  marks.foldl (fun object mark => collapse mark.1 mark.2 object) object

/-- The values that a name may stand for: its own, and those under the name with a mark. -/
def candidates (marks : List (String × String)) (object : Object) (name : String) : List Json :=
  (Json.object object).getD name ::
    (marks.filter fun mark => mark.2 = name).map fun mark =>
      (Json.object object).getD (markedName mark)

/-- What stands under a key when the marks were folded. -/
def folded? (marks : List (String × String)) (object : Object) (key : String) : Option Json :=
  if key ∈ marks.map markedName then none
  else if key ∈ marks.map Prod.snd then some (firstPresent (candidates marks object key))
  else Assoc.get? key object

theorem foldl_collapseBucket (typed : List (String × List Node)) (object : Object) :
    typed.foldl collapseBucket object =
      foldMarks (typed.flatMap fun bucket =>
        (bucket.2.flatMap Node.propertyNames).map fun name => (bucket.1, name)) object := by
  induction typed generalizing object with
  | nil => rfl
  | cons bucket rest ih =>
      rw [List.foldl_cons, ih, List.flatMap_cons, foldMarks, foldMarks, List.foldl_append,
        List.foldl_map, collapseBucket]

section Marks

variable {marks : List (String × String)} {object : Object}

theorem increasing_foldMarks (h : Assoc.Increasing object) :
    Assoc.Increasing (foldMarks marks object) := by
  induction marks generalizing object with
  | nil => exact h
  | cons mark rest ih => exact ih (increasing_collapse h)

theorem not_mem_markedNames {name : String} (hname : Unqualified name) :
    name ∉ marks.map markedName := by
  intro h
  obtain ⟨mark, -, heq⟩ := List.mem_map.mp h
  exact markedName_ne hname mark heq

theorem markedName_not_mem_names (hmarks : ∀ mark ∈ marks, Unqualified mark.2)
    (mark : String × String) : markedName mark ∉ marks.map Prod.snd := by
  intro h
  obtain ⟨other, hother, heq⟩ := List.mem_map.mp h
  exact markedName_ne (hmarks other hother) mark heq.symm

theorem mem_candidates {mark : String × String} (h : mark ∈ marks) (object : Object) :
    (Json.object object).getD (markedName mark) ∈ candidates marks object mark.2 := by
  apply List.mem_cons_of_mem
  exact List.mem_map_of_mem (f := fun mark => (Json.object object).getD (markedName mark))
    (List.mem_filter.mpr ⟨h, decide_eq_true rfl⟩)

theorem candidates_of_not_mem {name : String} (h : name ∉ marks.map Prod.snd) :
    candidates marks object name = [(Json.object object).getD name] := by
  have hnone : marks.filter (fun mark => mark.2 = name) = [] := by
    apply List.filter_eq_nil_iff.mpr
    intro mark hmark heq
    exact h (List.mem_map.mpr ⟨mark, hmark, of_decide_eq_true heq⟩)
  rw [candidates, hnone, List.map_nil]

theorem candidates_concat (mark : String × String) (name : String) :
    candidates (marks ++ [mark]) object name =
      if mark.2 = name then
        candidates marks object name ++ [(Json.object object).getD (markedName mark)]
      else candidates marks object name := by
  simp only [candidates, List.filter_append, List.map_append]
  split <;> simp_all

/-- A name stands for the first value present, whether or not it has marks. -/
theorem getD_folded?_name {name : String} (hname : Unqualified name) :
    (folded? marks object name).getD .null = firstPresent (candidates marks object name) := by
  rw [folded?, if_neg (not_mem_markedNames hname)]
  split
  · rfl
  · rename_i hnone
    rw [candidates_of_not_mem hnone, firstPresent_singleton]
    rfl

/-- The value under a mark is taken once. -/
theorem getD_folded?_markedName (hmarks : ∀ mark ∈ marks, Unqualified mark.2)
    {mark : String × String} (hmark : Unqualified mark.2) :
    (folded? marks object (markedName mark)).getD .null =
      if mark ∈ marks then .null else (Json.object object).getD (markedName mark) := by
  have hmem : markedName mark ∈ marks.map markedName ↔ mark ∈ marks := by
    constructor
    · intro h
      obtain ⟨other, hother, heq⟩ := List.mem_map.mp h
      exact (markedName_inj (hmarks other hother) hmark).mp heq ▸ hother
    · exact List.mem_map_of_mem
  rw [folded?, if_neg (markedName_not_mem_names hmarks mark)]
  simp only [hmem]
  split <;> rfl

/-- What the object holds once the marks were folded. -/
theorem get?_foldMarks (hmarks : ∀ mark ∈ marks, Unqualified mark.2) (key : String) :
    Assoc.get? key (foldMarks marks object) = folded? marks object key := by
  induction marks using List.reverseRecOn generalizing key with
  | nil => rfl
  | append_singleton marks mark ih =>
      rw [List.forall_mem_append, List.forall_mem_singleton] at hmarks
      obtain ⟨hbefore, hmark⟩ := hmarks
      have hheld : ∀ key, (Json.object (foldMarks marks object)).getD key =
          (folded? marks object key).getD .null := fun key => by
        rw [Json.getD, Json.get?, ih hbefore]
      have hstep : foldMarks (marks ++ [mark]) object =
          collapse mark.1 mark.2 (foldMarks marks object) := by
        rw [foldMarks, List.foldl_append]
        rfl
      rw [hstep, get?_collapse hmark, hheld, hheld, ih hbefore, firstPresent_pair,
        getD_folded?_name hmark, getD_folded?_markedName hbefore hmark]
      by_cases hown : markedName mark = key
      · have hmem : key ∈ (marks ++ [mark]).map markedName := by simp [hown]
        rw [if_pos hown, folded?, if_pos hmem]
      rw [if_neg hown]
      by_cases hname : mark.2 = key
      · subst hname
        have hmem : mark.2 ∈ (marks ++ [mark]).map Prod.snd := by simp
        rw [if_pos rfl, folded?, if_neg (not_mem_markedNames hmark), if_pos hmem,
          candidates_concat, if_pos rfl, firstPresent_concat]
        split
        · rename_i hnull
          split
          · -- a mark that came before: its value was among the candidates already
            rename_i hrepeated
            have hcandidate := mem_candidates hrepeated object
            rw [isNull_iff.mp (isNull_firstPresent.mp hnull _ hcandidate)]
          · rfl
        · rfl
      · have hmarked : key ∈ (marks ++ [mark]).map markedName ↔ key ∈ marks.map markedName := by
          simp [Ne.symm hown]
        have hnames : key ∈ (marks ++ [mark]).map Prod.snd ↔ key ∈ marks.map Prod.snd := by
          simp [Ne.symm hname]
        simp only [if_neg hname, folded?, candidates_concat, hmarked, hnames]

/-- An object that has no marked property left stays as it is. -/
theorem foldMarks_of_folded (hmarks : ∀ mark ∈ marks, Unqualified mark.2)
    (hsorted : Assoc.Increasing object)
    (hgone : ∀ mark ∈ marks, Assoc.get? (markedName mark) object = none)
    (hthere : ∀ mark ∈ marks, (Assoc.get? mark.2 object).isSome = true) :
    foldMarks marks object = object := by
  refine (increasing_foldMarks hsorted).ext hsorted fun key => ?_
  rw [get?_foldMarks hmarks, folded?]
  split
  · rename_i hmarked
    obtain ⟨mark, hmark, rfl⟩ := List.mem_map.mp hmarked
    exact (hgone mark hmark).symm
  split
  · rename_i hname
    obtain ⟨mark, hmark, rfl⟩ := List.mem_map.mp hname
    obtain ⟨value, hvalue⟩ := Option.isSome_iff_exists.mp (hthere mark hmark)
    have hnulls : ∀ other ∈ (marks.filter fun other => other.2 = mark.2).map (fun other =>
        (Json.object object).getD (markedName other)), other.isNull = true := by
      intro other hother
      obtain ⟨twin, htwin, rfl⟩ := List.mem_map.mp hother
      rw [Json.getD, Json.get?, hgone twin (List.mem_filter.mp htwin).1]
      rfl
    rw [candidates, firstPresent_of_rest _ hnulls, Json.getD, Json.get?, hvalue, Option.getD_some]
  · rfl

/-- What is folded into an object was in it, or is null. -/
theorem folded?_forall {motive : Json → Prop} (hnull : motive .null)
    (hmembers : ∀ member ∈ object, motive member.2) {key : String} {value : Json}
    (h : folded? marks object key = some value) : motive value := by
  have hheld : ∀ key, motive ((Json.object object).getD key) := by
    intro key
    rw [Json.getD, Json.get?]
    cases hget : Assoc.get? key object with
    | none => exact hnull
    | some held => exact hmembers _ (Assoc.mem_of_get?_eq_some hget)
  rw [folded?] at h
  split at h
  · cases h
  split at h
  · obtain rfl := Option.some.inj h
    rcases firstPresent_mem_or (candidates marks object key) with hmem | heq
    · rcases List.mem_cons.mp hmem with heq | hmem
      · exact heq ▸ hheld key
      · obtain ⟨mark, -, heq⟩ := List.mem_map.mp hmem
        exact heq ▸ hheld (markedName mark)
    · exact heq ▸ hnull
  · exact hmembers _ (Assoc.mem_of_get?_eq_some h)

end Marks

end JoinPlan.Plan
