import JoinPlan.Proofs.Data.ResolvedUnions
import JoinPlan.Proofs.Plan.OneMeaning

/-!
# Lists folded into one field

A field that is joined for several concrete types is folded like any other: of its values
the first that is not null stands.  A joined list without rows is empty, not null, so it
hides the rows of the types after it; the one value that holds rows stands exactly if there
is no such list before it.
-/

namespace JoinPlan

/-- Neither null nor an empty list. -/
def Json.IsHeld (value : Json) : Prop := value ≠ .null ∧ value ≠ .array []

namespace Plan

/-! ### What resolving leaves of a value -/

section Held

variable {table : Table Node}

theorem resolveUnions_null (table : Table Node) : table.resolveUnions .null = .null :=
  table.resolveUnions_scalar rfl rfl

theorem resolveUnions_empty (table : Table Node) :
    table.resolveUnions (.array []) = .array [] :=
  table.resolveUnions_array []

theorem isHeld_resolveUnions {value : Json} (h : value.IsHeld) :
    (table.resolveUnions value).IsHeld := by
  cases value with
  | null => exact absurd rfl h.1
  | bool | number | string =>
      rw [table.resolveUnions_scalar rfl rfl]
      exact h
  | array items =>
      rw [table.resolveUnions_array]
      have hne : items ≠ [] := fun hnil => h.2 (congrArg Json.array hnil)
      simpa [Json.IsHeld] using hne
  | object members =>
      rw [table.resolveUnions_object]
      exact ⟨Json.noConfusion, Json.noConfusion⟩

variable (children : List (Table Node)) (key : String)

/-- What each table of the field keeps, the field keeps. -/
theorem resolveField_induction {motive : Json → Prop}
    (hstep : ∀ (child : Table Node) value, motive value → motive (child.resolveUnions value))
    {value : Json} (hvalue : motive value) : motive (resolveField children key value) := by
  rw [resolveField]
  generalize children.filter (fun child => child.info.fieldName = key) = fields
  induction fields generalizing value with
  | nil => exact hvalue
  | cons child rest ih => exact ih (hstep child value hvalue)

theorem resolveField_null : resolveField children key .null = .null :=
  resolveField_induction children key (motive := (· = .null))
    (fun child _ hnull => hnull ▸ resolveUnions_null child) rfl

theorem resolveField_empty : resolveField children key (.array []) = .array [] :=
  resolveField_induction children key (motive := (· = .array []))
    (fun child _ hempty => hempty ▸ resolveUnions_empty child) rfl

theorem isHeld_resolveField {value : Json} (h : value.IsHeld) :
    (resolveField children key value).IsHeld :=
  resolveField_induction children key (fun _ _ => isHeld_resolveUnions) h

end Held

/-! ### The first value present -/

theorem eq_of_not_isHeld {value : Json} (h : ¬ value.IsHeld) :
    value = .null ∨ value = .array [] := by
  by_contra hneither
  exact h (not_or.mp hneither)

theorem firstPresent_of_nulls {before : List Json} (h : ∀ value ∈ before, value = .null)
    (after : List Json) : firstPresent (before ++ after) = firstPresent after := by
  induction before with
  | nil => rfl
  | cons first rest ih =>
      rw [List.forall_mem_cons] at h
      rw [List.cons_append, firstPresent_cons, if_pos (isNull_iff.mpr h.1), ih h.2]

/-- Of values that hold nothing, not all of them null, the first one present is an empty list. -/
theorem firstPresent_of_empty {before : List Json} (hheld : ∀ value ∈ before, ¬ value.IsHeld)
    (hpresent : ¬ ∀ value ∈ before, value = .null) (after : List Json) :
    firstPresent (before ++ after) = .array [] := by
  induction before with
  | nil => simp at hpresent
  | cons first rest ih =>
      rw [List.forall_mem_cons] at hheld
      rw [List.cons_append, firstPresent_cons]
      rcases eq_of_not_isHeld hheld.1 with rfl | rfl
      · rw [if_pos (isNull_iff.mpr rfl)]
        exact ih hheld.2 fun hrest => hpresent (List.forall_mem_cons.mpr ⟨rfl, hrest⟩)
      · rfl

theorem firstPresent_held {value : Json} (h : value.IsHeld) (after : List Json) :
    firstPresent (value :: after) = value := by
  rw [firstPresent_cons, if_neg fun hnull => h.1 (isNull_iff.mp hnull)]

/-! ### The field -/

section Field

variable {table child : Table Node} {type : String} {nodes : List Node}

theorem mem_marks (hbucket : (type, nodes) ∈ table.typed) (hchild : Node.table child ∈ nodes)
    (hjoined : child.info.isBoundary = false) : (type, child.info.fieldName) ∈ table.marks := by
  have hkeys : child.info.batchKeys? = none := by
    simpa [TableInfo.isBoundary] using hjoined
  refine List.mem_flatMap.mpr ⟨_, hbucket, List.mem_map.mpr ⟨_, ?_, rfl⟩⟩
  exact List.mem_flatMap.mpr ⟨_, hchild, by simp [Node.propertyNames, hkeys]⟩

/-- A field that is joined for a concrete type holds, after resolving, the first of its values
that is not null, resolved in turn.  So where at most one of them holds rows, that one stands
exactly if only null comes before it; where none does, the field is null or an empty list. -/
theorem joined_field_stands_iff (hmarks : ∀ mark ∈ table.marks, Unqualified mark.2)
    (hbucket : (type, nodes) ∈ table.typed) (hchild : Node.table child ∈ nodes)
    (hjoined : child.info.isBoundary = false) (members : Object) :
    ∃ resolved, table.resolveUnions (.object members) = .object resolved ∧
      (∀ before value after,
        candidates table.marks members child.info.fieldName = before ++ value :: after →
        value.IsHeld → (∀ other ∈ before ++ after, ¬ other.IsHeld) →
        (Assoc.get? child.info.fieldName resolved =
            some (resolveField table.joinedChildren child.info.fieldName value) ↔
          ∀ other ∈ before, other = .null)) ∧
      ((∀ value ∈ candidates table.marks members child.info.fieldName, ¬ value.IsHeld) →
        Assoc.get? child.info.fieldName resolved = some .null ∨
          Assoc.get? child.info.fieldName resolved = some (.array [])) := by
  have hmark := mem_marks hbucket hchild hjoined
  have hname := hmarks _ hmark
  refine ⟨_, table.resolveUnions_object members, ?_, ?_⟩ <;>
    simp only [get?_resolved hmarks, folded?, if_neg (not_mem_markedNames hname),
      if_pos (List.mem_map_of_mem (f := Prod.snd) hmark), Option.map_some, Option.some.injEq]
  · intro before value after hcandidates hvalue hothers
    rw [List.forall_mem_append] at hothers
    rw [hcandidates]
    by_cases hnulls : ∀ other ∈ before, other = .null
    · rw [firstPresent_of_nulls hnulls, firstPresent_held hvalue]
      exact iff_of_true rfl hnulls
    · rw [firstPresent_of_empty hothers.1 hnulls, resolveField_empty]
      refine iff_of_false (fun hempty => ?_) hnulls
      exact (isHeld_resolveField _ _ hvalue).2 hempty.symm
  · intro hnone
    rcases firstPresent_mem_or (candidates table.marks members child.info.fieldName)
      with hmem | hnull
    · rcases eq_of_not_isHeld (hnone _ hmem) with hnull | hempty
      · exact .inl (by rw [hnull, resolveField_null])
      · exact .inr (by rw [hempty, resolveField_empty])
    · exact .inl (by rw [hnull, resolveField_null])

/-! ### Tags of posts and notes -/

/-- How tags of posts and of notes are joined. -/
def onPost : String := "\x7bparent\x7d.id = \x7bchild\x7d.post"

def onNote : String := "\x7bparent\x7d.id = \x7bchild\x7d.note"

/-- Items that are posts or notes, both with tags. -/
def itemSchema (type : TypeRef) (options : String → FieldOptions)
    (more : List (String × TypeDefinition)) : Schema where
  types :=
    [("Item", { tableType "items" [] with
        kind := .interface
        possibleTypes := ["Post", "Note"] }),
     ("Note", { tableType "items" [("tags", ⟨type, options onNote⟩)] with interfaces := ["Item"] }),
     ("Post", { tableType "items" [("tags", ⟨type, options onPost⟩)] with interfaces := ["Item"] }),
     ("Query", { tableType "" [("items", plainField (.list (.named "Item")))] with
        table := none }),
     ("Tag", tableType "tags" [("name", plainField (.named "String"))])] ++ more

def joinOptions (condition : String) : FieldOptions :=
  { FieldOptions.empty with sqlJoin := some (.template condition) }

/-- A request for the tags of posts and of notes. -/
def tagsOfBoth (tags : Selection) : Request where
  parentType := "Query"
  fields := [⟨"items", [], [.inline (some "Post") [tags], .inline (some "Note") [tags]]⟩]
  fragments := []

/-- Items with the tags of posts and those of notes. -/
def itemsWith (post note : Table Node) : Table Node where
  info := { plainInfo "items" "items" true none with typeName := "Item", isAbstract := true }
  shared := [.column (ownedColumn "id")]
  typed := [("Post", [.table post]), ("Note", [.table note])]

def taggedItems : Table Node :=
  itemsWith (itemTags "tags" onPost) (itemTags "tags$" onNote)

theorem compile_taggedItems :
    compile ⟨itemSchema (.list (.named "Tag")) joinOptions [], .null⟩ false
        (tagsOfBoth (.field "tags" [] [.field "name" [] []])) = .ok taggedItems := by
  cbv

/-- The row of a post, which has a tag, and that of a note with one. -/
def postRow : Row :=
  [("id", .ofNat 1), ("tags__id", .ofNat 5), ("tags__name", .string "lean"),
   ("tags$__id", .null), ("tags$__name", .null)]

def noteRow : Row :=
  [("id", .ofNat 2), ("tags__id", .null), ("tags__name", .null),
   ("tags$__id", .ofNat 5), ("tags$__name", .string "lean")]

def leanTag : Json := .object [("id", .ofNat 5), ("name", .string "lean")]

def taggedPost : Object :=
  [("id", .ofNat 1), ("tags@Note", .array []), ("tags@Post", .array [leanTag])]

def taggedNote : Object :=
  [("id", .ofNat 2), ("tags@Note", .array [leanTag]), ("tags@Post", .array [])]

/-- The tags of a post come first. -/
theorem joined_field_stands_iff_taggedPost :
    (∀ mark ∈ taggedItems.marks, Unqualified mark.2) ∧
      ("Post", [Node.table (itemTags "tags" onPost)]) ∈ taggedItems.typed ∧
      taggedItems.shape.nest [postRow] = .array [.object taggedPost] ∧
      ∃ resolved, taggedItems.resolveUnions (.object taggedPost) = .object resolved ∧
        Assoc.get? "tags" resolved = some (.array [leanTag]) := by
  have hmarks : ∀ mark ∈ taggedItems.marks, Unqualified mark.2 := by decide
  have hbucket : ("Post", [Node.table (itemTags "tags" onPost)]) ∈ taggedItems.typed :=
    List.mem_cons_self
  obtain ⟨resolved, hresolved, hstands, -⟩ :=
    joined_field_stands_iff hmarks hbucket List.mem_cons_self rfl taggedPost
  have hothers : ∀ other ∈ [Json.null] ++ [Json.array []], ¬ other.IsHeld := by
    simp [Json.IsHeld]
  have hfirst := (hstands [.null] (.array [leanTag]) [.array []] rfl (by simp [Json.IsHeld])
    hothers).mpr (by simp)
  exact ⟨hmarks, hbucket, rfl, resolved, hresolved, hfirst⟩

/-- The tag of a note is hidden by the empty list of the tags of posts, though the only value
under the field's names that holds anything is the note's. -/
theorem exists_list_hidden :
    ∃ root members value,
      compile ⟨itemSchema (.list (.named "Tag")) joinOptions [], .null⟩ false
          (tagsOfBoth (.field "tags" [] [.field "name" [] []])) = .ok root ∧
        root.shape.nest [noteRow] = .array [.object members] ∧
        candidates root.marks members "tags" = [.null, .array [], value] ∧ value.IsHeld ∧
        ∃ resolved, root.resolveUnions (.object members) = .object resolved ∧
          Assoc.get? "tags" resolved = some (.array []) ∧
          resolveField root.joinedChildren "tags" value ≠ .array [] :=
  ⟨taggedItems, taggedNote, .array [leanTag], compile_taggedItems, rfl, rfl,
    by simp [Json.IsHeld], _, rfl, rfl, (isHeld_resolveField _ _ (by simp [Json.IsHeld])).2⟩

end Field

end Plan

end JoinPlan
