import JoinPlan.Proofs.Plan.Declarations

/-!
# Requests whose list field is matched by a key

The rows of a list field are those that have a key of their parent.  The field can be
declared to be joined where the keys are equal, or to be fetched in batches for the keys.
Either way its table and the parent's fetch the same columns, but for the keys that a batch
needs, and every column under an alias of its own.
-/

namespace JoinPlan.Plan

/-- The template of the condition that two keys are equal. -/
def keysTemplate (parentKey thisKey : String) : String :=
  Builder.parentPlaceholder ++ ".\"" ++ parentKey ++ "\" = " ++
    Builder.childPlaceholder ++ ".\"" ++ thisKey ++ "\""

/-- A property named like a key is the key. -/
def Keeps (entries : List (String × String)) (key : String) : Prop :=
  ∀ entry ∈ entries, entry.1 = key → entry.2 = key

instance (entries : List (String × String)) (key : String) : Decidable (Keeps entries key) :=
  inferInstanceAs (Decidable (∀ entry ∈ entries, entry.1 = key → entry.2 = key))

namespace NestedRequest

section Declarations

variable (nested : NestedRequest) (env : Environment) (parentKey thisKey : String)

/-- The options of the list field when its rows are joined where the keys are equal. -/
def joinOptions : FieldOptions :=
  { nested.field.options with
    sqlJoin := some (.template (keysTemplate parentKey thisKey))
    sqlBatch := none }

/-- The options of the list field when its rows are fetched in batches for the keys. -/
def batchOptions : FieldOptions :=
  { nested.field.options with
    sqlJoin := none
    sqlBatch := some ⟨thisKey, parentKey⟩ }

def joined : Environment :=
  (nested.declaration (nested.joinOptions parentKey thisKey)).environment env

def batched : Environment :=
  (nested.declaration (nested.batchOptions parentKey thisKey)).environment env

/-- No property is named like a key without being the key. -/
structure KeepsKeys (minify : Bool) : Prop where
  field : nested.field.name ≠ nested.root.rows.key
  rootKey : Keeps (nested.before env minify ++ nested.after) nested.root.rows.key
  parentKey : Keeps (nested.before env minify ++ nested.after) parentKey
  fieldKey : Keeps (nested.others env minify []) nested.field.rows.key
  thisKey : Keeps (nested.others env minify []) thisKey

/-- No property of a parent is named like an item of its list; minified ones never are. -/
def ItemsApart (minify : Bool) : Prop :=
  minify = true ∨
    ∀ entry ∈ nested.before env minify ++ nested.after, ∀ other ∈ nested.others env minify [],
      entry.1 ≠ nested.fieldAlias env minify ++ "__" ++ other.1

end Declarations

end NestedRequest

section Entries

variable {names : Namespace} {entries chosen own : List (String × String)} {key : String}
  {env : Environment} {nested : NestedRequest} {minify : Bool} {parentKey thisKey : String}

theorem Keeps.mono {others : List (String × String)} (h : Keeps others key)
    (hsubset : entries ⊆ others) : Keeps entries key :=
  fun entry hentry => h entry (hsubset hentry)

/-- Selected columns, and keys among them, are found by the names of their properties. -/
theorem functional_of_columnOf (type : TypeDefinition)
    (h : ∀ entry ∈ chosen, entry.2 = type.columnOf entry.1 ∨ entry = (key, key))
    (hkeeps : Keeps chosen key) : Assoc.Functional chosen := by
  intro first hfirst second hsecond heq
  rcases h first hfirst with hone | rfl
  · rcases h second hsecond with hother | rfl
    · rw [hone, hother, heq]
    · exact hkeeps first hfirst heq
  · exact (hkeeps second hsecond heq.symm).symm

theorem columnOf_of_mem_selectedEntries {type : TypeDefinition} {listed : List Occurrence}
    {entry : String × String} (h : entry ∈ selectedEntries type listed) :
    entry.2 = type.columnOf entry.1 := by
  obtain ⟨occurrence, -, rfl⟩ := List.mem_map.mp h
  rfl

theorem RowField.same_of_mem_ownEntries {field : RowField} {args : Arguments}
    {aliasName : String} {entry : String × String}
    (h : entry ∈ field.ownEntries env args aliasName) : entry.1 = entry.2 := by
  rcases List.mem_cons.mp h with rfl | halways
  · rfl
  · obtain ⟨name, -, rfl⟩ := List.mem_map.mp halways
    rfl

/-- A table's own columns and those chosen on it, with its key. -/
theorem identified_columnsUnder (htidy : names.Tidy)
    (hknown : ∀ entry ∈ own ++ chosen, names.Knows entry.1)
    (hown : ∀ entry ∈ own, entry.1 = entry.2) (hchosen : Assoc.Functional chosen)
    (hkey : (key, key) ∈ own) (hkeeps : Keeps (own ++ chosen) key) :
    Identified (columnUnder names (key, key)) (columnsUnder names (own ++ chosen)) where
  toLayered := by
    apply layered_columnsUnder htidy hknown _ hchosen
    intro first hfirst second hsecond heq
    rw [← hown first hfirst, ← hown second hsecond, heq]
  key := stands_columnsUnder (List.mem_append_left _ hkey) hkeeps

/-- Properties named like a key stay the key when a batch fetches the keys it needs. -/
theorem keeps_parents {middle : List (String × String)}
    (hmiddle : ∀ entry ∈ middle, entry = (parentKey, parentKey))
    (hkey : Keeps (nested.before env minify ++ nested.after) key) :
    Keeps (nested.before env minify ++ (middle ++ nested.after)) key := by
  intro entry hentry heq
  simp only [List.mem_append] at hentry
  rcases hentry with hbefore | hmid | hafter
  · exact hkey entry (List.mem_append_left _ hbefore) heq
  · rw [hmiddle entry hmid] at heq ⊢
    exact heq
  · exact hkey entry (List.mem_append_right _ hafter) heq

theorem keeps_children {last : List (String × String)}
    (hlast : ∀ entry ∈ last, entry = (thisKey, thisKey))
    (hkey : Keeps (nested.others env minify []) key) :
    Keeps (nested.others env minify last) key := by
  intro entry hentry heq
  simp only [NestedRequest.others, RowField.entries, List.mem_append] at hentry
  by_cases hlater : entry ∈ last
  · rw [hlast entry hlater] at heq ⊢
    exact heq
  · apply hkey entry _ heq
    simp only [NestedRequest.others, RowField.entries, List.mem_append]
    tauto

/-- The columns of the root's rows, with the key for a batch among them or without. -/
theorem identified_parents (hkeeps : nested.KeepsKeys env parentKey thisKey minify)
    (htidy : names.Tidy) {middle : List (String × String)}
    (hmiddle : ∀ entry ∈ middle, entry = (parentKey, parentKey))
    (hknown : ∀ entry ∈ nested.before env minify ++ (middle ++ nested.after),
      names.Knows entry.1) :
    Identified (columnUnder names (nested.root.rows.key, nested.root.rows.key))
      (columnsUnder names (nested.before env minify ++ (middle ++ nested.after))) := by
  have hall := keeps_parents hmiddle hkeeps.rootKey
  have hparent := keeps_parents hmiddle hkeeps.parentKey
  rw [NestedRequest.before, List.append_assoc] at hknown hall hparent ⊢
  refine identified_columnsUnder htidy hknown
    (fun entry hentry => RowField.same_of_mem_ownEntries hentry)
    (functional_of_columnOf nested.root.rows.type ?_
      (hparent.mono (List.subset_append_right _ _))) List.mem_cons_self hall
  intro entry hentry
  simp only [List.mem_append] at hentry
  rcases hentry with hfront | hmid | hafter
  · exact Or.inl (columnOf_of_mem_selectedEntries hfront)
  · exact Or.inr (hmiddle entry hmid)
  · exact Or.inl (columnOf_of_mem_selectedEntries hafter)

/-- The columns of the list field's rows, with the key for a batch among them or without. -/
theorem identified_children (hkeeps : nested.KeepsKeys env parentKey thisKey minify)
    (htidy : names.Tidy) {last : List (String × String)}
    (hlast : ∀ entry ∈ last, entry = (thisKey, thisKey))
    (hknown : ∀ entry ∈ nested.others env minify last, names.Knows entry.1) :
    Identified (columnUnder names (nested.field.rows.key, nested.field.rows.key))
      (columnsUnder names (nested.others env minify last)) := by
  have hall := keeps_children hlast hkeeps.fieldKey
  have hthis := keeps_children hlast hkeeps.thisKey
  rw [NestedRequest.others, RowField.entries, List.append_assoc, List.append_assoc]
    at hknown hall hthis ⊢
  refine identified_columnsUnder htidy hknown
    (fun entry hentry => RowField.same_of_mem_ownEntries hentry)
    (functional_of_columnOf nested.field.rows.type ?_
      (hthis.mono (List.subset_append_right _ _))) List.mem_cons_self hall
  intro entry hentry
  simp only [List.mem_append] at hentry
  rcases hentry with hselected | hkey | hbelow
  · exact Or.inl (columnOf_of_mem_selectedEntries hselected)
  · exact Or.inr (hlast entry hkey)
  · exact Or.inl (columnOf_of_mem_selectedEntries hbelow)

/-- The list field's table has another alias than the root's. -/
theorem NestedRequest.rootAlias_ne_fieldAlias (nested : NestedRequest) (env : Environment)
    (minify : Bool) : nested.rootAlias minify ≠ nested.fieldAlias env minify := by
  intro heq
  have hissued := (grows_supplied ((Namespace.fresh minify).table nested.root.name).2
    (nested.before env minify)).issued (nested.rootAlias minify)
      ((Namespace.fresh minify).issued_table nested.root.name)
  rw [heq] at hissued
  exact Namespace.not_issued_table _ _ hissued

/-- The columns of the two tables are fetched under different aliases. -/
theorem outputAlias_ne_of_apart (hitems : nested.ItemsApart env minify)
    (htidy : names.Tidy) (hminify : names.minify = minify) {entry other : String × String}
    (hentry : entry ∈ nested.before env minify ++ nested.after)
    (hother : other ∈ nested.others env minify []) (hknown : names.Knows entry.1) :
    outputAlias [nested.rootAlias minify] (columnUnder names entry).aliasName ≠
      outputAlias [nested.rootAlias minify, nested.fieldAlias env minify]
        (columnUnder names other).aliasName := by
  have hown : outputAlias [nested.rootAlias minify] (columnUnder names entry).aliasName =
      (columnUnder names entry).aliasName := String.empty_append
  have hbelow : outputAlias [nested.rootAlias minify, nested.fieldAlias env minify]
      (columnUnder names other).aliasName =
        nested.fieldAlias env minify ++ "__" ++ (columnUnder names other).aliasName := by
    simp [outputAlias, pathText, String.join]
  rw [hown, hbelow]
  rcases Bool.eq_false_or_eq_true minify with htrue | hfalse
  · -- a minified alias of a column has no underscore
    intro heq
    apply htidy.underscore_notMem_column (hminify.trans htrue) hknown
    change '_' ∈ (columnUnder names entry).aliasName.toList
    rw [heq]
    simp
  · have hplain := hitems.resolve_left (by simp [hfalse]) entry hentry other hother
    have halias (entry : String × String) : (columnUnder names entry).aliasName = entry.1 := by
      rw [columnUnder, Namespace.column_of_plain (hminify.trans hfalse)]
    rwa [halias, halias]

end Entries

/-! ### The plan of either declaration -/

section Compile

variable {env : Environment} {nested : NestedRequest} {request : Request}

/-- The plan of the joined declaration. -/
theorem compile_joined (parentKey thisKey : String) (hasked : nested.IsAsked env request)
    (hapart : ¬ (request.parentType = nested.root.rows.name ∧
      nested.root.name = nested.field.name)) (minify : Bool) :
    ∃ names, compile (nested.joined env parentKey thisKey) minify request =
        .ok (nested.plan env minify
          (fun _ => some (.join (.template (keysTemplate parentKey thisKey)))) [] names) ∧
      (Namespace.fresh minify).Grows names ∧
      ∀ entry ∈ nested.before env minify ++ nested.after ++ nested.others env minify [],
        names.Knows entry.1 := by
  have hbare : (nested.joinOptions parentKey thisKey).IsBare := hasked.field.bare.related _ _
  obtain ⟨names, hcompiled, hgrows, hknown⟩ := compile_declared hasked hapart hbare
    (reachedBy_join rfl) (by
      simp [checkRelation, NestedRequest.joinOptions, hasked.field.bare.junction]) minify
  exact ⟨names, hcompiled, hgrows, by simpa using hknown⟩

/-- The plan of the batched declaration. -/
theorem compile_batched (parentKey thisKey : String) (hasked : nested.IsAsked env request)
    (hapart : ¬ (request.parentType = nested.root.rows.name ∧
      nested.root.name = nested.field.name)) (minify : Bool) :
    ∃ names, compile (nested.batched env parentKey thisKey) minify request =
        .ok (nested.plan env minify
          (fun names => some (.batch (columnUnder names (thisKey, thisKey))
            (columnUnder names (parentKey, parentKey)))) (ownEntries [thisKey]) names) ∧
      (Namespace.fresh minify).Grows names ∧
      ∀ entry ∈ ownEntries [thisKey, parentKey] ++ nested.before env minify ++ nested.after ++
        nested.others env minify (ownEntries [thisKey]), names.Knows entry.1 := by
  have hbare : (nested.batchOptions parentKey thisKey).IsBare := hasked.field.bare.related _ _
  exact compile_declared hasked hapart hbare (reachedBy_batch hbare rfl rfl)
    (by simp [checkRelation, NestedRequest.batchOptions, hasked.field.bare.junction]) minify

end Compile

end JoinPlan.Plan
