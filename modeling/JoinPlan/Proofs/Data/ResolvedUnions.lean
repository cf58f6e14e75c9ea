import JoinPlan.Proofs.Data.Folding
import JoinPlan.Proofs.Data.Repeats
import JoinPlan.Proofs.Json.Plain

/-!
# Resolved unions

In resolved data nothing is left under a marked name at any level fetched with a table:
every object holds under each folded name the first value present, resolved in turn where a
joined table has the name, and everything else as it was.  Resolving gives such data, and
changes nothing the second time.
-/

namespace JoinPlan

/-! ### Nested rows -/

/-- The values in the rows are plain. -/
def PlainRows (rows : List Row) : Prop := ∀ row ∈ rows, ∀ cell ∈ row, cell.2.Plain

theorem Shape.plain_cell {row : Row} (h : ∀ cell ∈ row, cell.2.Plain) (aliasName : String) :
    (Shape.cell row aliasName).Plain := by
  rw [Shape.cell]
  cases hget : Assoc.get? aliasName row with
  | none => rfl
  | some value => exact h _ (Assoc.mem_of_get?_eq_some hget)

theorem Shape.plainRows_of_mem_groups {properties : List (String × Property)}
    {rows group : List Row} (h : PlainRows rows) (hgroup : group ∈ Shape.groups properties rows) :
    PlainRows group := by
  obtain ⟨entry, hentry, rfl⟩ := List.mem_map.mp hgroup
  rw [Assoc.group_eq] at hentry
  obtain ⟨key, -, rfl⟩ := List.mem_map.mp hentry
  exact fun row hrow => h row (List.mem_filter.mp hrow).1

/-- What rows are nested into is plain, if the values in the rows are. -/
theorem Property.plain_nest (property : Property) :
    ∀ {rows : List Row}, PlainRows rows → (property.nest rows).Plain := by
  induction property with
  | column aliasName =>
      intro rows h
      cases rows with
      | nil => rfl
      | cons row rest => exact Shape.plain_cell (h row List.mem_cons_self) aliasName
  | object many properties ih =>
      intro rows h
      have hobjects : ∀ object ∈ (Shape.groups properties rows).map (fun group =>
          Json.ofMembers (nestProperties properties group)), object.Plain := by
        intro object hobject
        obtain ⟨group, hgroup, rfl⟩ := List.mem_map.mp hobject
        apply Json.plain_of_sorted (Assoc.increasing_sorted _)
        intro member hmember
        have hmember := Assoc.mem_of_mem_sorted hmember
        rw [nestProperties_eq] at hmember
        obtain ⟨entry, hentry, rfl⟩ := List.mem_map.mp hmember
        exact ih entry hentry (Shape.plainRows_of_mem_groups h hgroup)
      rw [Property.nest, Shape.gather]
      split
      · exact Json.plain_array.mpr hobjects
      · cases hlist : (Shape.groups properties rows).map fun group =>
            Json.ofMembers (nestProperties properties group) with
        | nil => rfl
        | cons first rest => exact hobjects first (hlist ▸ List.mem_cons_self)

namespace Plan

/-! ### What a table does to an object -/

/-- The tables among the children that are fetched by the same statement. -/
def Table.joinedChildren (table : Table Node) : List (Table Node) :=
  table.tables.filter fun child => !child.info.isBoundary

/-- Resolves the unions of the joined tables, each in the field of its table. -/
def resolveBelow (children : List (Table Node)) (object : Object) : Object :=
  children.foldl (fun object child =>
    onProperty child.info.fieldName child.resolveUnions object) object

/-- What the tables of a field make of the field's value, one after the other. -/
def resolveField (children : List (Table Node)) (key : String) (value : Json) : Json :=
  (children.filter fun child => child.info.fieldName = key).foldl
    (fun value child => child.resolveUnions value) value

theorem filterMap_table?_cons (child : Table Node) (rest : List Node) :
    (Node.table child :: rest).filterMap Node.table? = child :: rest.filterMap Node.table? :=
  rfl

theorem resolveNodes_eq (nodes : List Node) (object : Object) :
    resolveNodes nodes object = resolveBelow
      ((nodes.filterMap Node.table?).filter fun child => !child.info.isBoundary) object := by
  induction nodes generalizing object with
  | nil => rfl
  | cons node rest ih =>
      rw [resolveNodes, ih]
      cases node with
      | table child =>
          rw [filterMap_table?_cons, Node.resolveUnions]
          cases hboundary : child.info.isBoundary <;> simp [hboundary, resolveBelow]
      | column | dependencies | composite | expression | nothing => rfl

theorem resolveBuckets_eq (buckets : List (String × List Node)) (object : Object) :
    resolveBuckets buckets object = resolveNodes (buckets.flatMap Prod.snd) object := by
  induction buckets generalizing object with
  | nil => rfl
  | cons bucket rest ih =>
      rw [resolveBuckets, resolveBucket, ih, List.flatMap_cons]
      simp only [resolveNodes_eq, List.filterMap_append, List.filter_append, resolveBelow,
        List.foldl_append]

namespace Table

variable {table : Table Node}

theorem resolveUnions_object (table : Table Node) (members : Object) :
    table.resolveUnions (.object members) =
      .object (resolveBelow table.joinedChildren (foldMarks table.marks members)) := by
  obtain ⟨info, shared, typed⟩ := table
  rw [resolveUnions, onObjects, resolveBuckets_eq, foldl_collapseBucket]
  simp only [resolveNodes_eq, joinedChildren, tables, children, List.filterMap_append,
    List.filter_append, resolveBelow, List.foldl_append]
  rfl

theorem onItems_eq (change : Object → Object) (items : List Json) :
    onObjects.onItems change items = items.map (onObjects change) := by
  induction items with
  | nil => rfl
  | cons item rest ih => rw [onObjects.onItems, ih, List.map_cons]

theorem resolveUnions_array (table : Table Node) (items : List Json) :
    table.resolveUnions (.array items) = .array (items.map table.resolveUnions) := by
  obtain ⟨info, shared, typed⟩ := table
  simp only [resolveUnions, onObjects, onItems_eq]

theorem resolveUnions_scalar (table : Table Node) {value : Json} (harray : value.array? = none)
    (hobject : value.object? = none) : table.resolveUnions value = value := by
  obtain ⟨info, shared, typed⟩ := table
  cases value with
  | array items => cases harray
  | object members => cases hobject
  | null | bool | number | string => rfl

end Table

/-! ### What the object holds then -/

section Below

variable {children : List (Table Node)} {object : Object}

theorem get?_onProperty (name key : String) (change : Json → Json) (object : Object) :
    Assoc.get? key (onProperty name change object) =
      if name = key then (Assoc.get? key object).map change else Assoc.get? key object := by
  unfold onProperty
  cases hget : Assoc.get? name object with
  | none => grind
  | some value => grind [Assoc.get?_insert]

theorem increasing_onProperty (name : String) (change : Json → Json)
    (h : Assoc.Increasing object) : Assoc.Increasing (onProperty name change object) := by
  unfold onProperty
  split
  · exact h
  · exact Assoc.increasing_insert _ _ h

theorem get?_resolveBelow (key : String) :
    Assoc.get? key (resolveBelow children object) =
      (Assoc.get? key object).map (resolveField children key) := by
  induction children generalizing object with
  | nil =>
      have hfield : resolveField [] key = id := rfl
      rw [hfield, Option.map_id]
      rfl
  | cons child rest ih =>
      have hstep : resolveBelow (child :: rest) object =
          resolveBelow rest (onProperty child.info.fieldName child.resolveUnions object) := rfl
      rw [hstep, ih, get?_onProperty]
      by_cases hkey : child.info.fieldName = key
      · have hfield : resolveField (child :: rest) key =
            resolveField rest key ∘ child.resolveUnions := by
          funext value
          simp [resolveField, hkey]
        rw [if_pos hkey, Option.map_map, hfield]
      · have hfield : resolveField (child :: rest) key = resolveField rest key := by
          funext value
          simp [resolveField, hkey]
        rw [if_neg hkey, hfield]

theorem increasing_resolveBelow (h : Assoc.Increasing object) :
    Assoc.Increasing (resolveBelow children object) := by
  induction children generalizing object with
  | nil => exact h
  | cons child rest ih => exact ih (increasing_onProperty _ _ h)

theorem resolveField_of_not_mem {key : String}
    (h : ∀ child ∈ children, child.info.fieldName ≠ key) (value : Json) :
    resolveField children key value = value := by
  have hnone : children.filter (fun child => child.info.fieldName = key) = [] :=
    List.filter_eq_nil_iff.mpr fun child hchild => by simpa using h child hchild
  rw [resolveField, hnone, List.foldl_nil]

theorem resolveField_of_nodup (hnodup : (children.map fun child => child.info.fieldName).Nodup)
    {child : Table Node} (hchild : child ∈ children) (value : Json) :
    resolveField children child.info.fieldName value = child.resolveUnions value := by
  obtain ⟨before, after, rfl⟩ := List.append_of_mem hchild
  rw [List.map_append, List.map_cons, List.nodup_append] at hnodup
  obtain ⟨-, hafter, hbefore⟩ := hnodup
  have hfirst : before.filter (fun other => other.info.fieldName = child.info.fieldName) = [] := by
    refine List.filter_eq_nil_iff.mpr fun other hother => ?_
    have hne := hbefore _ (List.mem_map_of_mem hother) _ List.mem_cons_self
    simpa using hne
  have hlast : after.filter (fun other => other.info.fieldName = child.info.fieldName) = [] := by
    refine List.filter_eq_nil_iff.mpr fun other hother heq => ?_
    have hnot := (List.nodup_cons.mp hafter).1
    exact hnot (List.mem_map.mpr ⟨other, hother, of_decide_eq_true heq⟩)
  simp [resolveField, List.filter_append, hfirst, hlast]

end Below

/-! ### Resolved data -/

/-- The data after resolving against the data before, at every level fetched with a table. -/
inductive Resolved : Table Node → Json → Json → Prop
  | scalar {table : Table Node} {value : Json} (not_array : value.array? = none)
      (not_object : value.object? = none) : Resolved table value value
  | array {table : Table Node} {items resolved : List Json}
      (length : resolved.length = items.length)
      (each : ∀ (index : Nat) item after, items[index]? = some item →
        resolved[index]? = some after → Resolved table item after) :
      Resolved table (.array items) (.array resolved)
  | object {table : Table Node} {before after : Object}
      (there : ∀ key, (Assoc.get? key after).isSome = (folded? table.marks before key).isSome)
      (beside : ∀ key, (∀ child ∈ table.joinedChildren, child.info.fieldName ≠ key) →
        Assoc.get? key after = folded? table.marks before key)
      (below : ∀ child ∈ table.joinedChildren, ∀ value resolved,
        folded? table.marks before child.info.fieldName = some value →
        Assoc.get? child.info.fieldName after = some resolved → Resolved child value resolved) :
      Resolved table (.object before) (.object after)

/-- No name of a property is taken for one with a mark, and no two joined children of the
table have one field. -/
structure Table.Unambiguous (table : Table Node) : Prop where
  unqualified : ∀ node ∈ table.children, ∀ name ∈ node.propertyNames, Unqualified name
  fields : (table.joinedChildren.map fun child => child.info.fieldName).Nodup

theorem Table.unambiguous_iff {table : Table Node} :
    table.Unambiguous ↔
      (∀ node ∈ table.children, ∀ name ∈ node.propertyNames, Unqualified name) ∧
        (table.joinedChildren.map fun child => child.info.fieldName).Nodup :=
  ⟨fun h => ⟨h.unqualified, h.fields⟩, fun h => ⟨h.1, h.2⟩⟩

instance (table : Table Node) : Decidable table.Unambiguous :=
  decidable_of_iff' _ Table.unambiguous_iff

theorem Table.mem_joinedChildren {table child : Table Node} :
    child ∈ table.joinedChildren ↔ child ∈ table.tables ∧ child.info.isBoundary = false := by
  simp [joinedChildren]

theorem Table.Unambiguous.marks {table : Table Node} (h : table.Unambiguous) :
    ∀ mark ∈ table.marks, Unqualified mark.2 := by
  intro mark hmark
  obtain ⟨bucket, hbucket, hmark⟩ := List.mem_flatMap.mp hmark
  obtain ⟨name, hname, rfl⟩ := List.mem_map.mp hmark
  obtain ⟨node, hnode, hname⟩ := List.mem_flatMap.mp hname
  refine h.unqualified node (List.mem_append_right _ ?_) name hname
  exact List.mem_flatMap.mpr ⟨bucket, hbucket, hnode⟩

theorem Table.Unambiguous.field {table child : Table Node} (h : table.Unambiguous)
    (hchild : child ∈ table.joinedChildren) : Unqualified child.info.fieldName := by
  obtain ⟨htable, hboundary⟩ := mem_joinedChildren.mp hchild
  refine h.unqualified _ (mem_tables.mp htable) _ ?_
  have hkeys : child.info.batchKeys? = none := by
    simpa [TableInfo.isBoundary] using hboundary
  simp [Node.propertyNames, hkeys]

theorem resolved_scalar {table : Table Node} {value : Json} (harray : value.array? = none)
    (hobject : value.object? = none) :
    Resolved table value (table.resolveUnions value) ∧
      table.resolveUnions (table.resolveUnions value) = table.resolveUnions value := by
  have hsame := table.resolveUnions_scalar harray hobject
  rw [hsame]
  exact ⟨.scalar harray hobject, hsame⟩

section Object

variable {table : Table Node} {members : Object}

/-- The members of an object that was resolved, key by key. -/
theorem get?_resolved (hmarks : ∀ mark ∈ table.marks, Unqualified mark.2) (key : String) :
    Assoc.get? key (resolveBelow table.joinedChildren (foldMarks table.marks members)) =
      (folded? table.marks members key).map (resolveField table.joinedChildren key) := by
  rw [get?_resolveBelow, get?_foldMarks hmarks]

theorem resolved_object (h : table.Unambiguous)
    (hbelow : ∀ child ∈ table.joinedChildren, ∀ key value,
      folded? table.marks members key = some value →
      Resolved child value (child.resolveUnions value)) :
    Resolved table (.object members) (table.resolveUnions (.object members)) := by
  rw [table.resolveUnions_object]
  refine .object (fun key => ?_) (fun key hkey => ?_) fun child hchild value resolved hvalue => ?_
  · rw [get?_resolved h.marks, Option.isSome_map]
  · rw [get?_resolved h.marks, funext (resolveField_of_not_mem hkey)]
    exact congrFun Option.map_id _
  · intro hresolved
    rw [get?_resolved h.marks, hvalue, Option.map_some,
      resolveField_of_nodup h.fields hchild] at hresolved
    exact Option.some.inj hresolved ▸ hbelow child hchild _ value hvalue

theorem resolveUnions_again_object (h : table.Unambiguous) (hsorted : Assoc.Increasing members)
    (hbelow : ∀ child ∈ table.joinedChildren, ∀ key value,
      folded? table.marks members key = some value →
      child.resolveUnions (child.resolveUnions value) = child.resolveUnions value) :
    table.resolveUnions (table.resolveUnions (.object members)) =
      table.resolveUnions (.object members) := by
  rw [table.resolveUnions_object, table.resolveUnions_object, Json.object.injEq]
  have hincreasing : Assoc.Increasing
      (resolveBelow table.joinedChildren (foldMarks table.marks members)) :=
    increasing_resolveBelow (increasing_foldMarks hsorted)
  have hfolded : foldMarks table.marks
      (resolveBelow table.joinedChildren (foldMarks table.marks members)) =
        resolveBelow table.joinedChildren (foldMarks table.marks members) := by
    refine foldMarks_of_folded h.marks hincreasing (fun mark hmark => ?_) fun mark hmark => ?_
    · rw [get?_resolved h.marks, folded?, if_pos (List.mem_map_of_mem hmark)]
      rfl
    · rw [get?_resolved h.marks, folded?, if_neg (not_mem_markedNames (h.marks mark hmark)),
        if_pos (List.mem_map_of_mem hmark)]
      rfl
  rw [hfolded]
  refine (increasing_resolveBelow hincreasing).ext hincreasing fun key => ?_
  rw [get?_resolveBelow, get?_resolved h.marks, Option.map_map]
  cases hvalue : folded? table.marks members key with
  | none => rfl
  | some value =>
      rw [Option.map_some, Option.map_some, Function.comp_apply, Option.some.injEq]
      by_cases hchild : ∃ child ∈ table.joinedChildren, child.info.fieldName = key
      · obtain ⟨child, hchild, rfl⟩ := hchild
        simp only [resolveField_of_nodup h.fields hchild]
        exact hbelow child hchild _ value hvalue
      · have hbeside : ∀ child ∈ table.joinedChildren, child.info.fieldName ≠ key :=
          fun child hmem heq => hchild ⟨child, hmem, heq⟩
        simp only [resolveField_of_not_mem hbeside]

end Object

theorem resolves_plain {root : Table Node} (hroot : ∀ table ∈ root.subtree, table.Unambiguous)
    {data : Json} (hdata : data.Plain) :
    Resolved root data (root.resolveUnions data) ∧
      root.resolveUnions (root.resolveUnions data) = root.resolveUnions data := by
  induction root using Table.induction generalizing data with
  | step table ih =>
      have htable := hroot table table.mem_subtree_self
      have hchildren : ∀ child ∈ table.joinedChildren, ∀ {value : Json}, value.Plain →
          Resolved child value (child.resolveUnions value) ∧
            child.resolveUnions (child.resolveUnions value) = child.resolveUnions value := by
        intro child hchild value hvalue
        have hmem := (Table.mem_joinedChildren.mp hchild).1
        exact ih child hmem (fun inner hinner =>
          hroot inner (Table.mem_subtree_of_mem_tables hmem hinner)) hvalue
      induction data with
      | null | bool value | number value | string value =>
          exact resolved_scalar rfl rfl
      | array items hitems =>
          rw [Json.plain_array] at hdata
          rw [table.resolveUnions_array, table.resolveUnions_array, List.map_map]
          refine ⟨.array (List.length_map ..) fun index item after hitem hafter => ?_, ?_⟩
          · rw [List.getElem?_map, hitem, Option.map_some] at hafter
            have hmem := List.mem_of_getElem? hitem
            exact Option.some.inj hafter ▸ (hitems item hmem (hdata item hmem)).1
          · rw [Json.array.injEq]
            exact List.map_congr_left fun item hmem => (hitems item hmem (hdata item hmem)).2
      | object members _ =>
          obtain ⟨hsorted, hmembers⟩ := Json.plain_object.mp hdata
          have hplain : ∀ {key value}, folded? table.marks members key = some value →
              value.Plain := fun hvalue =>
            folded?_forall (motive := Json.Plain) rfl hmembers hvalue
          exact ⟨resolved_object htable fun child hchild _ _ hvalue =>
              (hchildren child hchild (hplain hvalue)).1,
            resolveUnions_again_object htable hsorted fun child hchild _ _ hvalue =>
              (hchildren child hchild (hplain hvalue)).2⟩

/-- After resolving, no object of a table has a marked property left, each folded name holds
the first value present under its own name and the marked ones, and all else is unchanged
but for the objects of joined tables, which are resolved in the same way; and resolving once
more changes nothing.  This is so for all plain data, which rows are nested into. -/
theorem resolveUnions_resolves {root : Table Node}
    (hroot : ∀ table ∈ root.subtree, table.Unambiguous) :
    (∀ rows, PlainRows rows → (root.shape.nest rows).Plain) ∧
      ∀ data : Json, data.Plain →
        Resolved root data (root.resolveUnions data) ∧
          root.resolveUnions (root.resolveUnions data) = root.resolveUnions data :=
  ⟨fun _ => Property.plain_nest _, fun _ => resolves_plain hroot⟩

/-! ### Items of two types -/

/-- The joined tags of an item. -/
def itemTags (aliasName condition : String) : Table Node where
  info := { plainInfo "tags" aliasName true (some (.join (.template condition))) with
    typeName := "Tag"
    reference := "tags" }
  shared := [.column (ownedColumn "id"), .column (ownedColumn "name")]
  typed := []

/-- Items with the tags of those that are posts; their titles are in different columns. -/
def titledItems : Table Node where
  info := { plainInfo "items" "items" true none with typeName := "Item", isAbstract := true }
  shared := [.column (ownedColumn "id")]
  typed := [("Post", [.column ⟨"headline", "title", "headline", none⟩,
      .table (itemTags "tags" "\x7bparent\x7d.id = \x7bchild\x7d.post")]),
    ("Note", [.column ⟨"subject", "title", "subject", none⟩])]

def titledRows : List Row :=
  [[("id", .ofNat 1), ("headline", .string "News"), ("subject", .null),
    ("tags__id", .ofNat 5), ("tags__name", .string "lean")],
   [("id", .ofNat 2), ("headline", .null), ("subject", .string "Memo"),
    ("tags__id", .null), ("tags__name", .null)]]

/-- The items that the rows are nested into. -/
def nestedItems : Json :=
  .array
    [.object
       [("id", .ofNat 1),
        ("tags@Post", .array [.object [("id", .ofNat 5), ("name", .string "lean")]]),
        ("title@Note", .null), ("title@Post", .string "News")],
     .object
       [("id", .ofNat 2), ("tags@Post", .array []), ("title@Note", .string "Memo"),
        ("title@Post", .null)]]

/-- Each item has the title of its type; the tags are there for both. -/
def resolvedItems : Json :=
  .array
    [.object
       [("id", .ofNat 1), ("tags", .array [.object [("id", .ofNat 5), ("name", .string "lean")]]),
        ("title", .string "News")],
     .object [("id", .ofNat 2), ("tags", .array []), ("title", .string "Memo")]]

theorem resolveUnions_resolves_titledItems :
    (∀ table ∈ titledItems.subtree, table.Unambiguous) ∧ PlainRows titledRows ∧
      titledItems.shape.nest titledRows = nestedItems ∧
      Resolved titledItems nestedItems resolvedItems ∧
      titledItems.resolveUnions resolvedItems = resolvedItems := by
  have hroot : ∀ table ∈ titledItems.subtree, table.Unambiguous := by decide
  have hrows : PlainRows titledRows := by
    intro row hrow cell hcell
    simp only [titledRows, List.mem_cons, List.not_mem_nil, or_false] at hrow
    rcases hrow with rfl | rfl <;>
      simp only [List.mem_cons, List.not_mem_nil, or_false] at hcell <;>
      rcases hcell with rfl | rfl | rfl | rfl | rfl <;> rfl
  have hnested : titledItems.shape.nest titledRows = nestedItems := by rfl
  have hresolved : titledItems.resolveUnions nestedItems = resolvedItems := by rfl
  obtain ⟨hplain, hresolves⟩ := resolveUnions_resolves hroot
  obtain ⟨hall, hagain⟩ := hresolves _ (hplain titledRows hrows)
  rw [hnested, hresolved] at hall hagain
  exact ⟨hroot, hrows, hnested, hall, hagain⟩

end Plan

end JoinPlan
