import JoinPlan.Proofs.LastValue
import JoinPlan.Proofs.Plan.Arrangement
import JoinPlan.Proofs.Plan.OneMeaning
import JoinPlan.Proofs.Plan.ShapeColumns

/-!
# The properties of selected fields

The children of a table insert the properties of its objects one after the other, and under one
name the last stands.  What a table is set up with comes before all selected fields, and all its
shared columns of one name are one property, so these replace nothing.  What comes later does:
a table that is joined as a field loses the field's property to a column of that name a later
field is computed from, to the key of a batch, and to another field.
-/

namespace JoinPlan.Plan

/-- The property made from a field itself: a column's, or the object of a table that is joined. -/
def Node.ownProperty? (path : List String) : Node → Option Property
  | .column node => some (.column (outputAlias path node.aliasName))
  | .composite _ _ aliasName _ => some (.column (outputAlias path aliasName))
  | .expression _ _ aliasName _ _ => some (.column (outputAlias path aliasName))
  | .table child =>
      if child.info.isBoundary then none
      else some (.object child.info.many (child.properties (path ++ [child.info.aliasName])))
  | .dependencies _ _ => none
  | .nothing => none

theorem Node.properties_of_own {path : List String} {node : Node} {fieldName : String}
    {own : Property} (hname : node.fieldName? = some fieldName)
    (hown : node.ownProperty? path = some own) (type : Option String) :
    node.properties path type = [(fieldName ++ typeMark type, own)] := by
  cases node with
  | column | composite | expression =>
      obtain rfl := Option.some.inj hname
      obtain rfl := Option.some.inj hown
      rfl
  | table child =>
      obtain rfl := Option.some.inj hname
      rw [ownProperty?] at hown
      split at hown
      · cases hown
      · rename_i hboundary
        have hkeys : child.info.batchKeys? = none := by
          simpa [TableInfo.isBoundary] using hboundary
        obtain rfl := Option.some.inj hown
        rw [properties, hkeys]
  | dependencies | nothing => cases hname

/-- Whether what comes later under a name, if anything does, is a property again. -/
def LeavesInPlace (name : String) (own : Property) (later : List (String × Property)) : Prop :=
  ∀ other, Assoc.last? name later = some other → other = own

theorem get?_distinct_iff {name : String} {own : Property}
    {entries before later : List (String × Property)}
    (h : entries = before ++ (name, own) :: later) :
    Assoc.get? name (Assoc.distinct entries) = some own ↔ LeavesInPlace name own later := by
  rw [h, Assoc.get?_distinct, Assoc.last?_append, Assoc.last?_cons, if_pos rfl, LeavesInPlace]
  cases Assoc.last? name later with
  | none => simp
  | some other => simp

section Table

variable {table : Table Node} {path : List String} {child : Node}

/-- Whether a child's property is its table's under the child's name exactly if what is inserted
later leaves it in place. -/
def Table.KeepsUnless (table : Table Node) (path : List String) (type : Option String)
    (child : Node) (later : List (String × Property)) : Prop :=
  ∀ fieldName own, child.fieldName? = some fieldName → child.ownProperty? path = some own →
    (Assoc.get? (fieldName ++ typeMark type) (table.properties path) = some own ↔
      LeavesInPlace (fieldName ++ typeMark type) own later)

theorem Table.keepsUnless_of_inserted {type : Option String}
    {before later : List (String × Property)}
    (h : table.insertedProperties path = before ++ child.properties path type ++ later) :
    table.KeepsUnless path type child later := by
  intro fieldName own hname hown
  rw [child.properties_of_own hname hown, List.append_assoc] at h
  rw [table.properties_eq_distinct]
  exact get?_distinct_iff h

theorem Table.keepsUnless_shared {before after : List Node}
    (h : table.shared = before ++ child :: after) :
    table.KeepsUnless path none child
      (nodesProperties path none after ++ bucketsProperties path table.typed) := by
  apply keepsUnless_of_inserted
  · rw [insertedProperties, h]
    simp only [nodesProperties_eq_flatMap, List.flatMap_append, List.flatMap_cons,
      List.append_assoc]
    rfl

theorem Table.keepsUnless_typed {buckets others : List (String × List Node)} {type : String}
    {before after : List Node}
    (h : table.typed = buckets ++ (type, before ++ child :: after) :: others) :
    table.KeepsUnless path (some type) child
      (nodesProperties path (some type) after ++ bucketsProperties path others) := by
  apply keepsUnless_of_inserted
  · rw [insertedProperties, h]
    simp only [nodesProperties_eq_flatMap, bucketsProperties_eq_flatMap, List.flatMap_append,
      List.flatMap_cons, ← List.append_assoc]
    rfl

/-- A column among the properties of a shared child has the alias of a named column. -/
theorem Node.exists_columnEntries {name aliasName : String}
    (h : (name, .column aliasName) ∈ child.properties path none) :
    ∃ entry ∈ child.columnEntries, entry.1 = name ∧ outputAlias path entry.2 = aliasName := by
  cases child with
  | column | composite | expression =>
      simp only [properties, typeMark, String.append_empty, List.mem_singleton, Prod.mk.injEq,
        Property.column.injEq] at h
      exact ⟨_, List.mem_singleton_self _, h.1.symm, h.2.symm⟩
  | dependencies columns owner =>
      obtain ⟨entry, hentry, heq⟩ := List.mem_map.mp h
      simp only [typeMark, String.append_empty, Prod.mk.injEq, Property.column.injEq] at heq
      exact ⟨entry, hentry, heq⟩
  | table inner =>
      rw [properties] at h
      rw [columnEntries]
      cases hkeys : inner.info.batchKeys? with
      | none => simp [hkeys] at h
      | some keys =>
          simp only [hkeys, typeMark, String.append_empty, List.mem_singleton, Prod.mk.injEq,
            Property.column.injEq] at h
          exact ⟨_, List.mem_singleton_self _, h.1.symm, h.2.symm⟩
  | nothing => cases h

theorem Table.Arranged.column_eq {env : Environment} (h : table.Arranged env) {other : Node}
    (hchild : child ∈ table.shared) (hother : other ∈ table.shared) {name first second : String}
    (hfirst : (name, .column first) ∈ child.properties path none)
    (hsecond : (name, .column second) ∈ other.properties path none) : first = second := by
  obtain ⟨names, hnamed⟩ := h.named
  obtain ⟨entry, hentry, hname, rfl⟩ := Node.exists_columnEntries hfirst
  obtain ⟨found, hfound, hsame, rfl⟩ := Node.exists_columnEntries hsecond
  have heq := (hnamed child hchild entry hentry).alias_eq (hnamed other hother found hfound)
    (hname.trans hsame.symm)
  rw [heq]

end Table

/-- In a table of a plan a selected field keeps its property exactly if the ones inserted later
leave it in place: those of the fields selected after it, of the key of its batches, of merged
dependencies and, for a shared field, of the concrete types.  What the table was set up with
comes before all of them, and no shared column replaces another one's property. -/
theorem Compiled.selected_properties {env : Environment} {minify : Bool} {root table : Table Node}
    (hroot : Compiled env minify root) (htable : table ∈ root.subtree) (path : List String) :
    (∃ opening early late merged, OpensWith env table.info opening ∧
      table.shared = opening ++ (early ++ lastColumns table.info none ++ late) ++ merged ∧
      IsMerged none (early ++ late) merged ∧
      ∀ before child after,
        early ++ lastColumns table.info none ++ late = before ++ child :: after →
          table.KeepsUnless path none child
            (nodesProperties path none (after ++ merged) ++ bucketsProperties path table.typed)) ∧
    (∀ child ∈ table.shared, ∀ other ∈ table.shared, ∀ name first second,
      (name, .column first) ∈ child.properties path none →
        (name, .column second) ∈ other.properties path none → first = second) ∧
    ∀ buckets type nodes others, table.typed = buckets ++ (type, nodes) :: others →
      ∃ selected merged, nodes = selected ++ merged ∧ IsMerged (some type) selected merged ∧
        ∀ before child after, selected = before ++ child :: after →
          table.KeepsUnless path (some type) child
            (nodesProperties path (some type) (after ++ merged) ++
              bucketsProperties path others) := by
  have harranged := hroot.arranged table htable
  refine ⟨?_, fun child hchild other hother name first second hfirst hsecond =>
    harranged.column_eq hchild hother hfirst hsecond, ?_⟩
  · obtain ⟨opening, early, late, merged, hopens, hshared, hmerged⟩ := harranged.shared
    refine ⟨opening, early, late, merged, hopens, hshared, hmerged,
      fun before child after hsplit => ?_⟩
    have hchild : table.shared = (opening ++ before) ++ child :: (after ++ merged) := by
      rw [hshared, hsplit]
      simp only [List.append_assoc, List.cons_append]
    exact Table.keepsUnless_shared hchild
  · intro buckets type nodes others htyped
    obtain ⟨selected, merged, hnodes, hmerged⟩ :=
      harranged.typed (type, nodes) (htyped ▸ List.mem_append_right _ List.mem_cons_self)
    refine ⟨selected, merged, hnodes, hmerged, fun before child after hsplit => ?_⟩
    have hnodes : nodes = before ++ child :: (after ++ merged) := by
      rw [← List.cons_append, ← List.append_assoc, ← hsplit]
      exact hnodes
    exact Table.keepsUnless_typed (hnodes ▸ htyped)

/-! ### A byline beside an author -/

def authorRelation : FieldOptions :=
  { FieldOptions.empty with
    sqlJoin := some (.template "\x7bparent\x7d.author_id = \x7bchild\x7d.id") }

/-- Posts among other items, with an author and a byline computed from columns. -/
def bylineSchema (columns : List String) : Schema where
  types :=
    [("Item", { tableType "items" [("title", plainField (.named "String"))] with
        kind := .interface
        possibleTypes := ["Post"] }),
     ("Post", { tableType "items" [("author", ⟨.named "User", authorRelation⟩),
        ("byline", ⟨.named "String", { FieldOptions.empty with sqlDeps := some columns }⟩),
        ("title", plainField (.named "String"))] with interfaces := ["Item"] }),
     ("Query", { tableType "" [("items", plainField (.list (.named "Item"))),
        ("posts", plainField (.list (.named "Post")))] with table := none }),
     ("User", tableType "users" [("name", plainField (.named "String"))])]

def bylineSelections : List Selection :=
  [.field "author" [] [.field "name" [] []], .field "byline" [] []]

def bylineRequest (field : String) (selections : List Selection) : Request where
  parentType := "Query"
  fields := [⟨field, [], selections⟩]
  fragments := []

/-- The joined author of a post. -/
def authorTable : Table Node where
  info := { plainInfo "author" "author" false
      (some (.join (.template "\x7bparent\x7d.author_id = \x7bchild\x7d.id"))) with
    typeName := "User"
    reference := "users" }
  shared := [.column (ownedColumn "id"), .column (ownedColumn "name")]
  typed := []

/-- Items with the authors and bylines of those that are posts. -/
def itemsPlan : Table Node where
  info := { plainInfo "items" "items" true none with typeName := "Item", isAbstract := true }
  shared := [.column (ownedColumn "id"), .column (ownedColumn "title")]
  typed := [("Post", [.table authorTable, .dependencies [("author_id", "author_id")] none])]

theorem compile_itemsPlan :
    compile ⟨bylineSchema ["author_id"], .null⟩ false (bylineRequest "items"
      [.field "title" [] [], .inline (some "Post") bylineSelections]) = .ok itemsPlan := by
  cbv

theorem selected_properties_itemsPlan :
    Compiled ⟨bylineSchema ["author_id"], .null⟩ false itemsPlan ∧
      itemsPlan ∈ itemsPlan.subtree ∧
      Assoc.get? "author@Post" (itemsPlan.properties ["items"]) =
        some (.object false (authorTable.properties ["items", "author"])) := by
  have hcompiled : Compiled ⟨bylineSchema ["author_id"], .null⟩ false itemsPlan :=
    .request compile_itemsPlan
  have htable := itemsPlan.mem_subtree_self
  obtain ⟨-, -, htyped⟩ := Compiled.selected_properties hcompiled htable ["items"]
  obtain ⟨selected, merged, hnodes, hmerged, hkept⟩ := htyped [] "Post" _ [] rfl
  refine ⟨hcompiled, htable, ?_⟩
  -- a table is no dependencies, so it is the first of the selected fields
  cases selected with
  | nil =>
      rw [List.nil_append] at hnodes
      obtain ⟨columns, owner, heq⟩ := hmerged.2 (.table authorTable) (hnodes ▸ List.mem_cons_self)
      cases heq
  | cons first rest =>
      rw [List.cons_append] at hnodes
      obtain ⟨rfl, hrest⟩ := List.cons_eq_cons.mp hnodes
      refine (hkept [] _ rest rfl "author" _ rfl rfl).mpr fun other hother => ?_
      rw [← hrest] at hother
      change none = some other at hother
      cases hother

/-- The posts of a request whose authors and bylines are selected, where a byline needs a column
that is called as the author. -/
def replacedPlan : Table Node where
  info := { plainInfo "posts" "posts" true none with typeName := "Post", reference := "items" }
  shared := [.column (ownedColumn "id"), .table authorTable,
    .dependencies [("author", "author")] none]
  typed := []

/-- A joined author is lost to a column of that name which the byline needs. -/
theorem exists_property_replaced :
    compile ⟨bylineSchema ["author"], .null⟩ false (bylineRequest "posts" bylineSelections) =
        .ok replacedPlan ∧
      Node.table authorTable ∈ replacedPlan.shared ∧ authorTable.info.fieldName = "author" ∧
      (Node.table authorTable).ownProperty? ["posts"] =
        some (.object false (authorTable.properties ["posts", "author"])) ∧
      Assoc.get? "author" replacedPlan.shape.properties = some (.column "author") := by
  refine ⟨by cbv, List.mem_cons_of_mem _ List.mem_cons_self, rfl, rfl, rfl⟩

end JoinPlan.Plan
