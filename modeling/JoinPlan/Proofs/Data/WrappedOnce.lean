import JoinPlan.Proofs.Data.Connecting
import JoinPlan.Proofs.Data.FoldedLists
import JoinPlan.Proofs.Paging.NumberedWalk
import JoinPlan.Proofs.Plan.Sound
import JoinPlan.Proofs.Plan.WellFormed

/-!
# Lists wrapped once

Connections are built table by table, not field by field, so a field that several joined
children share would be wrapped for each of them.  Where no two joined children of a table
share a field, every list of a paginated table becomes one connection, and the rows in it are
those of the list with the connections below them built in the same way.
-/

namespace JoinPlan

/-- An object with the properties of a connection. -/
def Json.IsConnection (value : Json) : Prop :=
  (value.get? "edges").isSome = true ∧ (value.get? "pageInfo").isSome = true

namespace Plan

open Paging (nodes)

/-! ### What a connection is made of -/

/-- A connection that shows rows from the first on, perhaps turned around. -/
structure Wraps (rows : List Json) (connection : Json) : Prop where
  edges : ∃ edges, connection.get? "edges" = some (.array edges)
  pageInfo : (connection.get? "pageInfo").isSome = true
  nodes : ∃ count, nodes connection = rows.take count ∨
    nodes connection = (rows.take count).reverse

theorem wraps_overSortKey (args : PageArguments) (columns : List String) (rows : List Json) :
    Wraps rows (Connection.overSortKey args columns rows) where
  edges := by
    simp [Connection.overSortKey, Json.ofMembers, Json.get?, Assoc.get?_sorted, Assoc.last?_cons]
  pageInfo := by
    simp [Connection.overSortKey, Json.ofMembers, Json.get?, Assoc.get?_sorted, Assoc.last?_cons]
  nodes := by
    rw [Paging.nodes_overSortKey, Connection.keyedPage]
    split
    · exact ⟨_, .inl rfl⟩
    · exact ⟨_, .inr rfl⟩
    · exact ⟨rows.length, .inl (List.take_length).symm⟩

theorem wraps_showing (offset : Nat) (rows : List Json) (count : Nat) (onward : Bool)
    (total : Nat) : Wraps rows (Paging.showing offset (rows.take count) onward total) where
  edges := by
    simp [Paging.showing, Json.ofMembers, Json.get?, Assoc.get?_sorted, Assoc.last?_cons]
  pageInfo := by
    simp [Paging.showing, Json.ofMembers, Json.get?, Assoc.get?_sorted, Assoc.last?_cons]
  nodes := ⟨count, .inl (Paging.nodes_showing offset (rows.take count) onward total)⟩

theorem wraps_overOrdering {args : PageArguments} {rows : List Json} {connection : Json}
    (h : Connection.overOrdering args rows = .ok connection) : Wraps rows connection := by
  obtain ⟨offset, -, hconnection⟩ := bind_eq_ok.mp h
  obtain rfl := Except.ok.inj hconnection
  exact wraps_showing offset rows _ _ _

theorem wraps_connection {info : TableInfo} (hsorted : info.Sorted)
    (hpaginate : info.paginate = true) {data connection : Json}
    (h : info.connection data = .ok connection) : Wraps (rowsOf data) connection := by
  obtain ⟨args, -, h⟩ := bind_eq_ok.mp h
  cases hkey : info.effectiveSortKey? with
  | some terms =>
      simp only [hkey] at h
      obtain rfl := Except.ok.inj h
      exact wraps_overSortKey args _ _
  | none =>
      obtain ⟨terms, horder⟩ := Option.isSome_iff_exists.mp (hsorted.paginated hpaginate hkey)
      simp only [hkey, horder] at h
      exact wraps_overOrdering h

/-! ### Joined children one after the other -/

theorem rel_of_getElem? {A B : Type} {R : A → B → Prop} {items : List A} {others : List B}
    (h : List.Forall₂ R items others) {index : Nat} {item : A} {other : B}
    (hitem : items[index]? = some item) (hother : others[index]? = some other) :
    R item other := by
  obtain ⟨hindex, rfl⟩ := List.getElem?_eq_some_iff.mp hitem
  obtain ⟨hsame, rfl⟩ := List.getElem?_eq_some_iff.mp hother
  exact (List.forall₂_iff_get.mp h).2 index hindex hsame

/-- Builds the connections of the joined children, each in its field. -/
def connectBelow : List (Table Node) → Object → Except RequestError Object
  | [], object => .ok object
  | child :: rest, object => do
      let object ← onPropertyM child.info.fieldName child.connect object
      connectBelow rest object

theorem connectNodes_eq (nodes : List Node) (object : Object) :
    connectNodes nodes object = connectBelow
      ((nodes.filterMap Node.table?).filter fun child => !child.info.isBoundary) object := by
  induction nodes generalizing object with
  | nil => rfl
  | cons node rest ih =>
      simp only [connectNodes, ih]
      cases node with
      | table child =>
          rw [filterMap_table?_cons, Node.connect]
          cases hboundary : child.info.isBoundary
          · rw [List.filter_cons_of_pos (by simp [hboundary]), if_neg (by simp)]
            rfl
          · rw [List.filter_cons_of_neg (by simp [hboundary]), if_pos rfl]
            rfl
      | column | dependencies | composite | expression | nothing => rfl

theorem connectBelow_append (first second : List (Table Node)) (object : Object) :
    connectBelow (first ++ second) object =
      connectBelow first object >>= connectBelow second := by
  induction first generalizing object with
  | nil => rfl
  | cons child rest ih =>
      simp only [List.cons_append, connectBelow, ih, bind_assoc]

theorem connectBuckets_eq (buckets : List (String × List Node)) (object : Object) :
    connectBuckets buckets object = connectNodes (buckets.flatMap Prod.snd) object := by
  induction buckets generalizing object with
  | nil => rfl
  | cons bucket rest ih =>
      cases bucket with
      | mk type nodes =>
          simp only [connectBuckets, connectBucket, ih, connectNodes_eq, List.flatMap_cons,
            List.filterMap_append, List.filter_append, connectBelow_append]

namespace Table

theorem connectChildren_object (table : Table Node) (members : Object) :
    table.connectChildren (.object members) =
      (connectBelow table.joinedChildren members >>= fun after => .ok (.object after)) := by
  obtain ⟨info, shared, typed⟩ := table
  rw [connectChildren, onObjectsM]
  simp only [connectBuckets_eq, connectNodes_eq, joinedChildren, tables, children,
    List.filterMap_append, List.filter_append, connectBelow_append]
  rfl

theorem connectChildren_scalar (table : Table Node) {value : Json} (harray : value.array? = none)
    (hobject : value.object? = none) : table.connectChildren value = .ok value := by
  obtain ⟨info, shared, typed⟩ := table
  cases value with
  | array items => cases harray
  | object members => cases hobject
  | null | bool | number | string => rfl

/-- The connections of a list are built item by item. -/
theorem connectChildren_array {table : Table Node} {items : List Json} {after : Json}
    (h : table.connectChildren (.array items) = .ok after) :
    ∃ connected, after = .array connected ∧
      List.Forall₂ (fun item row => table.connectChildren item = .ok row) items connected := by
  obtain ⟨info, shared, typed⟩ := table
  rw [connectChildren, onObjectsM] at h
  obtain ⟨connected, hitems, hafter⟩ := bind_eq_ok.mp h
  refine ⟨connected, (Except.ok.inj hafter).symm, ?_⟩
  clear h hafter
  induction items generalizing connected with
  | nil =>
      obtain rfl := Except.ok.inj hitems
      exact .nil
  | cons item rest ih =>
      obtain ⟨first, hfirst, hothers⟩ := bind_eq_ok.mp hitems
      obtain ⟨others, hrest, hconnected⟩ := bind_eq_ok.mp hothers
      obtain rfl := Except.ok.inj hconnected
      exact .cons hfirst (ih others hrest)

end Table

/-! ### What the object holds then -/

section Object

variable {object after : Object}

/-- One property is changed, if it is there, and the others stay. -/
structure ChangesAt (name : String) (change : Json → Except RequestError Json)
    (object after : Object) : Prop where
  beside : ∀ key, key ≠ name → Assoc.get? key after = Assoc.get? key object
  absent : Assoc.get? name object = none → Assoc.get? name after = none
  there : ∀ value, Assoc.get? name object = some value →
    ∃ changed, change value = .ok changed ∧ Assoc.get? name after = some changed

theorem changesAt_onPropertyM {name : String} {change : Json → Except RequestError Json}
    (h : onPropertyM name change object = .ok after) : ChangesAt name change object after := by
  unfold onPropertyM at h
  split at h
  · rename_i hnone
    obtain rfl := Except.ok.inj h
    exact ⟨fun _ _ => rfl, id, fun value hvalue => by simp [hnone] at hvalue⟩
  · rename_i value hvalue
    obtain ⟨changed, hchanged, hafter⟩ := bind_eq_ok.mp h
    obtain rfl := Except.ok.inj hafter
    refine ⟨fun key hkey => ?_, fun hnone => ?_, fun other hother => ⟨changed, ?_, ?_⟩⟩
    · rw [Assoc.get?_insert, if_neg (Ne.symm hkey)]
    · simp [hnone] at hvalue
    · rwa [Option.some.inj (hother.symm.trans hvalue)]
    · rw [Assoc.get?_insert, if_pos rfl]

/-- What the tables of a field make of the field's value, one after the other. -/
def connectField : List (Table Node) → Json → Except RequestError Json
  | [], value => .ok value
  | child :: rest, value => do
      let value ← child.connect value
      connectField rest value

/-- The value of a property goes through all tables of its field. -/
theorem get?_connectBelow {children : List (Table Node)}
    (h : connectBelow children object = .ok after) {key : String} {value : Json}
    (hvalue : Assoc.get? key object = some value) :
    ∃ connected,
      connectField (children.filter fun child => child.info.fieldName = key) value =
        .ok connected ∧ Assoc.get? key after = some connected := by
  induction children generalizing object value with
  | nil => exact ⟨value, rfl, Except.ok.inj h ▸ hvalue⟩
  | cons child rest ih =>
      obtain ⟨between, hfirst, hrest⟩ := bind_eq_ok.mp h
      have hchanged := changesAt_onPropertyM hfirst
      by_cases hkey : child.info.fieldName = key
      · subst hkey
        obtain ⟨changed, hconnect, hbetween⟩ := hchanged.there value hvalue
        obtain ⟨connected, hfield, hget⟩ := ih hrest hbetween
        rw [List.filter_cons_of_pos (by simp)]
        exact ⟨connected, bind_eq_ok.mpr ⟨changed, hconnect, hfield⟩, hget⟩
      · rw [List.filter_cons_of_neg (by simpa using hkey)]
        exact ih hrest ((hchanged.beside key (Ne.symm hkey)).trans hvalue)

/-- No property is added or lost. -/
theorem isSome_get?_connectBelow {children : List (Table Node)}
    (h : connectBelow children object = .ok after) (key : String) :
    (Assoc.get? key after).isSome = (Assoc.get? key object).isSome := by
  induction children generalizing object with
  | nil => rw [Except.ok.inj h]
  | cons child rest ih =>
      obtain ⟨between, hfirst, hrest⟩ := bind_eq_ok.mp h
      have hchanged := changesAt_onPropertyM hfirst
      rw [ih hrest]
      by_cases hkey : key = child.info.fieldName
      · subst hkey
        cases hvalue : Assoc.get? child.info.fieldName object with
        | none => rw [hchanged.absent hvalue]
        | some value =>
            obtain ⟨connected, -, hbetween⟩ := hchanged.there value hvalue
            rw [hbetween]
            rfl
      · rw [hchanged.beside key hkey]

end Object

/-! ### Connected data -/

mutual

/-- The data after connections were built below a table's own list, against the data before. -/
inductive ConnectedBelow : Table Node → Json → Json → Prop
  | scalar {table : Table Node} {value : Json} (not_array : value.array? = none)
      (not_object : value.object? = none) : ConnectedBelow table value value
  | array {table : Table Node} {items connected : List Json}
      (length : connected.length = items.length)
      (each : ∀ (index : Nat) item row, items[index]? = some item →
        connected[index]? = some row → ConnectedBelow table item row) :
      ConnectedBelow table (.array items) (.array connected)
  | object {table : Table Node} {before after : Object}
      (there : ∀ key, (Assoc.get? key after).isSome = (Assoc.get? key before).isSome)
      (fields : ∀ key value connected, Assoc.get? key before = some value →
        Assoc.get? key after = some connected →
        ConnectedBy (table.joinedChildren.filter fun child => child.info.fieldName = key)
          value connected) :
      ConnectedBelow table (.object before) (.object after)

/-- The value of a property that some joined children have for their field: it is connected for
each of them in turn, and stays as it is if there is none. -/
inductive ConnectedBy : List (Table Node) → Json → Json → Prop
  | unchanged {value : Json} : ConnectedBy [] value value
  | next {child : Table Node} {rest : List (Table Node)} {value between connected : Json}
      (first : Connected child value between) (others : ConnectedBy rest between connected) :
      ConnectedBy (child :: rest) value connected

/-- The value of a table's field afterwards against the one before: connections are built
below each row, and the rows of a paginated table are made one connection, whose nodes are
connections only if the rows of the list were. -/
inductive Connected : Table Node → Json → Json → Prop
  | plain {table : Table Node} {value connected : Json} (paginate : table.info.paginate = false)
      (below : ConnectedBelow table value connected) : Connected table value connected
  | paged {table : Table Node} {value connection : Json} {rows : List Json}
      (paginate : table.info.paginate = true) (length : rows.length = (rowsOf value).length)
      (each : ∀ (index : Nat) item row, (rowsOf value)[index]? = some item →
        rows[index]? = some row → ConnectedBelow table item row)
      (alike : ∀ (index : Nat) item row, (rowsOf value)[index]? = some item →
        rows[index]? = some row → (row.IsConnection ↔ item.IsConnection))
      (wraps : Wraps rows connection) : Connected table value connection

end

/-- A field of one joined child is connected once. -/
theorem connectedBy_singleton {child : Table Node} {value connected : Json} :
    ConnectedBy [child] value connected ↔ Connected child value connected := by
  constructor
  · intro h
    cases h with
    | next first others =>
        cases others
        exact first
  · exact fun h => .next h .unchanged

/-- Building connections below an object makes it no connection. -/
theorem ConnectedBelow.isConnection_iff {table : Table Node} {value connected : Json}
    (h : ConnectedBelow table value connected) :
    connected.IsConnection ↔ value.IsConnection := by
  cases h with
  | scalar => rfl
  | array => simp [Json.IsConnection, Json.get?]
  | object there => simp only [Json.IsConnection, Json.get?, there]

section Table

variable {table : Table Node}

/-- What each row of a value becomes, when the connections below it are built. -/
theorem rowsOf_connectChildren {value connected : Json}
    (h : table.connectChildren value = .ok connected) :
    List.Forall₂ (fun item row => table.connectChildren item = .ok row)
      (rowsOf value) (rowsOf connected) := by
  cases value with
  | null =>
      rw [table.connectChildren_scalar rfl rfl] at h
      obtain rfl := Except.ok.inj h
      exact .nil
  | bool | number | string =>
      have hsame := h
      rw [table.connectChildren_scalar rfl rfl] at hsame
      obtain rfl := Except.ok.inj hsame
      exact .cons h .nil
  | array items =>
      obtain ⟨rows, rfl, hrows⟩ := Table.connectChildren_array h
      exact hrows
  | object members =>
      have hrows := h
      rw [table.connectChildren_object] at hrows
      obtain ⟨after, -, hafter⟩ := bind_eq_ok.mp hrows
      obtain rfl := Except.ok.inj hafter
      exact .cons h .nil

/-- A table whose list is connected like this, if it is connected at all. -/
theorem connected_of_connect (hsorted : table.info.Sorted)
    (hbelow : ∀ {value connected}, table.connectChildren value = .ok connected →
      ConnectedBelow table value connected) {value connected : Json}
    (h : table.connect value = .ok connected) : Connected table value connected := by
  obtain ⟨between, hchildren, h⟩ := bind_eq_ok.mp h
  split at h
  · rename_i hpaginate
    have hrows := rowsOf_connectChildren hchildren
    have heach : ∀ (index : Nat) item row, (rowsOf value)[index]? = some item →
        (rowsOf between)[index]? = some row → ConnectedBelow table item row :=
      fun _ _ _ hitem hrow => hbelow (rel_of_getElem? hrows hitem hrow)
    exact .paged hpaginate hrows.length_eq.symm heach
      (fun index item row hitem hrow => (heach index item row hitem hrow).isConnection_iff)
      (wraps_connection hsorted hpaginate h)
  · rename_i hpaginate
    obtain rfl := Except.ok.inj h
    exact .plain (Bool.not_eq_true _ ▸ hpaginate) (hbelow hchildren)

theorem connectedBy_of_connectField {children : List (Table Node)}
    (hchildren : ∀ child ∈ children, ∀ value connected,
      child.connect value = .ok connected → Connected child value connected)
    {value connected : Json} (h : connectField children value = .ok connected) :
    ConnectedBy children value connected := by
  induction children generalizing value with
  | nil =>
      obtain rfl := Except.ok.inj h
      exact .unchanged
  | cons child rest ih =>
      obtain ⟨between, hfirst, hrest⟩ := bind_eq_ok.mp h
      rw [List.forall_mem_cons] at hchildren
      exact .next (hchildren.1 value between hfirst) (ih hchildren.2 hrest)

theorem connectedBelow_object
    (hchildren : ∀ child ∈ table.joinedChildren, ∀ value connected,
      child.connect value = .ok connected → Connected child value connected)
    {members : Object} {connected : Json}
    (h : table.connectChildren (.object members) = .ok connected) :
    ConnectedBelow table (.object members) connected := by
  rw [table.connectChildren_object] at h
  obtain ⟨after, hafter, hconnected⟩ := bind_eq_ok.mp h
  obtain rfl := Except.ok.inj hconnected
  refine .object (isSome_get?_connectBelow hafter) fun key value connected hvalue hget => ?_
  obtain ⟨built, hbuilt, hbuiltGet⟩ := get?_connectBelow hafter hvalue
  obtain rfl := Option.some.inj (hbuiltGet.symm.trans hget)
  exact connectedBy_of_connectField
    (fun child hchild => hchildren child (List.mem_filter.mp hchild).1) hbuilt

/-- What comes out of building connections, in a tree whose paginated tables are sorted. -/
theorem connectedBelow_of_connectChildren
    (hsorted : ∀ inner ∈ table.subtree, inner.info.Sorted) {value connected : Json}
    (h : table.connectChildren value = .ok connected) : ConnectedBelow table value connected := by
  induction table using Table.induction generalizing value connected with
  | step table ih =>
      have hchildren : ∀ child ∈ table.joinedChildren, ∀ value connected,
          child.connect value = .ok connected → Connected child value connected := by
        intro child hchild value connected hconnect
        have hmem := (Table.mem_joinedChildren.mp hchild).1
        have hinner : ∀ inner ∈ child.subtree, inner.info.Sorted := fun inner h =>
          hsorted inner (Table.mem_subtree_of_mem_tables hmem h)
        exact connected_of_connect (hinner child child.mem_subtree_self) (ih child hmem hinner)
          hconnect
      induction value generalizing connected with
      | null | bool value | number value | string value =>
          rw [table.connectChildren_scalar rfl rfl] at h
          obtain rfl := Except.ok.inj h
          exact .scalar rfl rfl
      | array items hitems =>
          obtain ⟨rows, rfl, hrows⟩ := Table.connectChildren_array h
          refine .array hrows.length_eq.symm fun index item row hitem hrow => ?_
          exact hitems item (List.mem_of_getElem? hitem) (rel_of_getElem? hrows hitem hrow)
      | object members _ => exact connectedBelow_object hchildren h

end Table

/-- In every plan a list is made a connection once for each paginated table that is joined in
its field: its nodes are then rows of the list, with the connections below them built, and
none of them is a connection that was none before.  So the fields of one joined table are
wrapped once, and a list that several tables have for their field is wrapped for each.  That
connections are built at all is certain once the text of the statement was written. -/
theorem Compiled.connects_once {env : Environment} {minify : Bool} {root table : Table Node}
    (hroot : Compiled env minify root) (htable : table ∈ root.subtree) (data : Json) :
    (∀ connected, table.connect data = .ok connected → Connected table data connected) ∧
      (∀ ctx text, table.statementText ctx = .ok text →
        ∃ connected, table.connect data = .ok connected) ∧
      ∀ child value connected, ConnectedBy [child] value connected ↔
        Connected child value connected := by
  have hsorted : ∀ inner ∈ table.subtree, inner.info.Sorted := fun inner hinner =>
    (hroot.sound inner ((Table.subtree_sublist table htable).subset hinner)).provided.sorted
  refine ⟨fun connected h => ?_, fun ctx text htext => ?_, fun _ _ _ => connectedBy_singleton⟩
  · exact connected_of_connect (hsorted table table.mem_subtree_self)
      (connectedBelow_of_connectChildren hsorted) h
  · exact table.connect_of_joined (connects_of_statementText htext) data

/-! ### Pages of tags -/

/-- A page of joined tags over a sort key. -/
def pageOptions (condition : String) : FieldOptions :=
  { joinOptions condition with
    sqlPaginate := true
    sortKey := some (.literal (.key "asc" (.one "id"))) }

/-- The types around the tags of a connection. -/
def tagConnection : List (String × TypeDefinition) :=
  [("TagEdge", { tableType "" [("node", plainField (.named "Tag"))] with table := none }),
   ("Tags", { tableType "" [("edges", plainField (.list (.named "TagEdge"))),
      ("pageInfo", plainField (.named "PageInfo"))] with table := none })]

/-- The selection of a page of one tag. -/
def firstTag : Selection :=
  .field "tags" [("first", .number (.int 1))]
    [.field "edges" [] [.field "node" [] [.field "name" [] []]]]

def pagedTags (aliasName condition : String) : Table Node where
  info := { (itemTags aliasName condition).info with
    args := [("first", .number (.int 1))]
    paginate := true
    sortKey := some [⟨"id", .ascending⟩] }
  shared :=
    [.column (ownedColumn "id"), .column (ownedColumn "id"), .column (ownedColumn "name")]
  typed := []

/-- Items with a page of tags for posts, and one for notes. -/
def pagedItems : Table Node := itemsWith (pagedTags "tags" onPost) (pagedTags "tags$" onNote)

theorem compile_pagedItems :
    compile ⟨itemSchema (.named "Tags") pageOptions tagConnection, .null⟩ false
        (tagsOfBoth firstTag) = .ok pagedItems := by
  cbv

/-- A post with its tag, after the unions were resolved. -/
def resolvedPost : Json := .array [.object [("id", .ofNat 1), ("tags", .array [leanTag])]]

/-- The tags of posts are made a connection once by their own table, whatever comes of those
of notes. -/
theorem connects_once_pagedItems :
    Compiled ⟨itemSchema (.named "Tags") pageOptions tagConnection, .null⟩ false pagedItems ∧
      pagedTags "tags" onPost ∈ pagedItems.subtree ∧
      (∃ connected, pagedItems.connect resolvedPost = .ok connected) ∧
      ∃ connection, (pagedTags "tags" onPost).connect (.array [leanTag]) = .ok connection ∧
        Connected (pagedTags "tags" onPost) (.array [leanTag]) connection ∧
        nodes connection = [leanTag] := by
  have hroot : Compiled ⟨itemSchema (.named "Tags") pageOptions tagConnection, .null⟩ false
      pagedItems := .request compile_pagedItems
  have htags : pagedTags "tags" onPost ∈ pagedItems.subtree :=
    List.mem_cons_of_mem _ List.mem_cons_self
  obtain ⟨text, htext⟩ : ∃ text, pagedItems.statementText postgresContext = .ok text := ⟨_, rfl⟩
  obtain ⟨-, hconnects, -⟩ :=
    Compiled.connects_once hroot pagedItems.mem_subtree_self resolvedPost
  obtain ⟨hconnected, -, -⟩ := Compiled.connects_once hroot htags (.array [leanTag])
  obtain ⟨connection, hconnection, hnodes⟩ : ∃ connection,
      (pagedTags "tags" onPost).connect (.array [leanTag]) = .ok connection ∧
        nodes connection = [leanTag] := ⟨_, rfl, rfl⟩
  exact ⟨hroot, htags, hconnects _ text htext, connection, hconnection,
    hconnected connection hconnection, hnodes⟩

/-- A list of tags that both types select is wrapped for each of them: the only node of the
connection is a connection, though the tag in the list was none. -/
theorem exists_connection_of_connection :
    ∃ root object connection inner,
      compile ⟨itemSchema (.named "Tags") pageOptions tagConnection, .null⟩ false
          (tagsOfBoth firstTag) = .ok root ∧
        root.resolveUnions (root.shape.nest [postRow]) = resolvedPost ∧
        root.connect resolvedPost = .ok (.array [.object object]) ∧
        Assoc.get? "tags" object = some connection ∧ nodes connection = [inner] ∧
        inner.IsConnection ∧ nodes inner = [leanTag] ∧ ¬ leanTag.IsConnection :=
  ⟨pagedItems, _, _, _, compile_pagedItems, rfl, rfl, rfl, rfl, ⟨rfl, rfl⟩, rfl,
    by simp [Json.IsConnection, leanTag, Json.get?, Assoc.get?]⟩

end Plan

end JoinPlan
