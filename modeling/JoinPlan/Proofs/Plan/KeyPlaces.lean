import JoinPlan.Plan.Prune
import JoinPlan.Proofs.Assoc
import JoinPlan.Proofs.Plan.Selected
import JoinPlan.Proofs.Plan.Tree
import Mathlib.Data.List.Forall2

/-!
# Plans that differ in where a key stands

A table fetched in batches has the key of its rows among its children, after what was first
selected on it.  Plans are alike if they differ in the places of such keys alone.  Alike
children hold the tables of the same fields; they stay alike when alike nodes are put among
them, and when dependencies are merged.
-/

namespace JoinPlan.Plan

/-- A list with one more item at some place. -/
inductive Inserted {α : Type} (item : α) : List α → List α → Prop
  | here (rest : List α) : Inserted item rest (item :: rest)
  | later (first : α) {rest longer : List α} (h : Inserted item rest longer) :
      Inserted item (first :: rest) (first :: longer)

theorem Inserted.last {α : Type} (item : α) (items : List α) :
    Inserted item items (items ++ [item]) := by
  induction items with
  | nil => exact .here []
  | cons first rest ih => exact .later first ih

theorem Inserted.append {α : Type} {item : α} {items longer : List α}
    (h : Inserted item items longer) (rest : List α) :
    Inserted item (items ++ rest) (longer ++ rest) := by
  induction h with
  | here items => exact .here (items ++ rest)
  | later first _ ih => exact .later first ih

theorem Inserted.subset {α : Type} {item : α} {items longer : List α}
    (h : Inserted item items longer) : items ⊆ longer := by
  induction h with
  | here items => exact List.subset_cons_self _ _
  | later first _ ih => exact List.cons_subset_cons first ih

/-- Nodes with a key at some place among them, if there is one. -/
def WithKey (key : Option Column) (nodes longer : List Node) : Prop :=
  match key with
  | none => longer = nodes
  | some key => Inserted (.column key) nodes longer

/-- The key on a table's own rows, when the table is fetched in batches, or none. -/
def IsKeyOf (key : Option Column) (info : TableInfo) : Prop :=
  ∀ column ∈ key, ∃ parentKey, info.batchKeys? = some (column, parentKey)

mutual

/-- Trees that differ in nothing but where keys stand among the children of tables fetched in
batches. -/
inductive NodeAlike : Node → Node → Prop
  | same (node : Node) : NodeAlike node node
  | table {info : TableInfo} {key : Option Column} {nodes others shared moved : List Node}
      {typed retyped : List (String × List Node)}
      (hkey : IsKeyOf key info) (hnodes : List.Forall₂ NodeAlike nodes others)
      (hshared : WithKey key nodes shared) (hmoved : WithKey key others moved)
      (htyped : List.Forall₂ BucketAlike typed retyped) :
      NodeAlike (.table ⟨info, shared, typed⟩) (.table ⟨info, moved, retyped⟩)

/-- Alike children of one concrete type. -/
inductive BucketAlike : String × List Node → String × List Node → Prop
  | bucket (type : String) {nodes others : List Node}
      (hnodes : List.Forall₂ NodeAlike nodes others) : BucketAlike (type, nodes) (type, others)

end

theorem nodesAlike_same (nodes : List Node) : List.Forall₂ NodeAlike nodes nodes :=
  List.forall₂_same.mpr fun node _ => .same node

theorem bucketsAlike_same (typed : List (String × List Node)) :
    List.Forall₂ BucketAlike typed typed :=
  List.forall₂_same.mpr fun bucket _ => .bucket bucket.1 (nodesAlike_same bucket.2)

/-! ### Nodes put among others -/

/-- A node in the place of the table of a field, or after the others. -/
def putIn (name : String) (node : Node) (nodes : List Node) : List Node :=
  putNode nodes (nodes.findIdx? (isTableOf name)) node

section PutIn

variable {name : String} {node other : Node}

theorem putIn_nil : putIn name node [] = [node] := rfl

theorem putIn_cons (first : Node) (rest : List Node) :
    putIn name node (first :: rest) =
      if isTableOf name first then node :: rest else first :: putIn name node rest := by
  unfold putIn
  rw [List.findIdx?_cons]
  split
  · rfl
  · cases rest.findIdx? (isTableOf name) <;> rfl

theorem existingTable_cons (first : Node) (rest : List Node) :
    existingTable (first :: rest) name =
      if isTableOf name first then first.table? else existingTable rest name := by
  unfold existingTable existingNode
  rw [List.findIdx?_cons]
  split
  · rfl
  · cases rest.findIdx? (isTableOf name) <;> rfl

/-- A table of a field that is put among others is found there, and replaced. -/
theorem existingTable_putIn (hnode : isTableOf name node = true) (nodes : List Node) :
    existingTable (putIn name node nodes) name = node.table? := by
  induction nodes with
  | nil => rw [putIn_nil, existingTable_cons, if_pos hnode]
  | cons first rest ih =>
      rw [putIn_cons]
      split
      · rw [existingTable_cons, if_pos hnode]
      · rename_i hfirst
        rw [existingTable_cons, if_neg hfirst, ih]

theorem putIn_putIn (hnode : isTableOf name node = true) (nodes : List Node) :
    putIn name other (putIn name node nodes) = putIn name other nodes := by
  induction nodes with
  | nil => rw [putIn_nil, putIn_cons, if_pos hnode, putIn_nil]
  | cons first rest ih =>
      rw [putIn_cons, putIn_cons]
      split
      · rw [putIn_cons, if_pos hnode]
      · rename_i hfirst
        rw [putIn_cons, if_neg hfirst, ih]

theorem WithKey.subset {key : Option Column} {nodes longer : List Node}
    (h : WithKey key nodes longer) : nodes ⊆ longer := by
  cases key with
  | none => exact (h : longer = nodes) ▸ List.Subset.refl _
  | some key => exact Inserted.subset h

theorem WithKey.putIn {key : Option Column} {nodes longer : List Node}
    (h : WithKey key nodes longer) :
    WithKey key (putIn name node nodes) (putIn name node longer) := by
  cases key with
  | none => exact congrArg (Plan.putIn name node) h
  | some key =>
      induction (h : Inserted (.column key) nodes longer) with
      | here rest =>
          rw [putIn_cons]
          exact Inserted.here _
      | later first hrest ih =>
          rw [putIn_cons, putIn_cons]
          split
          · exact Inserted.later node hrest
          · exact Inserted.later first ih

theorem WithKey.existingTable {key : Option Column} {nodes longer : List Node}
    (h : WithKey key nodes longer) :
    existingTable longer name = existingTable nodes name := by
  cases key with
  | none => exact congrArg (fun nodes => Plan.existingTable nodes name) h
  | some key =>
      induction (h : Inserted (.column key) nodes longer) with
      | here rest =>
          rw [existingTable_cons]
          rfl
      | later first hrest ih => rw [existingTable_cons, existingTable_cons, ih]

end PutIn

/-! ### Alike children -/

theorem NodeAlike.isTableOf {node other : Node} (h : NodeAlike node other) (name : String) :
    isTableOf name other = isTableOf name node := by
  cases h <;> rfl

/-- The tables that a field was selected as among alike nodes. -/
theorem existingTable_alike {nodes others : List Node} (h : List.Forall₂ NodeAlike nodes others)
    (name : String) :
    (existingTable nodes name = none ∧ existingTable others name = none) ∨
      ∃ table other, existingTable nodes name = some table ∧
        existingTable others name = some other ∧ table.info.fieldName = name ∧
        NodeAlike (.table table) (.table other) := by
  induction h with
  | nil => exact .inl ⟨rfl, rfl⟩
  | @cons node other rest others hnode _ ih =>
      rw [existingTable_cons, existingTable_cons, hnode.isTableOf]
      split
      · rename_i hfound
        cases hnode with
        | same =>
            cases node with
            | table table => exact .inr ⟨table, table, rfl, rfl, beq_iff_eq.mp hfound, .same _⟩
            | column | dependencies | composite | expression | nothing => cases hfound
        | table hkey hnodes hshared hmoved htyped =>
            exact .inr ⟨_, _, rfl, rfl, beq_iff_eq.mp hfound,
              .table hkey hnodes hshared hmoved htyped⟩
      · exact ih

theorem putIn_alike {nodes others : List Node} (h : List.Forall₂ NodeAlike nodes others)
    {node other : Node} (hnode : NodeAlike node other) (name : String) :
    List.Forall₂ NodeAlike (putIn name node nodes) (putIn name other others) := by
  induction h with
  | nil => exact .cons hnode .nil
  | cons hfirst hrest ih =>
      rw [putIn_cons, putIn_cons, hfirst.isTableOf]
      split
      · exact .cons hnode hrest
      · exact .cons hfirst ih

/-- Nodes that are alike but for a key that may stand among them, on either side. -/
def NodesAlike (key other : Option Column) (shared moved : List Node) : Prop :=
  ∃ nodes others, List.Forall₂ NodeAlike nodes others ∧ WithKey key nodes shared ∧
    WithKey other others moved

/-- Children of a table that are alike but for its key. -/
structure ChildrenAlike (key other : Option Column) (children moved : Children) : Prop where
  shared : NodesAlike key other children.shared moved.shared
  typed : List.Forall₂ BucketAlike children.typed moved.typed

section Children

variable {key other : Option Column} {children moved : Children}

theorem ChildrenAlike.same (children : Children) : ChildrenAlike none none children children :=
  ⟨⟨_, _, nodesAlike_same _, rfl, rfl⟩, bucketsAlike_same _⟩

theorem get?_alike {typed retyped : List (String × List Node)}
    (h : List.Forall₂ BucketAlike typed retyped) (type : String) :
    List.Forall₂ NodeAlike ((Assoc.get? type typed).getD [])
      ((Assoc.get? type retyped).getD []) := by
  induction h with
  | nil => exact .nil
  | cons hbucket _ ih =>
      obtain ⟨first, hnodes⟩ := hbucket
      rw [Assoc.get?, Assoc.get?]
      split
      · exact hnodes
      · exact ih

theorem put_alike {typed retyped : List (String × List Node)}
    (h : List.Forall₂ BucketAlike typed retyped) (type : String) {nodes others : List Node}
    (hnodes : List.Forall₂ NodeAlike nodes others) :
    List.Forall₂ BucketAlike (Assoc.put type nodes typed) (Assoc.put type others retyped) := by
  induction h with
  | nil => exact .cons (.bucket type hnodes) .nil
  | cons hbucket hrest ih =>
      obtain ⟨first, hfirst⟩ := hbucket
      rw [Assoc.put, Assoc.put]
      split
      · exact .cons (.bucket type hnodes) hrest
      · exact .cons (.bucket first hfirst) ih

/-- The tables that a field was selected as among alike children. -/
theorem ChildrenAlike.existing (h : ChildrenAlike key other children moved)
    (bucket : Option String) (name : String) :
    (existingTable (children.bucket bucket) name = none ∧
        existingTable (moved.bucket bucket) name = none) ∨
      ∃ table another, existingTable (children.bucket bucket) name = some table ∧
        existingTable (moved.bucket bucket) name = some another ∧
        table.info.fieldName = name ∧ NodeAlike (.table table) (.table another) := by
  cases bucket with
  | none =>
      obtain ⟨nodes, others, hnodes, hshared, hmoved⟩ := h.shared
      rw [Children.bucket, Children.bucket, hshared.existingTable, hmoved.existingTable]
      exact existingTable_alike hnodes name
  | some type => exact existingTable_alike (get?_alike h.typed type) name

theorem bucket_setBucket (children : Children) (bucket : Option String) (nodes : List Node) :
    (children.setBucket bucket nodes).bucket bucket = nodes := by
  cases bucket with
  | none => rfl
  | some type => rw [Children.setBucket, Children.bucket, Assoc.get?_put, if_pos rfl, Option.getD]

theorem setBucket_setBucket (children : Children) (bucket : Option String)
    (nodes others : List Node) :
    (children.setBucket bucket nodes).setBucket bucket others =
      children.setBucket bucket others := by
  cases bucket with
  | none => rfl
  | some type => simp only [Children.setBucket, Assoc.put_put]

theorem putField_eq (children : Children) (bucket : Option String) (name : String) (node : Node) :
    putField children bucket name node =
      children.setBucket bucket (putIn name node (children.bucket bucket)) := rfl

/-- A table of a field that is put where it belongs is found there, and replaced. -/
theorem existingTable_putField {name : String} {table : Table Node}
    (hname : table.info.fieldName = name) (children : Children) (bucket : Option String) :
    existingTable ((putField children bucket name (.table table)).bucket bucket) name =
      some table := by
  have hnode : isTableOf name (.table table) = true := beq_iff_eq.mpr hname
  rw [putField_eq, bucket_setBucket, existingTable_putIn hnode, Node.table?]

theorem putField_putField {name : String} {table : Table Node}
    (hname : table.info.fieldName = name) (children : Children) (bucket : Option String)
    (node : Node) :
    putField (putField children bucket name (.table table)) bucket name node =
      putField children bucket name node := by
  have hnode : isTableOf name (.table table) = true := beq_iff_eq.mpr hname
  rw [putField_eq, putField_eq, putField_eq, bucket_setBucket, setBucket_setBucket,
    putIn_putIn hnode]

theorem ChildrenAlike.putField (h : ChildrenAlike key other children moved)
    (bucket : Option String) (name : String) {node another : Node}
    (hnode : NodeAlike node another) :
    ChildrenAlike key other (putField children bucket name node)
      (putField moved bucket name another) := by
  rw [putField_eq, putField_eq]
  cases bucket with
  | none =>
      obtain ⟨nodes, others, hnodes, hshared, hmoved⟩ := h.shared
      exact ⟨⟨_, _, putIn_alike hnodes hnode name, hshared.putIn, hmoved.putIn⟩, h.typed⟩
  | some type =>
      exact ⟨h.shared, put_alike h.typed type (putIn_alike (get?_alike h.typed type) hnode name)⟩

theorem NodeAlike.of_table {table other : Table Node}
    (h : NodeAlike (.table table) (.table other)) :
    other.info = table.info ∧ ∃ key, IsKeyOf key table.info ∧
      ChildrenAlike key key ⟨table.shared, table.typed⟩ ⟨other.shared, other.typed⟩ := by
  cases h with
  | same => exact ⟨rfl, none, nofun, .same _⟩
  | table hkey hnodes hshared hmoved htyped =>
      exact ⟨rfl, _, hkey, ⟨_, _, hnodes, hshared, hmoved⟩, htyped⟩

end Children

/-! ### Merging dependencies -/

/-- Two results of a walk that hands out the same aliases. -/
structure StateAlike {α β : Type} (alike : α → β → Prop) (first : α × Namespace)
    (second : β × Namespace) : Prop where
  names : second.2 = first.2
  value : alike first.1 second.1

/-- The columns a field is computed from. -/
def Node.dependencies? : Node → Option (List (String × String) × Option String)
  | .dependencies columns owner => some (columns, owner)
  | _ => none

theorem neededColumns_eq (nodes : List Node) :
    neededColumns nodes = (nodes.filterMap Node.dependencies?).reverse.foldl
      (fun needed entry => Assoc.alter entry.2
        (fun names => addNames (names.getD []) (Assoc.keys entry.1)) needed) [] := by
  rw [neededColumns, ← List.filterMap_reverse, List.foldl_filterMap]
  congr 1
  funext needed node
  cases node <;> rfl

theorem neededColumns_alike {nodes others : List Node} (h : List.Forall₂ NodeAlike nodes others) :
    neededColumns others = neededColumns nodes := by
  have hsame : others.filterMap Node.dependencies? = nodes.filterMap Node.dependencies? := by
    induction h with
    | nil => rfl
    | cons hnode _ ih =>
        cases hnode with
        | same => rw [List.filterMap_cons, List.filterMap_cons, ih]
        | table =>
            rw [List.filterMap_cons_none rfl, List.filterMap_cons_none rfl, ih]
  rw [neededColumns_eq, neededColumns_eq, hsame]

theorem neededColumns_withKey {key : Option Column} {nodes longer : List Node}
    (h : WithKey key nodes longer) : neededColumns longer = neededColumns nodes := by
  cases key with
  | none => exact congrArg neededColumns h
  | some key =>
      have hsame : longer.filterMap Node.dependencies? = nodes.filterMap Node.dependencies? := by
        induction (h : Inserted (.column key) nodes longer) with
        | here rest => exact List.filterMap_cons_none rfl
        | later first _ ih => rw [List.filterMap_cons, List.filterMap_cons, ih]
      rw [neededColumns_eq, neededColumns_eq, hsame]

theorem pruneNodes_dependencies (columns : List (String × String)) (owner : Option String)
    (rest : List Node) (names : Namespace) :
    pruneNodes (.dependencies columns owner :: rest) names = pruneNodes rest names := by
  rw [pruneNodes]

theorem pruneNodes_cons {node : Node} (hnode : node.dependencies? = none) (rest : List Node)
    (names : Namespace) :
    pruneNodes (node :: rest) names =
      ((node.prune names).1 :: (pruneNodes rest (node.prune names).2).1,
        (pruneNodes rest (node.prune names).2).2) := by
  rw [pruneNodes]
  · rfl
  · rintro columns owner rfl
    cases hnode

theorem pruneNodes_withKey {key : Option Column} {nodes longer : List Node}
    (h : WithKey key nodes longer) (names : Namespace) :
    StateAlike (WithKey key) (pruneNodes nodes names) (pruneNodes longer names) := by
  cases key with
  | none =>
      obtain rfl : longer = nodes := h
      exact ⟨rfl, rfl⟩
  | some key =>
      induction (h : Inserted (.column key) nodes longer) generalizing names with
      | here rest =>
          rw [pruneNodes_cons rfl]
          exact ⟨rfl, Inserted.here _⟩
      | later first _ ih =>
          cases hfirst : first.dependencies? with
          | some entry =>
              cases first with
              | dependencies columns owner =>
                  rw [pruneNodes_dependencies, pruneNodes_dependencies]
                  exact ih names
              | table | column | composite | expression | nothing => cases hfirst
          | none =>
              rw [pruneNodes_cons hfirst, pruneNodes_cons hfirst]
              obtain ⟨hnames, hkept⟩ := ih (first.prune names).2
              exact ⟨hnames, Inserted.later _ hkept⟩

theorem pruneNodes_alike {nodes others : List Node} (h : List.Forall₂ NodeAlike nodes others)
    (hprune : ∀ node ∈ nodes, ∀ other, NodeAlike node other → ∀ names,
      StateAlike NodeAlike (node.prune names) (other.prune names)) (names : Namespace) :
    StateAlike (List.Forall₂ NodeAlike) (pruneNodes nodes names) (pruneNodes others names) := by
  induction h generalizing names with
  | nil => exact ⟨rfl, .nil⟩
  | @cons node other rest others hnode _ ih =>
      obtain ⟨hfirst, hrest⟩ := List.forall_mem_cons.mp hprune
      have hsame : other.dependencies? = node.dependencies? := by cases hnode <;> rfl
      cases hdependencies : node.dependencies? with
      | some entry =>
          cases node with
          | dependencies columns owner =>
              cases hnode
              rw [pruneNodes_dependencies, pruneNodes_dependencies]
              exact ih hrest names
          | table | column | composite | expression | nothing => cases hdependencies
      | none =>
          rw [pruneNodes_cons hdependencies, pruneNodes_cons (hsame.trans hdependencies)]
          obtain ⟨hnames, hpruned⟩ := hfirst other hnode names
          obtain ⟨hafter, hkept⟩ := ih hrest (node.prune names).2
          rw [hnames]
          exact ⟨hafter, .cons hpruned hkept⟩

/-- Nodes with their dependencies merged, at the end of them. -/
def mergeNodes (nodes : List Node) : StateM Namespace (List Node) := do
  let kept ← pruneNodes nodes
  let merged ← (neededColumns nodes).mapM mergedNode
  pure (kept ++ merged)

theorem mergeNodes_eq (nodes : List Node) (names : Namespace) :
    mergeNodes nodes names =
      ((pruneNodes nodes names).1 ++
          ((neededColumns nodes).mapM mergedNode (pruneNodes nodes names).2).1,
        ((neededColumns nodes).mapM mergedNode (pruneNodes nodes names).2).2) := rfl

theorem mergeNodes_withKey {key : Option Column} {nodes longer : List Node}
    (h : WithKey key nodes longer) (names : Namespace) :
    StateAlike (WithKey key) (mergeNodes nodes names) (mergeNodes longer names) := by
  obtain ⟨hnames, hkept⟩ := pruneNodes_withKey h names
  rw [mergeNodes_eq, mergeNodes_eq, neededColumns_withKey h, hnames]
  refine ⟨rfl, ?_⟩
  cases key with
  | none => exact congrArg (· ++ _) hkept
  | some key => exact Inserted.append hkept _

theorem mergeNodes_alike {nodes others : List Node} (h : List.Forall₂ NodeAlike nodes others)
    (hprune : ∀ node ∈ nodes, ∀ other, NodeAlike node other → ∀ names,
      StateAlike NodeAlike (node.prune names) (other.prune names)) (names : Namespace) :
    StateAlike (List.Forall₂ NodeAlike) (mergeNodes nodes names) (mergeNodes others names) := by
  obtain ⟨hnames, hkept⟩ := pruneNodes_alike h hprune names
  rw [mergeNodes_eq, mergeNodes_eq, neededColumns_alike h, hnames]
  exact ⟨rfl, List.rel_append hkept (nodesAlike_same _)⟩

theorem pruneBuckets_cons (type : String) (nodes : List Node)
    (rest : List (String × List Node)) (names : Namespace) :
    pruneBuckets ((type, nodes) :: rest) names =
      ((type, (mergeNodes nodes names).1) :: (pruneBuckets rest (mergeNodes nodes names).2).1,
        (pruneBuckets rest (mergeNodes nodes names).2).2) := rfl

theorem pruneBuckets_alike {typed retyped : List (String × List Node)}
    (h : List.Forall₂ BucketAlike typed retyped)
    (hprune : ∀ node ∈ typed.flatMap Prod.snd, ∀ other, NodeAlike node other → ∀ names,
      StateAlike NodeAlike (node.prune names) (other.prune names)) (names : Namespace) :
    StateAlike (List.Forall₂ BucketAlike) (pruneBuckets typed names)
      (pruneBuckets retyped names) := by
  induction h generalizing names with
  | nil => exact ⟨rfl, .nil⟩
  | @cons bucket other rest others hbucket _ ih =>
      rw [List.flatMap_cons] at hprune
      obtain ⟨hfirst, hrest⟩ := List.forall_mem_append.mp hprune
      obtain ⟨type, hnodes⟩ := hbucket
      obtain ⟨hnames, hmerged⟩ := mergeNodes_alike hnodes hfirst names
      obtain ⟨hafter, hothers⟩ := ih hrest (mergeNodes _ names).2
      rw [pruneBuckets_cons, pruneBuckets_cons, hnames]
      exact ⟨hafter, .cons (.bucket type hmerged) hothers⟩

theorem Node.prune_table (info : TableInfo) (shared : List Node)
    (typed : List (String × List Node)) (names : Namespace) :
    Node.prune (.table ⟨info, shared, typed⟩) names =
      (.table
          ⟨info, (mergeNodes shared names).1, (pruneBuckets typed (mergeNodes shared names).2).1⟩,
        (pruneBuckets typed (mergeNodes shared names).2).2) := rfl

/-- Merging dependencies keeps alike trees alike, and asks for the same aliases. -/
theorem Node.prune_alike (node : Node) : ∀ other, NodeAlike node other → ∀ names,
    StateAlike NodeAlike (node.prune names) (other.prune names) := by
  induction node using Node.induction with
  | leaf node hleaf =>
      intro other h names
      cases h with
      | same => exact ⟨rfl, .same _⟩
      | table => cases hleaf
  | table table ih =>
      intro other h names
      cases h with
      | same => exact ⟨rfl, .same _⟩
      | @table info key nodes others shared moved typed retyped hkey hnodes hshared hmoved
          htyped =>
          obtain ⟨hshareds, htypeds⟩ := List.forall_mem_append.mp ih
          have hpruned : ∀ node ∈ nodes, ∀ other, NodeAlike node other → ∀ names,
              StateAlike NodeAlike (node.prune names) (other.prune names) :=
            fun node hnode => hshareds node (hshared.subset hnode)
          obtain ⟨hsame, hmerged⟩ := mergeNodes_alike hnodes hpruned names
          obtain ⟨hleft, hlongerLeft⟩ := mergeNodes_withKey hshared names
          obtain ⟨hright, hlongerRight⟩ := mergeNodes_withKey hmoved names
          have hnames : (mergeNodes moved names).2 = (mergeNodes shared names).2 := by
            rw [hright, hsame, hleft]
          obtain ⟨hafter, hbuckets⟩ :=
            pruneBuckets_alike htyped htypeds (mergeNodes shared names).2
          rw [prune_table, prune_table, hnames]
          exact ⟨hafter, .table hkey hmerged hlongerLeft hlongerRight hbuckets⟩

/-- Merging dependencies at every level keeps alike tables alike. -/
theorem Table.prune_alike {table other : Table Node}
    (h : NodeAlike (.table table) (.table other)) (names : Namespace) :
    StateAlike (fun table other => NodeAlike (.table table) (.table other)) (table.prune names)
      (other.prune names) := by
  obtain ⟨hnames, hpruned⟩ := Node.prune_alike (.table table) (.table other) h names
  exact ⟨hnames, hpruned⟩

end JoinPlan.Plan
