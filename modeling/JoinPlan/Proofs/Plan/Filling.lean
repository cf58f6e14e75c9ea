import JoinPlan.Proofs.Assoc
import JoinPlan.Proofs.Plan.Selected
import Mathlib.Data.List.Perm.Basic

/-!
# Filling in the children of a table

Selecting changes the children of a table one field at a time: a node is put in the
place of one of them, or after them.  A relation between the children before and
after that every such change preserves therefore holds for whole selections, and
for the fragments they spread.
-/

namespace JoinPlan.Plan

/-- The node a field compiles to, `existing` being the table it was already selected
as, when the children of tables are filled in as `fill` says. -/
inductive FieldNode (fill : FillRelation) (existing : Option (Table Node)) (names : Namespace) :
    Node → Namespace → Prop
  | nothing : FieldNode fill existing names .nothing names
  | leaf {node : Node} {after : Namespace} (hleaves : Leaves names [node] after) :
      FieldNode fill existing names node after
  | again {table : Table Node} {children : Children} {after : Namespace} (isAbstract : Bool)
      (hexisting : existing = some table)
      (hfill : fill names ⟨table.shared, table.typed⟩ after children) :
      FieldNode fill existing names
        (.table ⟨{ table.info with isAbstract }, children.shared, children.typed⟩) after
  | new {table : Table Node} {children : Children} {between after : Namespace}
      (isAbstract : Bool) (hexisting : existing = none) (hnew : IsNew names table between)
      (hfill : fill between ⟨table.shared, table.typed⟩ after children) :
      FieldNode fill existing names
        (.table ⟨{ table.info with isAbstract },
          children.shared ++ lastColumns table.info none, children.typed⟩) after

theorem namedColumns_asks {columns : List String} {named : List (String × String)}
    {names after : Namespace} (h : columns.mapM namedColumn names = .ok (named, after)) :
    names.Asks named after := by
  induction columns generalizing names named with
  | nil =>
      obtain ⟨rfl, rfl⟩ := Compile.pure_eq_ok.mp h
      exact .nothing after
  | cons name rest ih =>
      rw [List.mapM_cons] at h
      obtain ⟨column, between, hcolumn, hrest⟩ := Compile.bind_eq_ok.mp h
      obtain ⟨others, last, hothers, hpure⟩ := Compile.bind_eq_ok.mp hrest
      obtain ⟨aliasName, asked, hasked, hnamed⟩ := Compile.bind_eq_ok.mp hcolumn
      obtain ⟨rfl, rfl⟩ := Compile.column_eq_ok.mp hasked
      obtain ⟨rfl, rfl⟩ := Compile.pure_eq_ok.mp hnamed
      obtain ⟨rfl, rfl⟩ := Compile.pure_eq_ok.mp hpure
      exact .column name (ih hothers)

/-- The name that a leaf's alias is asked for by: among the children of a concrete type it is told
apart from the same property of another type. -/
def leafName (bucket : Option String) (name : String) : String :=
  match bucket with
  | some type => name ++ "@" ++ type
  | none => name

/-- The node of a field without a table of its own. -/
inductive LeafNode (bucket : Option String) (name : String) (args : Arguments)
    (field : ScopedField) (names : Namespace) : Node → Namespace → Prop
  | expression (sql : TableFragment) :
      LeafNode bucket name args field names
        (.expression sql name (names.column (leafName bucket name)).1 args field.owner)
        (names.column (leafName bucket name)).2
  | dependencies {named : List (String × String)} {after : Namespace}
      (hasks : names.Asks named after) :
      LeafNode bucket name args field names
        (.dependencies (Assoc.distinct named) field.owner) after
  | column (column : String) :
      LeafNode bucket name args field names
        (.column ⟨column, name, (names.column (leafName bucket name)).1, field.owner⟩)
        (names.column (leafName bucket name)).2
  | nothing : LeafNode bucket name args field names .nothing names

section Leaf

variable {scope : Scope} {bucket : Option String} {name : String} {args : Arguments}
  {field : ScopedField} {node : Node} {names after : Namespace}

theorem compileLeaf_eq_ok
    (h : compileLeaf scope bucket name args field names = .ok (node, after)) :
    LeafNode bucket name args field names node after := by
  unfold compileLeaf at h
  cases hexpr : field.options.sqlExpr with
  | some sql =>
      rw [hexpr] at h
      obtain ⟨aliasName, between, halias, h⟩ := Compile.bind_eq_ok.mp h
      obtain ⟨rfl, rfl⟩ := Compile.column_eq_ok.mp halias
      obtain ⟨rfl, rfl⟩ := Compile.pure_eq_ok.mp h
      exact .expression sql
  | none =>
      cases hdeps : field.options.sqlDeps with
      | some columns =>
          rw [hexpr, hdeps] at h
          obtain ⟨named, between, hnamed, h⟩ := Compile.bind_eq_ok.mp h
          obtain ⟨rfl, rfl⟩ := Compile.pure_eq_ok.mp h
          exact .dependencies (namedColumns_asks hnamed)
      | none =>
          rw [hexpr, hdeps] at h
          dsimp only at h
          split at h
          · obtain ⟨aliasName, between, halias, h⟩ := Compile.bind_eq_ok.mp h
            obtain ⟨rfl, rfl⟩ := Compile.column_eq_ok.mp halias
            obtain ⟨rfl, rfl⟩ := Compile.pure_eq_ok.mp h
            exact .column _
          · obtain ⟨rfl, rfl⟩ := Compile.pure_eq_ok.mp h
            exact .nothing

theorem compileLeaf_leaves
    (h : compileLeaf scope bucket name args field names = .ok (node, after)) :
    Leaves names [node] after := by
  cases compileLeaf_eq_ok h with
  | expression | column =>
      exact ⟨by simp [Node.table?], _, .one names _, by simp [Node.leafAliases]⟩
  | @dependencies named _ hasks =>
      refine ⟨by simp [Node.table?], named, hasks, ?_⟩
      intro aliasName halias
      simp only [Node.leafAliases, List.flatMap_cons, List.flatMap_nil, List.append_nil] at halias
      obtain ⟨column, hcolumn, rfl⟩ := List.mem_map.mp halias
      exact List.mem_map_of_mem (Assoc.mem_of_mem_distinct hcolumn)
  | nothing => exact ⟨by simp [Node.table?], [], .nothing _, by simp [Node.leafAliases]⟩

end Leaf

/-- A field that compiles to a table is one that a table is set up for. -/
theorem exists_tableNode_of_compileField {env : Environment}
    {fill : Option Junction → FillRelation} {fragments : Fragments} {scope : Scope}
    {nested : Bool} {bucket : Option String} {existing : Option (Table Node)} {name : String}
    {args : Arguments} {selections : List Selection}
    {action : Place → Scope → Children → Compile Children} {table : Table Node}
    {names after : Namespace}
    (haction : ∀ place scope, Fills (fill scope.junction) (action place scope))
    (h : compileField env fragments scope nested bucket existing name args selections action
      names = .ok (.table table, after)) :
    ∃ field, TableField.IsBacked field env scope nested ∧
      TableNode env fill field existing names (.table table) after := by
  rcases compileField_eq_ok h with ⟨hnothing, -⟩ | ⟨field, hfield, hleaf⟩ |
    ⟨field, type, place, -, hfield, htable⟩
  · cases hnothing
  · have hnone := (compileLeaf_leaves hleaf).1 _ List.mem_cons_self
    cases hnone
  · exact ⟨field, hfield, compileTable_eq_ok (haction place) htable⟩

theorem SelectedNode.fieldNode {env : Environment} {fill : FillRelation} {scope : Scope}
    {nested : Bool} {existing : Option (Table Node)} {names after : Namespace} {node : Node}
    (h : SelectedNode env (fun _ => fill) scope nested existing names node after) :
    FieldNode fill existing names node after := by
  cases h with
  | nothing => exact .nothing
  | leaf hfield hleaf => exact .leaf (compileLeaf_leaves hleaf)
  | again isAbstract hexisting hfill => exact .again isAbstract hexisting hfill
  | new isAbstract hexisting hfield hnew hfill =>
      exact .new isAbstract hexisting (newTable_isNew hnew) hfill

/-! ### Selections -/

/-- A relation that filling in the children of one table preserves. -/
structure Filling (fill : FillRelation) : Prop where
  refl (names : Namespace) (children : Children) : fill names children names children
  trans {names between after : Namespace} {children inner filled : Children}
    (hfirst : fill names children between inner) (hsecond : fill between inner after filled) :
    fill names children after filled
  field {names after : Namespace} {children : Children} {bucket : Option String} {name : String}
    {node : Node}
    (hnode : FieldNode fill (existingTable (children.bucket bucket) name) names node after) :
    fill names children after (putField children bucket name node)

theorem Filling.selecting {fill : FillRelation} {env : Environment} (hfilling : Filling fill) :
    Selecting env fun _ => fill where
  refl _ := hfilling.refl
  trans := hfilling.trans
  field hnode := hfilling.field hnode.fieldNode

/-! ### What putting a node changes -/

/-- All children, in the order of a table. -/
def Children.nodes (children : Children) : List Node :=
  children.shared ++ children.typed.flatMap Prod.snd

theorem perm_insert_last {α : Type} (first second : List α) (item : α) :
    (first ++ item :: second).Perm (first ++ second ++ [item]) := by
  rw [List.append_assoc]
  have hlast : ([item] ++ second).Perm (second ++ [item]) := List.perm_append_comm
  exact hlast.append_left first

theorem exists_perm_put {K α : Type} [DecidableEq K] (key : K) (entries : List (K × List α)) :
    ∃ others, (entries.flatMap Prod.snd).Perm (others ++ (Assoc.get? key entries).getD []) ∧
      ∀ items, ((Assoc.put key items entries).flatMap Prod.snd).Perm (others ++ items) := by
  induction entries with
  | nil => exact ⟨[], by simp, fun items => by simp [Assoc.put]⟩
  | cons entry rest ih =>
      by_cases hkey : entry.1 = key
      · refine ⟨rest.flatMap Prod.snd, ?_, fun items => ?_⟩
        · rw [Assoc.get?, if_pos hkey, List.flatMap_cons]
          exact List.perm_append_comm
        · rw [Assoc.put, if_pos hkey, List.flatMap_cons]
          exact List.perm_append_comm
      · obtain ⟨others, hold, hnew⟩ := ih
        refine ⟨entry.2 ++ others, ?_, fun items => ?_⟩
        · rw [Assoc.get?, if_neg hkey, List.flatMap_cons, List.append_assoc]
          exact hold.append_left entry.2
        · rw [Assoc.put, if_neg hkey, List.flatMap_cons, List.append_assoc]
          exact (hnew items).append_left entry.2

theorem exists_perm_setBucket (children : Children) (bucket : Option String) :
    ∃ others, children.nodes.Perm (others ++ children.bucket bucket) ∧
      ∀ nodes, (children.setBucket bucket nodes).nodes.Perm (others ++ nodes) := by
  cases bucket with
  | none =>
      exact ⟨children.typed.flatMap Prod.snd, List.perm_append_comm, fun nodes =>
        List.perm_append_comm⟩
  | some type =>
      obtain ⟨others, hold, hnew⟩ := exists_perm_put type children.typed
      refine ⟨children.shared ++ others, ?_, fun nodes => ?_⟩
      · rw [List.append_assoc]
        exact hold.append_left children.shared
      · rw [List.append_assoc]
        exact (hnew nodes).append_left children.shared

theorem exists_perm_putNode (nodes : List Node) (name : String) :
    ∃ others, nodes.Perm (others ++ (existingNode nodes name).toList) ∧
      ∀ node, (putNode nodes (nodes.findIdx? (isTableOf name)) node).Perm (others ++ [node]) := by
  rw [existingNode]
  cases hindex : nodes.findIdx? (isTableOf name) with
  | none => exact ⟨nodes, by simp, fun node => List.Perm.refl _⟩
  | some index =>
      obtain ⟨hlt, -⟩ := List.findIdx?_eq_some_iff_getElem.mp hindex
      refine ⟨nodes.take index ++ nodes.drop (index + 1), ?_, fun node => ?_⟩
      · rw [Option.bind_some, List.getElem?_eq_getElem hlt, Option.toList_some]
        have hsplit : nodes.take index ++ nodes[index] :: nodes.drop (index + 1) = nodes := by
          rw [List.getElem_cons_drop, List.take_append_drop]
        calc nodes
            _ = nodes.take index ++ nodes[index] :: nodes.drop (index + 1) := hsplit.symm
            List.Perm _ _ := perm_insert_last _ _ _
      · rw [putNode, List.set_eq_take_append_cons_drop, if_pos hlt]
        exact perm_insert_last _ _ _

theorem Node.subtree_eq (node : Node) :
    node.subtree = node.table?.toList.flatMap Table.subtree := by
  cases node with
  | table child => simp [subtree, table?]
  | column | dependencies | composite | expression | nothing => rfl

/-- Putting the node of a field changes one child, and there the tables of the child
that was there before. -/
theorem exists_perm_putField (children : Children) (bucket : Option String) (name : String) :
    ∃ others replaced, children.nodes.Perm (others ++ replaced) ∧
      (∀ node, (putField children bucket name node).nodes.Perm (others ++ [node])) ∧
      replaced.flatMap Node.subtree =
        (existingTable (children.bucket bucket) name).toList.flatMap Table.subtree := by
  obtain ⟨outside, hold, hnew⟩ := exists_perm_setBucket children bucket
  obtain ⟨inside, hbefore, hafter⟩ := exists_perm_putNode (children.bucket bucket) name
  refine ⟨outside ++ inside, (existingNode (children.bucket bucket) name).toList, ?_,
    fun node => ?_, ?_⟩
  · rw [List.append_assoc]
    exact hold.trans (hbefore.append_left outside)
  · rw [List.append_assoc]
    exact (hnew _).trans ((hafter node).append_left outside)
  · rw [existingTable]
    cases existingNode (children.bucket bucket) name with
    | none => rfl
    | some node => simp [Node.subtree_eq]

end JoinPlan.Plan
