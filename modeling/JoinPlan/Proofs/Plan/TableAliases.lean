import JoinPlan.Proofs.Alias
import JoinPlan.Proofs.Plan.Filling

/-!
# Every table of a plan has an alias of its own

While a plan is compiled the aliases of its tables and junctions are distinct, and
all of them were handed out, so the next one is again different.  What is already
there outside the part that is compiled is a frame that the step leaves alone.
-/

namespace JoinPlan

/-- The aliases a table brings into a plan: its own and its junction's. -/
def Plan.TableInfo.tableAliases (info : TableInfo) : List String :=
  info.aliasName :: (info.junction?.map Junction.aliasName).toList

namespace Plan

@[simp]
theorem TableInfo.tableAliases_isAbstract (info : TableInfo) (isAbstract : Bool) :
    { info with isAbstract }.tableAliases = info.tableAliases := rfl

def tableAliases (tables : List (Table Node)) : List String :=
  tables.flatMap fun table => table.info.tableAliases

@[simp]
theorem tableAliases_nil : tableAliases [] = [] := rfl

@[simp]
theorem tableAliases_cons (table : Table Node) (rest : List (Table Node)) :
    tableAliases (table :: rest) = table.info.tableAliases ++ tableAliases rest := rfl

@[simp]
theorem tableAliases_append (first second : List (Table Node)) :
    tableAliases (first ++ second) = tableAliases first ++ tableAliases second :=
  List.flatMap_append

def Children.subtree (children : Children) : List (Table Node) :=
  children.nodes.flatMap Node.subtree

end Plan

/-- Distinct aliases that were all handed out. -/
structure Namespace.Holds (names : Namespace) (aliases : List String) : Prop where
  nodup : aliases.Nodup
  issued : ∀ aliasName ∈ aliases, names.Issued aliasName

namespace Namespace

variable {names after : Namespace} {aliases others : List String}

theorem Holds.perm (h : names.Holds aliases) (hperm : aliases.Perm others) :
    names.Holds others :=
  ⟨hperm.nodup_iff.mp h.nodup, fun aliasName hmem => h.issued aliasName (hperm.mem_iff.mpr hmem)⟩

theorem Holds.sublist (h : names.Holds aliases) (hsub : others.Sublist aliases) :
    names.Holds others :=
  ⟨h.nodup.sublist hsub, fun aliasName hmem => h.issued aliasName (hsub.subset hmem)⟩

theorem Holds.left (h : names.Holds (aliases ++ others)) : names.Holds aliases :=
  h.sublist (List.sublist_append_left _ _)

theorem Holds.asks (h : names.Holds aliases) {asked : List (String × String)}
    (hasks : names.Asks asked after) : after.Holds aliases := by
  induction hasks with
  | nothing => exact h
  | column name hrest ih =>
      exact ih ⟨h.nodup, fun aliasName hmem => (h.issued aliasName hmem).column name⟩

theorem Holds.table (h : names.Holds aliases) (name : String) :
    (names.table name).2.Holds (aliases ++ [(names.table name).1]) := by
  constructor
  · rw [List.nodup_append]
    refine ⟨h.nodup, List.nodup_singleton _, ?_⟩
    rintro aliasName hmem other hother rfl
    obtain rfl := List.mem_singleton.mp hother
    exact names.not_issued_table name (h.issued _ hmem)
  · intro aliasName hmem
    rcases List.mem_append.mp hmem with hold | hnew
    · exact (h.issued aliasName hold).table name
    · obtain rfl := List.mem_singleton.mp hnew
      exact names.issued_table name

theorem fresh_holds (minify : Bool) : (fresh minify).Holds [] :=
  ⟨List.nodup_nil, by simp⟩

end Namespace

namespace Plan

theorem Leaves.holds {names after : Namespace} {nodes : List Node} {aliases : List String}
    (h : Leaves names nodes after) (hholds : names.Holds aliases) : after.Holds aliases := by
  obtain ⟨-, asked, hasks, -⟩ := h
  exact hholds.asks hasks

theorem Leaves.subtree {names after : Namespace} {nodes : List Node}
    (h : Leaves names nodes after) : nodes.flatMap Node.subtree = [] := by
  rw [List.flatMap_eq_nil_iff]
  exact fun node hnode => Node.subtree_of_leaf (h.1 node hnode)

/-- Reaching a table brings the alias of its junction into the plan. -/
theorem Reaches.holds {names after : Namespace} {info : TableInfo} {nodes : List Node}
    {frame : List String} (h : Reaches names info.relation nodes after)
    (hholds : names.Holds (frame ++ [info.aliasName])) :
    after.Holds (frame ++ info.tableAliases) ∧ nodes.flatMap Node.subtree = [] := by
  generalize hrelation : info.relation = relation at h
  cases h with
  | root =>
      exact ⟨by simpa [TableInfo.tableAliases, TableInfo.junction?, hrelation] using hholds, rfl⟩
  | join condition =>
      exact ⟨by simpa [TableInfo.tableAliases, TableInfo.junction?, hrelation] using hholds, rfl⟩
  | batch hasks =>
      have hafter := hholds.asks hasks
      exact ⟨by simpa [TableInfo.tableAliases, TableInfo.junction?, hrelation] using hafter, rfl⟩
  | @junctionJoins junction toJunction toTarget halias hfetch =>
      have hafter := hholds.table junction.reference
      rw [← halias, List.append_assoc] at hafter
      exact ⟨by simpa [TableInfo.tableAliases, TableInfo.junction?, hrelation] using hafter, rfl⟩
  | @junctionBatch junction toTarget thisKey parentKey identity between after halias hfetch
      hidentity hasks =>
      have hafter := (hidentity.holds (hholds.table junction.reference)).asks hasks
      rw [← halias, List.append_assoc] at hafter
      exact ⟨by simpa [TableInfo.tableAliases, TableInfo.junction?, hrelation] using hafter,
        hidentity.subtree⟩

theorem IsNew.holds {names after : Namespace} {table : Table Node} {frame : List String}
    (h : IsNew names table after) (hholds : names.Holds frame) :
    after.Holds (frame ++ table.info.tableAliases) ∧
      (Children.mk table.shared table.typed).subtree = [] := by
  obtain ⟨name, halias, nodes, own, between, hreaches, hown, hshared⟩ := h.opened
  have hopened := hholds.table name
  rw [← halias] at hopened
  obtain ⟨hreached, hnodes⟩ := hreaches.holds hopened
  refine ⟨hown.holds hreached, ?_⟩
  rw [Children.subtree, Children.nodes, h.typed, hshared]
  simp [hnodes, hown.subtree]

/-- Filling in children keeps the aliases of tables distinct, whatever else there is. -/
def KeepsAliases : FillRelation := fun names children after filled =>
  ∀ frame, names.Holds (frame ++ tableAliases children.subtree) →
    after.Holds (frame ++ tableAliases filled.subtree)

theorem subtree_lastColumns (info : TableInfo) (existing : Option (Table Node)) :
    (lastColumns info existing).flatMap Node.subtree = [] := by
  unfold lastColumns
  split
  · rfl
  · split
    · rfl
    · rfl

theorem FieldNode.holds {existing : Option (Table Node)} {names after : Namespace} {node : Node}
    {frame : List String} (h : FieldNode KeepsAliases existing names node after)
    (hholds : names.Holds
      (frame ++ tableAliases (existing.toList.flatMap Table.subtree))) :
    after.Holds (frame ++ tableAliases node.subtree) := by
  cases h with
  | nothing => simpa [Node.subtree] using hholds.left
  | leaf hleaves =>
      have hsubtree : node.subtree = [] := by simpa using hleaves.subtree
      rw [hsubtree, tableAliases_nil, List.append_nil]
      exact hleaves.holds hholds.left
  | @again table children _ isAbstract hexisting hfill =>
      subst hexisting
      rw [Node.subtree, Table.subtree_eq, tableAliases_cons, ← List.append_assoc]
      apply hfill
      rw [TableInfo.tableAliases_isAbstract, List.append_assoc]
      simpa [Table.subtree_eq, Table.children, Children.subtree, Children.nodes] using hholds
  | @new table children between _ isAbstract hexisting hnew hfill =>
      subst hexisting
      obtain ⟨hinfo, hsubtree⟩ := hnew.holds hholds.left
      have hfilled := hfill (frame ++ table.info.tableAliases)
        (by rw [hsubtree, tableAliases_nil, List.append_nil]; exact hinfo)
      rw [Node.subtree, Table.subtree_eq, tableAliases_cons, ← List.append_assoc]
      simpa [Table.children, Children.subtree, Children.nodes, subtree_lastColumns] using hfilled

theorem keepsAliases_filling : Filling KeepsAliases where
  refl names children := fun frame hholds => hholds
  trans hfirst hsecond := fun frame hholds => hsecond frame (hfirst frame hholds)
  field {names after children bucket name node} hnode := by
    intro frame hholds
    obtain ⟨others, replaced, hbefore, hafter, hreplaced⟩ :=
      exists_perm_putField children bucket name
    have hold : children.subtree.Perm (others.flatMap Node.subtree ++
        (existingTable (children.bucket bucket) name).toList.flatMap Table.subtree) := by
      rw [← hreplaced, ← List.flatMap_append]
      exact hbefore.flatMap_right Node.subtree
    have hnew : (putField children bucket name node).subtree.Perm
        (others.flatMap Node.subtree ++ node.subtree) := by
      have hnodes := (hafter node).flatMap_right Node.subtree
      rwa [List.flatMap_append, List.flatMap_singleton] at hnodes
    have hframed : names.Holds (frame ++ tableAliases (others.flatMap Node.subtree) ++
        tableAliases
          ((existingTable (children.bucket bucket) name).toList.flatMap Table.subtree)) := by
      rw [List.append_assoc, ← tableAliases_append]
      exact hholds.perm ((hold.flatMap_right _).append_left frame)
    have hdone := hnode.holds hframed
    rw [List.append_assoc, ← tableAliases_append] at hdone
    exact hdone.perm ((hnew.flatMap_right _).symm.append_left frame)

end Plan

end JoinPlan
