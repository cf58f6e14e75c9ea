import JoinPlan.Plan.Prune
import JoinPlan.Proofs.Plan.Words

/-!
# Merging dependencies leaves the tables alone

After merging, a tree has the same tables in the same places; its columns are those
it had, or dependencies asked for again.
-/

namespace JoinPlan.Plan

/-- What merging does to nodes: their tables stay as they are but for their children,
and every alias was there or was asked for. -/
structure Pruned (names : Namespace) (before : List Node) (after : Namespace)
    (kept : List Node) : Prop where
  infos : (kept.flatMap Node.subtree).map Table.info =
    (before.flatMap Node.subtree).map Table.info
  words : ∃ asked, names.Asks asked after ∧ ∀ word ∈ kept.flatMap Node.words,
    word ∈ before.flatMap Node.words ∨ word ∈ asked.map Prod.snd

namespace Pruned

variable {names between after : Namespace} {before kept : List Node}

theorem same (names : Namespace) (nodes : List Node) : Pruned names nodes names nodes :=
  ⟨rfl, [], .nothing names, fun _ => Or.inl⟩

theorem drop_leaf {node : Node} (hleaf : node.table? = none) :
    Pruned names [node] names [] :=
  ⟨by simp [Node.subtree_of_leaf hleaf], [], .nothing names, by simp⟩

theorem of_leaves (h : Leaves names kept after) : Pruned names [] after kept := by
  obtain ⟨hleaf, asked, hasks, hsub⟩ := h
  have hsubtree : kept.flatMap Node.subtree = [] :=
    List.flatMap_eq_nil_iff.mpr fun node hnode => Node.subtree_of_leaf (hleaf node hnode)
  refine ⟨by simp [hsubtree], asked, hasks, fun word hword => Or.inr (hsub ?_)⟩
  obtain ⟨node, hnode, hmem⟩ := List.mem_flatMap.mp hword
  rw [Node.words_of_leaf (hleaf node hnode)] at hmem
  exact List.mem_flatMap.mpr ⟨node, hnode, hmem⟩

theorem append {others rest : List Node} (hfirst : Pruned names before between kept)
    (hsecond : Pruned between others after rest) :
    Pruned names (before ++ others) after (kept ++ rest) := by
  obtain ⟨hinfos, asked, hasks, hwords⟩ := hfirst
  obtain ⟨hotherInfos, more, hmore, hotherWords⟩ := hsecond
  refine ⟨?_, asked ++ more, hasks.append hmore, ?_⟩
  · simp only [List.flatMap_append, List.map_append, hinfos, hotherInfos]
  · intro word hword
    rw [List.flatMap_append, List.mem_append] at hword
    simp only [List.flatMap_append, List.mem_append, List.map_append]
    rcases hword with h | h
    · exact (hwords word h).imp Or.inl Or.inl
    · exact (hotherWords word h).imp Or.inr Or.inr

theorem table {table filled : Table Node} (hinfo : filled.info = table.info)
    (h : Pruned names table.children after filled.children) :
    Pruned names [.table table] after [.table filled] := by
  obtain ⟨hinfos, asked, hasks, hwords⟩ := h
  refine ⟨?_, asked, hasks, ?_⟩
  · simp only [List.flatMap_singleton, Node.subtree, Table.subtree_eq, List.map_cons, hinfo,
      hinfos]
  · intro word hword
    rw [List.flatMap_singleton, Node.mem_words_table] at hword ⊢
    rcases hword with hown | hbelow
    · exact Or.inl (Or.inl (hinfo ▸ hown))
    · exact (hwords word hbelow).imp_left Or.inr

end Pruned

theorem neededColumns_asks (columns : List String) (names : Namespace) :
    names.Asks (columns.mapM neededColumn names).1 (columns.mapM neededColumn names).2 := by
  induction columns generalizing names with
  | nil => exact .nothing names
  | cons name rest ih =>
      rw [List.mapM_cons]
      exact .column name (ih _)

theorem mergedNode_leaves (needed : Option String × List String) (names : Namespace) :
    Leaves names [(mergedNode needed names).1] (mergedNode needed names).2 := by
  have hmerged : mergedNode needed names =
      (.dependencies (needed.2.mapM neededColumn names).1 needed.1,
        (needed.2.mapM neededColumn names).2) := rfl
  rw [hmerged]
  exact ⟨by simp [Node.table?], _, neededColumns_asks needed.2 names, by simp [Node.leafAliases]⟩

theorem mergedNodes_leaves (needed : List (Option String × List String)) (names : Namespace) :
    Leaves names (needed.mapM mergedNode names).1 (needed.mapM mergedNode names).2 := by
  induction needed generalizing names with
  | nil => exact .none names
  | cons columns rest ih =>
      rw [List.mapM_cons]
      exact (mergedNode_leaves columns names).append (ih _)

mutual

theorem Table.prune_pruned : ∀ (table : Table Node) (names : Namespace),
    (table.prune names).1.info = table.info ∧
      Pruned names table.children (table.prune names).2 (table.prune names).1.children
  | ⟨info, shared, typed⟩, names => by
      rw [Table.prune]
      refine ⟨rfl, ?_⟩
      have hshared := (pruneNodes_pruned shared names).append
        (.of_leaves (mergedNodes_leaves (neededColumns shared) _))
      rw [List.append_nil] at hshared
      exact hshared.append (pruneBuckets_pruned typed _)

theorem Node.prune_pruned : ∀ (node : Node) (names : Namespace),
    Pruned names [node] (node.prune names).2 [(node.prune names).1]
  | .table table, names => by
      rw [Node.prune]
      exact .table (table.prune_pruned names).1 (table.prune_pruned names).2
  | .column column, names => .same names _
  | .dependencies columns owner, names => .same names _
  | .composite columns fieldName aliasName owner, names => .same names _
  | .expression sql fieldName aliasName args owner, names => .same names _
  | .nothing, names => .same names _

theorem pruneNodes_pruned : ∀ (nodes : List Node) (names : Namespace),
    Pruned names nodes (pruneNodes nodes names).2 (pruneNodes nodes names).1
  | [], names => .same names []
  | node :: rest, names => by
      cases node with
      | dependencies columns owner =>
          rw [pruneNodes]
          exact (Pruned.drop_leaf rfl).append (pruneNodes_pruned rest names)
      | table | column | composite | expression | nothing =>
          rw [pruneNodes]
          · exact (Node.prune_pruned _ names).append (pruneNodes_pruned rest _)
          · simp

theorem pruneBuckets_pruned : ∀ (buckets : List (String × List Node)) (names : Namespace),
    Pruned names (buckets.flatMap Prod.snd) (pruneBuckets buckets names).2
      ((pruneBuckets buckets names).1.flatMap Prod.snd)
  | [], names => .same names []
  | bucket :: rest, names => by
      rw [pruneBuckets]
      exact (pruneBucket_pruned bucket names).append (pruneBuckets_pruned rest _)

theorem pruneBucket_pruned : ∀ (bucket : String × List Node) (names : Namespace),
    Pruned names bucket.2 (pruneBucket bucket names).2 (pruneBucket bucket names).1.2
  | (type, nodes), names => by
      rw [pruneBucket]
      have hnodes := (pruneNodes_pruned nodes names).append
        (.of_leaves (mergedNodes_leaves (neededColumns nodes) _))
      rwa [List.append_nil] at hnodes

end

end JoinPlan.Plan
