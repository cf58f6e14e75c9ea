import JoinPlan.Proofs.Alias
import JoinPlan.Proofs.Plan.Filling

/-!
# Minified aliases hold no underscore

In a minified plan every alias that can become part of an output alias, a table's
or a column's, is a word over the alphabet.
-/

namespace JoinPlan

/-- A text without underscores. -/
def Unmarked (text : String) : Prop := '_' ∉ text.toList

/-- Minified names, and the columns handed out so far are words. -/
structure Namespace.Worded (names : Namespace) : Prop where
  minify : names.minify = true
  columns : ∀ entry ∈ names.columns, Unmarked entry.2

namespace Namespace

variable {names after : Namespace}

theorem Worded.table (h : names.Worded) (name : String) :
    (names.table name).2.Worded ∧ Unmarked (names.table name).1 := by
  refine ⟨⟨by simp [h.minify], by simpa using h.columns⟩, ?_⟩
  rw [Namespace.table, if_pos h.minify]
  exact underscore_notMem_spell _

theorem Worded.column (h : names.Worded) (name : String) :
    (names.column name).2.Worded ∧ Unmarked (names.column name).1 := by
  unfold Namespace.column
  rw [if_pos h.minify]
  cases hfound : Assoc.get? name names.columns with
  | some aliasName => exact ⟨h, h.columns _ (Assoc.mem_of_get?_eq_some hfound)⟩
  | none =>
      refine ⟨⟨h.minify, ?_⟩, underscore_notMem_spell _⟩
      intro entry hentry
      rcases List.mem_cons.mp hentry with rfl | hentry
      · exact underscore_notMem_spell _
      · exact h.columns entry hentry

theorem Worded.asks (h : names.Worded) {asked : List (String × String)}
    (hasks : names.Asks asked after) :
    after.Worded ∧ ∀ aliasName ∈ asked.map Prod.snd, Unmarked aliasName := by
  induction hasks with
  | nothing => exact ⟨h, by simp⟩
  | column name hrest ih =>
      obtain ⟨hcolumn, hword⟩ := h.column name
      obtain ⟨hafter, hwords⟩ := ih hcolumn
      refine ⟨hafter, ?_⟩
      rw [List.map_cons, List.forall_mem_cons]
      exact ⟨hword, hwords⟩

theorem fresh_worded : (fresh true).Worded := ⟨rfl, by simp [fresh]⟩

end Namespace

namespace Plan

/-! ### The aliases of a tree -/

/-- The aliases of a table that output aliases are made of: its own, and those of the
keys it is fetched by. -/
def TableInfo.words (info : TableInfo) : List String :=
  info.aliasName ::
    info.batchKeys?.toList.flatMap fun keys => [keys.1.aliasName, keys.2.aliasName]

def Table.words (table : Table Node) : List String :=
  table.info.words ++ table.children.flatMap Node.leafAliases

/-- The aliases in a node and below it that output aliases are made of. -/
def Node.words (node : Node) : List String :=
  node.leafAliases ++ node.subtree.flatMap Table.words

theorem Node.words_of_leaf {node : Node} (hleaf : node.table? = none) :
    node.words = node.leafAliases := by
  rw [words, subtree_of_leaf hleaf, List.flatMap_nil, List.append_nil]

theorem Node.mem_words_table {table : Table Node} {word : String} :
    word ∈ (Node.table table).words ↔
      word ∈ table.info.words ∨ word ∈ table.children.flatMap Node.words := by
  have hchildren : word ∈ table.children.flatMap Node.words ↔
      word ∈ table.children.flatMap Node.leafAliases ∨
        word ∈ (table.children.flatMap Node.subtree).flatMap Table.words := by
    simp only [List.mem_flatMap, words, List.mem_append]
    constructor
    · rintro ⟨child, hchild, hleaf | ⟨inner, hinner, hword⟩⟩
      · exact Or.inl ⟨child, hchild, hleaf⟩
      · exact Or.inr ⟨inner, ⟨child, hchild, hinner⟩, hword⟩
    · rintro (⟨child, hchild, hleaf⟩ | ⟨inner, ⟨child, hchild, hinner⟩, hword⟩)
      · exact ⟨child, hchild, Or.inl hleaf⟩
      · exact ⟨child, hchild, Or.inr ⟨inner, hinner, hword⟩⟩
  rw [hchildren, words, leafAliases, subtree, Table.subtree_eq, List.nil_append,
    List.flatMap_cons, List.mem_append, Table.words, List.mem_append, or_assoc]

theorem Node.mem_words_of_mem_subtree {node : Node} {table : Table Node} {word : String}
    (htable : table ∈ node.subtree) (hword : word ∈ table.words) : word ∈ node.words :=
  List.mem_append_right _ (List.mem_flatMap.mpr ⟨table, htable, hword⟩)

/-! ### Words in a minified plan -/

theorem Leaves.words {names after : Namespace} {nodes : List Node}
    (h : Leaves names nodes after) (hworded : names.Worded) :
    after.Worded ∧ ∀ word ∈ nodes.flatMap Node.words, Unmarked word := by
  obtain ⟨hleaf, asked, hasks, hsub⟩ := h
  obtain ⟨hafter, hwords⟩ := hworded.asks hasks
  refine ⟨hafter, fun word hword => hwords word (hsub ?_)⟩
  obtain ⟨node, hnode, hmem⟩ := List.mem_flatMap.mp hword
  rw [Node.words_of_leaf (hleaf node hnode)] at hmem
  exact List.mem_flatMap.mpr ⟨node, hnode, hmem⟩

theorem Reaches.words {names after : Namespace} {info : TableInfo} {nodes : List Node}
    (h : Reaches names info.relation nodes after) (hworded : names.Worded)
    (halias : Unmarked info.aliasName) :
    after.Worded ∧ (∀ word ∈ info.words, Unmarked word) ∧
      ∀ word ∈ nodes.flatMap Node.words, Unmarked word := by
  generalize hrelation : info.relation = relation at h
  cases h with
  | root =>
      exact ⟨hworded, by simp [TableInfo.words, TableInfo.batchKeys?, hrelation, halias], by simp⟩
  | join condition =>
      exact ⟨hworded, by simp [TableInfo.words, TableInfo.batchKeys?, hrelation, halias], by simp⟩
  | batch hasks =>
      obtain ⟨hafter, hkeys⟩ := hworded.asks hasks
      refine ⟨hafter, ?_, by simp⟩
      simpa [TableInfo.words, TableInfo.batchKeys?, hrelation, halias] using hkeys
  | junctionJoins hjunction hfetch =>
      refine ⟨(hworded.table _).1, ?_, by simp⟩
      simp [TableInfo.words, TableInfo.batchKeys?, hrelation, hfetch, halias]
  | junctionBatch hjunction hfetch hidentity hasks =>
      obtain ⟨hbetween, hwords⟩ := hidentity.words (hworded.table _).1
      obtain ⟨hafter, hkeys⟩ := hbetween.asks hasks
      refine ⟨hafter, ?_, hwords⟩
      simpa [TableInfo.words, TableInfo.batchKeys?, hrelation, hfetch, halias] using hkeys

theorem IsNew.words {names after : Namespace} {table : Table Node}
    (h : IsNew names table after) (hworded : names.Worded) :
    after.Worded ∧ (∀ word ∈ table.info.words, Unmarked word) ∧
      ∀ word ∈ (Children.mk table.shared table.typed).nodes.flatMap Node.words, Unmarked word := by
  obtain ⟨name, halias, nodes, own, between, hreaches, hown, hshared⟩ := h.opened
  obtain ⟨hopened, hword⟩ := hworded.table name
  rw [← halias] at hword
  obtain ⟨hbetween, hinfo, hnodes⟩ := hreaches.words hopened hword
  obtain ⟨hafter, hothers⟩ := hown.words hbetween
  refine ⟨hafter, hinfo, ?_⟩
  rw [Children.nodes, h.typed, hshared]
  simp only [List.flatMap_nil, List.append_nil, List.flatMap_append, List.mem_append]
  exact fun word hword => hword.elim (hnodes word) (hothers word)

theorem mem_words_lastColumns {info : TableInfo} {existing : Option (Table Node)} {word : String}
    (h : word ∈ (lastColumns info existing).flatMap Node.words) : word ∈ info.words := by
  unfold lastColumns at h
  cases existing with
  | some table => simp at h
  | none =>
      cases hkeys : info.batchKeys? with
      | none => simp [hkeys] at h
      | some keys =>
          simp only [hkeys, List.flatMap_cons, List.flatMap_nil, List.append_nil, Node.words,
            Node.leafAliases, Node.subtree, List.mem_singleton] at h
          simp [TableInfo.words, hkeys, h]

/-- Filling in children of minified tables leaves words. -/
def KeepsWords : FillRelation := fun names children after filled =>
  names.Worded → (∀ word ∈ children.nodes.flatMap Node.words, Unmarked word) →
    after.Worded ∧ ∀ word ∈ filled.nodes.flatMap Node.words, Unmarked word

theorem FieldNode.words {existing : Option (Table Node)} {names after : Namespace} {node : Node}
    (h : FieldNode KeepsWords existing names node after) (hworded : names.Worded)
    (hexisting : ∀ table, existing = some table → ∀ word ∈ (Node.table table).words,
      Unmarked word) :
    after.Worded ∧ ∀ word ∈ node.words, Unmarked word := by
  cases h with
  | nothing => exact ⟨hworded, by simp [Node.words, Node.leafAliases, Node.subtree]⟩
  | leaf hleaves => simpa using hleaves.words hworded
  | @again table children _ isAbstract hfound hfill =>
      have hold := hexisting table hfound
      obtain ⟨hafter, hwords⟩ := hfill hworded fun word hword =>
        hold word (Node.mem_words_table.mpr (Or.inr hword))
      refine ⟨hafter, fun word hword => ?_⟩
      rcases Node.mem_words_table.mp hword with hinfo | hchild
      · exact hold word (Node.mem_words_table.mpr (Or.inl hinfo))
      · exact hwords word hchild
  | @new table children between _ isAbstract hnone hnew hfill =>
      obtain ⟨hbetween, hinfo, hshared⟩ := hnew.words hworded
      obtain ⟨hafter, hwords⟩ := hfill hbetween hshared
      refine ⟨hafter, fun word hword => ?_⟩
      rcases Node.mem_words_table.mp hword with hown | hchild
      · exact hinfo word hown
      · simp only [Table.children, List.flatMap_append, List.mem_append] at hchild
        rcases hchild with (hselected | hlast) | htyped
        · exact hwords word (by simp [Children.nodes, hselected])
        · exact hinfo word (mem_words_lastColumns hlast)
        · exact hwords word (by simp [Children.nodes, htyped])

theorem keepsWords_filling : Filling KeepsWords where
  refl names children := fun hworded hwords => ⟨hworded, hwords⟩
  trans hfirst hsecond := by
    intro hworded hwords
    obtain ⟨hbetween, hinner⟩ := hfirst hworded hwords
    exact hsecond hbetween hinner
  field {names after children bucket name node} hnode := by
    intro hworded hwords
    obtain ⟨others, replaced, hbefore, hafter, hreplaced⟩ :=
      exists_perm_putField children bucket name
    have hold : ∀ word ∈ (others ++ replaced).flatMap Node.words, Unmarked word :=
      fun word hword => hwords word ((hbefore.flatMap_right Node.words).mem_iff.mpr hword)
    have hexisting : ∀ table, existingTable (children.bucket bucket) name = some table →
        ∀ word ∈ (Node.table table).words, Unmarked word := by
      intro table htable word hword
      rw [htable, Option.toList_some, List.flatMap_singleton] at hreplaced
      rw [Node.words, Node.leafAliases, List.nil_append, Node.subtree, ← hreplaced] at hword
      obtain ⟨inner, hinner, hword⟩ := List.mem_flatMap.mp hword
      obtain ⟨child, hchild, hinner⟩ := List.mem_flatMap.mp hinner
      exact hold word (List.mem_flatMap.mpr ⟨child, List.mem_append_right _ hchild,
        Node.mem_words_of_mem_subtree hinner hword⟩)
    obtain ⟨hdone, hnew⟩ := hnode.words hworded hexisting
    refine ⟨hdone, fun word hword => ?_⟩
    have hsplit := ((hafter node).flatMap_right Node.words).mem_iff.mp hword
    rw [List.flatMap_append, List.flatMap_singleton, List.mem_append] at hsplit
    rcases hsplit with hother | hown
    · exact hold word (by simp only [List.flatMap_append, List.mem_append]; exact Or.inl hother)
    · exact hnew word hown

end Plan

end JoinPlan
