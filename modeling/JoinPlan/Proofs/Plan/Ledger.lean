import JoinPlan.Proofs.ColumnAliases
import JoinPlan.Proofs.Plan.Renaming

/-!
# Plain and minified aliases side by side

A plain and a minified namespace that were asked for the same aliases in the same order
have handed out pairs of aliases.  A ledger holds these pairs.  No alias is in two of them,
so a ledger is a renaming, of the aliases in it and of the rest as well.
-/

namespace JoinPlan

namespace Assoc

/-- The value of a key, or for another key a text that no word is. -/
def renamed (entries : List (String × String)) (key : String) : String :=
  (get? key entries).getD ("_" ++ key)

theorem renamed_of_mem {entries : List (String × String)} (hkeys : (keys entries).Nodup)
    {entry : String × String} (h : entry ∈ entries) : renamed entries entry.1 = entry.2 := by
  rw [renamed, get?_eq_some_of_mem hkeys h, Option.getD_some]

end Assoc

namespace Plan

/-- Pairs of a plain alias and the minified one handed out for it, those of tables and
those of columns.  No alias is in two pairs of a kind, and the minified ones are words. -/
structure Ledger where
  tables : List (String × String)
  columns : List (String × String)
  tableKeys : (Assoc.keys tables).Nodup
  columnKeys : (Assoc.keys columns).Nodup
  tableWords : (tables.map Prod.snd).Nodup
  columnWords : (columns.map Prod.snd).Nodup
  spelled : ∀ entry ∈ tables ++ columns, ∃ n, Namespace.spell n = entry.2

namespace Ledger

/-- A renaming that takes the plain aliases of a ledger to the minified ones. -/
structure Fits (ledger : Ledger) (r : Renaming) : Prop where
  table : ∀ entry ∈ ledger.tables, r.table entry.1 = entry.2
  column : ∀ entry ∈ ledger.columns, r.column entry.1 = entry.2

/-- More pairs of aliases. -/
structure Grows (ledger after : Ledger) : Prop where
  tables : ledger.tables ⊆ after.tables
  columns : ledger.columns ⊆ after.columns

theorem Grows.refl (ledger : Ledger) : ledger.Grows ledger :=
  ⟨List.Subset.refl _, List.Subset.refl _⟩

theorem Grows.trans {ledger between after : Ledger} (hfirst : ledger.Grows between)
    (hsecond : between.Grows after) : ledger.Grows after :=
  ⟨List.Subset.trans hfirst.tables hsecond.tables,
    List.Subset.trans hfirst.columns hsecond.columns⟩

theorem Fits.of_grows {ledger after : Ledger} {r : Renaming} (h : after.Fits r)
    (hgrows : ledger.Grows after) : ledger.Fits r :=
  ⟨fun entry hentry => h.table entry (hgrows.tables hentry),
    fun entry hentry => h.column entry (hgrows.columns hentry)⟩

def empty : Ledger where
  tables := []
  columns := []
  tableKeys := List.nodup_nil
  columnKeys := List.nodup_nil
  tableWords := List.nodup_nil
  columnWords := List.nodup_nil
  spelled := by simp

/-- A ledger with the aliases of one more table. -/
def withTable (ledger : Ledger) (aliasName word : String)
    (hnew : aliasName ∉ Assoc.keys ledger.tables) (hword : word ∉ ledger.tables.map Prod.snd)
    (hspelled : ∃ n, Namespace.spell n = word) : Ledger where
  tables := (aliasName, word) :: ledger.tables
  columns := ledger.columns
  tableKeys := List.nodup_cons.mpr ⟨hnew, ledger.tableKeys⟩
  columnKeys := ledger.columnKeys
  tableWords := List.nodup_cons.mpr ⟨hword, ledger.tableWords⟩
  columnWords := ledger.columnWords
  spelled := by
    rw [List.cons_append, List.forall_mem_cons]
    exact ⟨hspelled, ledger.spelled⟩

/-- A ledger with the aliases of one more column. -/
def withColumn (ledger : Ledger) (name word : String)
    (hnew : name ∉ Assoc.keys ledger.columns) (hword : word ∉ ledger.columns.map Prod.snd)
    (hspelled : ∃ n, Namespace.spell n = word) : Ledger where
  tables := ledger.tables
  columns := (name, word) :: ledger.columns
  tableKeys := ledger.tableKeys
  columnKeys := List.nodup_cons.mpr ⟨hnew, ledger.columnKeys⟩
  tableWords := ledger.tableWords
  columnWords := List.nodup_cons.mpr ⟨hword, ledger.columnWords⟩
  spelled := by
    have hkept := ledger.spelled
    rw [List.forall_mem_append] at hkept ⊢
    rw [List.forall_mem_cons]
    exact ⟨hkept.1, hspelled, hkept.2⟩

theorem grows_withTable {ledger : Ledger} {aliasName word : String}
    (hnew : aliasName ∉ Assoc.keys ledger.tables) (hword : word ∉ ledger.tables.map Prod.snd)
    (hspelled : ∃ n, Namespace.spell n = word) :
    ledger.Grows (ledger.withTable aliasName word hnew hword hspelled) :=
  ⟨List.subset_cons_self _ _, List.Subset.refl _⟩

theorem grows_withColumn {ledger : Ledger} {name word : String}
    (hnew : name ∉ Assoc.keys ledger.columns) (hword : word ∉ ledger.columns.map Prod.snd)
    (hspelled : ∃ n, Namespace.spell n = word) :
    ledger.Grows (ledger.withColumn name word hnew hword hspelled) :=
  ⟨List.Subset.refl _, List.subset_cons_self _ _⟩

/-! ### The renaming of a ledger -/

theorem renamed_injective {entries : List (String × String)}
    (hwords : (entries.map Prod.snd).Nodup)
    (hspelled : ∀ entry ∈ entries, ∃ n, Namespace.spell n = entry.2) :
    Function.Injective (Assoc.renamed entries) := by
  have hfound : ∀ {key word}, Assoc.get? key entries = some word → '_' ∉ word.toList := by
    intro key word h
    obtain ⟨n, rfl⟩ := hspelled _ (Assoc.mem_of_get?_eq_some h)
    exact Namespace.underscore_notMem_spell n
  have hmarked : ∀ key, '_' ∈ ("_" ++ key).toList := by simp
  intro first second h
  unfold Assoc.renamed at h
  cases hfirst : Assoc.get? first entries with
  | none =>
      cases hsecond : Assoc.get? second entries with
      | none =>
          rw [hfirst, hsecond, Option.getD_none, Option.getD_none] at h
          simpa using h
      | some word =>
          rw [hfirst, hsecond, Option.getD_none, Option.getD_some] at h
          exact absurd (h ▸ hmarked first) (hfound hsecond)
  | some word =>
      cases hsecond : Assoc.get? second entries with
      | none =>
          rw [hfirst, hsecond, Option.getD_none, Option.getD_some] at h
          exact absurd (h ▸ hmarked second) (hfound hfirst)
      | some other =>
          rw [hfirst, hsecond, Option.getD_some, Option.getD_some] at h
          subst h
          have hsame := List.inj_on_of_nodup_map hwords (Assoc.mem_of_get?_eq_some hfirst)
            (Assoc.mem_of_get?_eq_some hsecond) rfl
          exact congrArg Prod.fst hsame

/-- The renaming that a ledger is. -/
def toRenaming (ledger : Ledger) : Renaming where
  table := Assoc.renamed ledger.tables
  column := Assoc.renamed ledger.columns

theorem fits_toRenaming (ledger : Ledger) : ledger.Fits ledger.toRenaming :=
  ⟨fun _ => Assoc.renamed_of_mem ledger.tableKeys, fun _ => Assoc.renamed_of_mem ledger.columnKeys⟩

theorem table_injective (ledger : Ledger) : Function.Injective ledger.toRenaming.table :=
  renamed_injective ledger.tableWords fun entry h => ledger.spelled entry (List.mem_append_left _ h)

theorem column_injective (ledger : Ledger) : Function.Injective ledger.toRenaming.column :=
  renamed_injective ledger.columnWords fun entry h =>
    ledger.spelled entry (List.mem_append_right _ h)

/-! ### Renamed values -/

/-- A value that is some renamed value whichever renaming fits the ledger: what it is a
renaming of has no aliases but those of the ledger. -/
def Agrees {α : Type} (ledger : Ledger) (renamed : Renaming → α) (value : α) : Prop :=
  ∀ r, ledger.Fits r → renamed r = value

section Agrees

variable {α β : Type} {ledger after : Ledger}

theorem Agrees.mono {renamed : Renaming → α} {value : α} (h : ledger.Agrees renamed value)
    (hgrows : ledger.Grows after) : after.Agrees renamed value :=
  fun r hr => h r (hr.of_grows hgrows)

theorem Agrees.const (ledger : Ledger) (value : α) : ledger.Agrees (fun _ => value) value :=
  fun _ _ => rfl

theorem Agrees.map {renamed : Renaming → α} {value : α} (f : α → β)
    (h : ledger.Agrees renamed value) : ledger.Agrees (fun r => f (renamed r)) (f value) :=
  fun r hr => congrArg f (h r hr)

theorem Agrees.eq {renamed : Renaming → α} {value : α} (h : ledger.Agrees renamed value) :
    value = renamed ledger.toRenaming :=
  (h _ ledger.fits_toRenaming).symm

theorem Agrees.some {renamed : Renaming → α → β} {value : α} {other : Option β}
    (h : ledger.Agrees (fun r => (some value).map (renamed r)) other) :
    ∃ found, other = Option.some found ∧ ledger.Agrees (fun r => renamed r value) found := by
  obtain rfl := h.eq
  exact ⟨_, rfl, fun r hr => Option.some.inj (h r hr)⟩

theorem Agrees.none {renamed : Renaming → α → β} {other : Option β}
    (h : ledger.Agrees (fun r => Option.none.map (renamed r)) other) : other = Option.none :=
  h.eq

theorem Agrees.pair {renamed : Renaming → α} {renamedOther : Renaming → β} {value : α} {other : β}
    (h : ledger.Agrees (fun r => (renamed r, renamedOther r)) (value, other)) :
    ledger.Agrees renamed value ∧ ledger.Agrees renamedOther other :=
  ⟨fun r hr => congrArg Prod.fst (h r hr), fun r hr => congrArg Prod.snd (h r hr)⟩

theorem Agrees.cons {renamed : Renaming → α} {renamedRest : Renaming → List α}
    {others : List α} (h : ledger.Agrees (fun r => renamed r :: renamedRest r) others) :
    ∃ first rest, others = first :: rest ∧ ledger.Agrees renamed first ∧
      ledger.Agrees renamedRest rest := by
  obtain rfl := h.eq
  exact ⟨_, _, rfl, fun r hr => (List.cons.inj (h r hr)).1, fun r hr => (List.cons.inj (h r hr)).2⟩

end Agrees

/-! ### Handing out aliases on both sides -/

/-- A plain and a minified namespace that handed out the aliases of a ledger. -/
structure Describes (ledger : Ledger) (plain minified : Namespace) : Prop where
  isPlain : plain.minify = false
  isMinified : minified.minify = true
  used : plain.usedTables = Assoc.keys ledger.tables
  noted : minified.columns = ledger.columns
  issued : ∀ entry ∈ ledger.tables ++ ledger.columns, minified.Issued entry.2

variable {ledger : Ledger} {plain minified : Namespace}

theorem describes_fresh : empty.Describes (.fresh false) (.fresh true) :=
  ⟨rfl, rfl, rfl, rfl, by simp [empty]⟩

/-- Both namespaces hand out the alias of a table, and the ledger notes the pair. -/
theorem Describes.table (h : ledger.Describes plain minified) (name : String) :
    ∃ after : Ledger, ledger.Grows after ∧
      after.Describes (plain.table name).2 (minified.table name).2 ∧
      ((plain.table name).1, (minified.table name).1) ∈ after.tables := by
  have hnew : (plain.table name).1 ∉ Assoc.keys ledger.tables := by
    rw [← h.used]
    simp only [Namespace.table, h.isPlain, Bool.false_eq_true, if_false]
    exact Namespace.unused_notMem _ _
  have hword : (minified.table name).1 ∉ ledger.tables.map Prod.snd := by
    intro hmem
    obtain ⟨entry, hentry, heq⟩ := List.mem_map.mp hmem
    exact minified.not_issued_table name (heq ▸ h.issued entry (List.mem_append_left _ hentry))
  have hspelled : ∃ n, Namespace.spell n = (minified.table name).1 :=
    ⟨minified.issued + 1, by simp only [Namespace.table, h.isMinified, if_true]⟩
  refine ⟨ledger.withTable _ _ hnew hword hspelled, grows_withTable hnew hword hspelled,
    ⟨?_, ?_, ?_, ?_, ?_⟩, List.mem_cons_self⟩
  · rw [Namespace.minify_table, h.isPlain]
  · rw [Namespace.minify_table, h.isMinified]
  · change _ = (plain.table name).1 :: Assoc.keys ledger.tables
    rw [← h.used]
    simp only [Namespace.table, h.isPlain, Bool.false_eq_true, if_false]
  · rw [Namespace.columns_table, h.noted]
    rfl
  · change ∀ entry ∈ _ :: ledger.tables ++ ledger.columns, _
    rw [List.cons_append, List.forall_mem_cons]
    exact ⟨minified.issued_table name, fun entry hentry => (h.issued entry hentry).table name⟩

/-- The minified namespace notes the next word for a column. -/
theorem Describes.note (h : ledger.Describes plain minified) {name : String}
    (hnoted : Assoc.get? name minified.columns = none) :
    ∃ after : Ledger, ledger.Grows after ∧ after.Describes plain (minified.note name) ∧
      (name, Namespace.spell (minified.issued + 1)) ∈ after.columns := by
  have hnew : name ∉ Assoc.keys ledger.columns := by
    intro hmem
    obtain ⟨entry, hentry, rfl⟩ := List.mem_map.mp hmem
    rw [h.noted, Assoc.get?_eq_some_of_mem ledger.columnKeys hentry] at hnoted
    cases hnoted
  have hword : Namespace.spell (minified.issued + 1) ∉ ledger.columns.map Prod.snd := by
    intro hmem
    obtain ⟨entry, hentry, heq⟩ := List.mem_map.mp hmem
    have hissued := h.issued entry (List.mem_append_right _ hentry)
    simp only [Namespace.Issued, h.isMinified, if_true] at hissued
    obtain ⟨n, hle, hn⟩ := hissued
    have hsame : n = minified.issued + 1 := Namespace.spell_injective (hn.trans heq)
    omega
  have hkept : ∀ entry ∈ ledger.tables ++ ledger.columns,
      (minified.note name).Issued entry.2 := by
    intro entry hentry
    have hcolumn := (h.issued entry hentry).column name
    rwa [Namespace.column_of_new h.isMinified hnoted] at hcolumn
  have hlast : (minified.note name).Issued (Namespace.spell (minified.issued + 1)) := by
    simp only [Namespace.Issued, Namespace.note, h.isMinified, if_true]
    exact ⟨_, le_rfl, rfl⟩
  refine ⟨ledger.withColumn _ _ hnew hword ⟨_, rfl⟩, grows_withColumn hnew hword ⟨_, rfl⟩,
    ⟨h.isPlain, h.isMinified, h.used, ?_, ?_⟩, List.mem_cons_self⟩
  · change _ :: minified.columns = _ :: ledger.columns
    rw [h.noted]
  · rw [List.forall_mem_append] at hkept
    change ∀ entry ∈ ledger.tables ++ _ :: ledger.columns, _
    rw [List.forall_mem_append, List.forall_mem_cons]
    exact ⟨hkept.1, hlast, hkept.2⟩

/-- The plain alias of a column is its name; the minified one is noted, or handed out. -/
theorem Describes.column (h : ledger.Describes plain minified) (name : String) :
    ∃ after : Ledger, ledger.Grows after ∧
      after.Describes (plain.column name).2 (minified.column name).2 ∧
      ((plain.column name).1, (minified.column name).1) ∈ after.columns := by
  rw [Namespace.column_of_plain h.isPlain]
  cases hnoted : Assoc.get? name minified.columns with
  | some aliasName =>
      rw [Namespace.column_of_known h.isMinified hnoted]
      exact ⟨ledger, .refl ledger, h, h.noted ▸ Assoc.mem_of_get?_eq_some hnoted⟩
  | none =>
      rw [Namespace.column_of_new h.isMinified hnoted]
      exact h.note hnoted

end Ledger

end Plan

end JoinPlan
