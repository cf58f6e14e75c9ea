import JoinPlan.Proofs.ColumnAliases
import JoinPlan.Proofs.Plan.NewTables

/-!
# Columns under the aliases of their properties

The columns among a table's shared children become properties of its rows, and each is fetched
under the alias that its property's name was given.  As a name keeps its alias, columns of one
property share theirs.
-/

namespace JoinPlan

namespace Namespace

variable {names after : Namespace} {entry : String × String}

/-- Whether an alias is the one a column has. -/
def Gives (names : Namespace) (entry : String × String) : Prop :=
  names.Knows entry.1 ∧ (names.column entry.1).1 = entry.2

theorem gives_column (names : Namespace) (name : String) :
    (names.column name).2.Gives (name, (names.column name).1) :=
  ⟨names.knows_column name, congrArg Prod.fst (names.column_column name)⟩

theorem Gives.grows (h : names.Gives entry) (hgrows : names.Grows after) : after.Gives entry := by
  obtain ⟨hknown, heq⟩ := h
  obtain ⟨hafter, hsame⟩ := hgrows.known entry.1 hknown
  exact ⟨hafter, hsame.trans heq⟩

theorem Gives.alias_eq {other : String × String} (h : names.Gives entry)
    (hother : names.Gives other) (hname : entry.1 = other.1) : entry.2 = other.2 := by
  rw [← h.2, ← hother.2, hname]

theorem Asks.grows {asked : List (String × String)} (h : names.Asks asked after) :
    names.Grows after := by
  induction h with
  | nothing names => exact .refl names
  | column name hrest ih => exact (grows_column _ name).trans ih

theorem Asks.gives {asked : List (String × String)} (h : names.Asks asked after) :
    ∀ entry ∈ asked, after.Gives entry := by
  induction h with
  | nothing names => simp
  | column name hrest ih =>
      rw [List.forall_mem_cons]
      exact ⟨(gives_column _ name).grows hrest.grows, ih⟩

end Namespace

namespace Plan

/-- The properties that a shared child has columns for, with the aliases of the columns. -/
def Node.columnEntries : Node → List (String × String)
  | .column node => [(node.fieldName, node.aliasName)]
  | .dependencies columns _ => columns
  | .composite _ fieldName aliasName _ => [(fieldName, aliasName)]
  | .expression _ fieldName aliasName _ _ => [(fieldName, aliasName)]
  | .table child =>
      match child.info.batchKeys? with
      | some (_, parentKey) => [(parentKey.fieldName, parentKey.aliasName)]
      | none => []
  | .nothing => []

def Named (names : Namespace) (nodes : List Node) : Prop :=
  ∀ node ∈ nodes, ∀ entry ∈ node.columnEntries, names.Gives entry

theorem Named.grows {names after : Namespace} {nodes : List Node} (h : Named names nodes)
    (hgrows : names.Grows after) : Named after nodes :=
  fun node hnode entry hentry => (h node hnode entry hentry).grows hgrows

theorem Named.append {names : Namespace} {first second : List Node} (hfirst : Named names first)
    (hsecond : Named names second) : Named names (first ++ second) :=
  List.forall_mem_append.mpr ⟨hfirst, hsecond⟩

/-- Nodes added while more aliases are handed out. -/
structure AddsNamed (names : Namespace) (nodes : List Node) (after : Namespace) : Prop where
  grows : names.Grows after
  named : Named after nodes

namespace AddsNamed

theorem nothing (names : Namespace) : AddsNamed names [] names :=
  ⟨.refl names, by simp [Named]⟩

theorem column (names : Namespace) {node : Node} {name : String}
    (h : node.columnEntries = [(name, (names.column name).1)]) :
    AddsNamed names [node] (names.column name).2 := by
  refine ⟨names.grows_column name, ?_⟩
  simpa [Named, h] using names.gives_column name

theorem append {names between after : Namespace} {first second : List Node}
    (hfirst : AddsNamed names first between) (hsecond : AddsNamed between second after) :
    AddsNamed names (first ++ second) after :=
  ⟨hfirst.grows.trans hsecond.grows, (hfirst.named.grows hsecond.grows).append hsecond.named⟩

end AddsNamed

section Setup

variable {env : Environment} {field : TableField} {names after : Namespace} {nodes : List Node}

theorem ownColumn_addsNamed {name : String} {owner : Option String} {column : Column}
    (h : ownColumn name owner names = .ok (column, after)) :
    AddsNamed names [.column column] after := by
  obtain ⟨rfl, rfl⟩ := ownColumn_eq_ok h
  exact .column names rfl

theorem ownColumns_addsNamed {columns : List String} {owner : Option String}
    (h : ownColumns columns owner names = .ok (nodes, after)) : AddsNamed names nodes after := by
  replace h := ownColumns_eq_ok h
  induction h with
  | nil names => exact .nothing names
  | @cons names _ name _ _ _ ih => exact (AddsNamed.column names rfl).append ih

theorem keyNode_addsNamed {key : UniqueKey} {owner : Option String} {node : Node}
    (h : keyNode key owner names = .ok (node, after)) : AddsNamed names [node] after := by
  cases keyNode_eq_ok h with
  | one | many => exact .column names rfl

theorem alwaysFetched_addsNamed {aliasName : String}
    (h : alwaysFetched env field aliasName names = .ok (nodes, after)) :
    AddsNamed names nodes after := by
  obtain ⟨columns, hcolumns⟩ := exists_alwaysFetched_eq env field aliasName
  rw [hcolumns] at h
  exact ownColumns_addsNamed h

theorem pagingColumns_addsNamed {paginate : Bool} {sortKey : Option (List SortTerm)}
    {junction : Option Junction}
    (h : pagingColumns paginate sortKey junction names = .ok (nodes, after)) :
    AddsNamed names nodes after := by
  obtain ⟨columns, owner, hcolumns⟩ := exists_pagingColumns_eq paginate sortKey junction
  rw [hcolumns] at h
  exact ownColumns_addsNamed h

/-- The keys on a table's and on its parent's rows, if it is fetched in batches. -/
def TableInfo.keyColumns (info : TableInfo) : List Node :=
  info.batchKeys?.toList.flatMap fun keys => [.column keys.1, .column keys.2]

theorem JunctionSteps.addsNamed {declared : JunctionOptions} {junction : Junction}
    (h : JunctionSteps env field declared names junction nodes after)
    (info : TableInfo) (hinfo : info.relation = some (.junction junction)) :
    AddsNamed names (nodes ++ info.keyColumns) after := by
  have hopened : AddsNamed names [] (names.table junction.reference).2 :=
    ⟨names.grows_table _, by simp [Named]⟩
  have hsteps := h.fetch
  generalize hfetch : junction.fetch = fetch at hsteps
  cases hsteps with
  | joins hjoins =>
      simpa [TableInfo.keyColumns, TableInfo.batchKeys?, hinfo, hfetch] using hopened
  | batch hjoins hbatch hkey hidentity hthis hparent =>
      have hkeys := (keyNode_addsNamed hidentity).append
        ((ownColumn_addsNamed hthis).append (ownColumn_addsNamed hparent))
      simpa [TableInfo.keyColumns, TableInfo.batchKeys?, hinfo, hfetch] using hopened.append hkeys

theorem RelationSteps.addsNamed {reached : Option Relation}
    (h : RelationSteps env field names reached nodes after)
    (info : TableInfo) (hinfo : info.relation = reached) :
    AddsNamed names (nodes ++ info.keyColumns) after := by
  cases h with
  | root | join =>
      simpa [TableInfo.keyColumns, TableInfo.batchKeys?, hinfo] using AddsNamed.nothing names
  | junction hjoin hdeclared hsteps => exact hsteps.addsNamed info hinfo
  | batch hjoin hjunction hbatch hthis hparent =>
      have hkeys := (ownColumn_addsNamed hthis).append (ownColumn_addsNamed hparent)
      simpa [TableInfo.keyColumns, TableInfo.batchKeys?, hinfo] using hkeys

/-- What a table is set up with, the keys of its batches included, is named. -/
theorem newTable_addsNamed {table : Table Node}
    (h : newTable env field names = .ok (table, after)) :
    AddsNamed names (table.shared ++ table.info.keyColumns) after := by
  obtain @⟨orderBy, sortKey, reached, _, _, _, _, _, _, _, _, -, hsteps, -, -, -, hkey, halways,
    hpaging⟩ := newTable_eq_ok h
  have hown := ((keyNode_addsNamed hkey).append (alwaysFetched_addsNamed halways)).append
    (pagingColumns_addsNamed hpaging)
  have hrelation := hsteps.addsNamed
    (field.noted env (names.table field.name).1 orderBy sortKey reached) rfl
  obtain ⟨hgrows, hnamed⟩ := hrelation.append hown
  refine ⟨(names.grows_table _).trans hgrows, fun node hnode => hnamed node ?_⟩
  simp only [List.mem_append] at hnode ⊢
  tauto

end Setup

end Plan

end JoinPlan
