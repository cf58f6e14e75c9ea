import JoinPlan.Plan.Prune
import JoinPlan.Proofs.Assoc
import JoinPlan.Proofs.Plan.Selected

/-!
# Renaming the aliases of a plan

A renaming gives the aliases of tables and junctions, and those of columns, new names and
leaves everything else as it is.  The compiler treats aliases opaquely: what it looks up,
puts in place and collects, it does so for a renamed plan as for the plan.  Only merging
dependencies compares aliases, so there a renaming must not make two of them one.
-/

namespace JoinPlan

namespace Assoc

section Renamed

variable {K L V W : Type} [DecidableEq K] [DecidableEq L]

theorem put_mapValues (f : V → W) (key : K) (value : V) (entries : List (K × V)) :
    put key (f value) (mapValues f entries) = mapValues f (put key value entries) := by
  induction entries with
  | nil => rfl
  | cons entry rest ih =>
      change (if entry.1 = key then (key, f value) :: mapValues f rest
        else (entry.1, f entry.2) :: put key (f value) (mapValues f rest)) = _
      rw [ih, put]
      split <;> rfl

theorem distinct_mapValues (f : V → W) (entries : List (K × V)) :
    distinct (mapValues f entries) = mapValues f (distinct entries) := by
  have hfold : ∀ sofar : List (K × V),
      (mapValues f entries).foldl (fun sofar entry => put entry.1 entry.2 sofar)
          (mapValues f sofar) =
        mapValues f (entries.foldl (fun sofar entry => put entry.1 entry.2 sofar) sofar) := by
    induction entries with
    | nil => exact fun _ => rfl
    | cons entry rest ih =>
        intro sofar
        change (mapValues f rest).foldl _ (put entry.1 (f entry.2) (mapValues f sofar)) = _
        rw [put_mapValues, ih, List.foldl_cons]
  exact hfold []

/-- Entries with their keys renamed. -/
def mapKeys (f : K → L) (entries : List (K × V)) : List (L × V) :=
  entries.map fun entry => (f entry.1, entry.2)

theorem alter_mapKeys {f : K → L} (hf : Function.Injective f) (key : K)
    (change : Option V → V) (entries : List (K × V)) :
    alter (f key) change (mapKeys f entries) = mapKeys f (alter key change entries) := by
  have hget : ∀ entries : List (K × V), get? (f key) (mapKeys f entries) = get? key entries := by
    intro entries
    induction entries with
    | nil => rfl
    | cons entry rest ih =>
        change (if f entry.1 = f key then some entry.2 else get? (f key) (mapKeys f rest)) = _
        rw [ih, get?]
        simp only [hf.eq_iff]
  have hput : ∀ value, ∀ entries : List (K × V),
      put (f key) value (mapKeys f entries) = mapKeys f (put key value entries) := by
    intro value entries
    induction entries with
    | nil => rfl
    | cons entry rest ih =>
        change (if f entry.1 = f key then (f key, value) :: mapKeys f rest
          else (f entry.1, entry.2) :: put (f key) value (mapKeys f rest)) = _
        rw [ih, put]
        simp only [hf.eq_iff]
        split <;> rfl
  rw [alter, alter, hget, hput]

end Renamed

end Assoc

namespace Plan

/-- New names for the aliases of tables and of columns. -/
structure Renaming where
  table : String → String
  column : String → String

/-! ### Renamed plans -/

def Column.rename (r : Renaming) (column : Column) : Column :=
  { column with
    aliasName := r.column column.aliasName
    owner := column.owner.map r.table }

def JunctionFetch.rename (r : Renaming) : JunctionFetch → JunctionFetch
  | .joins toJunction toTarget => .joins toJunction toTarget
  | .batch toTarget thisKey parentKey => .batch toTarget (thisKey.rename r) (parentKey.rename r)

def Junction.rename (r : Renaming) (junction : Junction) : Junction :=
  { junction with
    aliasName := r.table junction.aliasName
    fetch := junction.fetch.rename r }

def Relation.rename (r : Renaming) : Relation → Relation
  | .join condition => .join condition
  | .junction reached => .junction (reached.rename r)
  | .batch thisKey parentKey => .batch (thisKey.rename r) (parentKey.rename r)

def TableInfo.rename (r : Renaming) (info : TableInfo) : TableInfo :=
  { info with
    aliasName := r.table info.aliasName
    relation := info.relation.map (Relation.rename r) }

mutual

/-- A table with all aliases in it renamed. -/
def Table.rename (r : Renaming) : Table Node → Table Node
  | ⟨info, shared, typed⟩ => ⟨info.rename r, renameNodes r shared, renameBuckets r typed⟩

def Node.rename (r : Renaming) : Node → Node
  | .table table => .table (table.rename r)
  | .column column => .column (column.rename r)
  | .dependencies columns owner =>
      .dependencies (Assoc.mapValues r.column columns) (owner.map r.table)
  | .composite names fieldName aliasName owner =>
      .composite names fieldName (r.column aliasName) (owner.map r.table)
  | .expression sql fieldName aliasName args owner =>
      .expression sql fieldName (r.column aliasName) args (owner.map r.table)
  | .nothing => .nothing

def renameNodes (r : Renaming) : List Node → List Node
  | [] => []
  | node :: rest => node.rename r :: renameNodes r rest

def renameBuckets (r : Renaming) : List (String × List Node) → List (String × List Node)
  | [] => []
  | bucket :: rest => renameBucket r bucket :: renameBuckets r rest

def renameBucket (r : Renaming) : String × List Node → String × List Node
  | (type, nodes) => (type, renameNodes r nodes)

end

theorem renameNodes_eq_map (r : Renaming) (nodes : List Node) :
    renameNodes r nodes = nodes.map (Node.rename r) := by
  induction nodes with
  | nil => rfl
  | cons node rest ih => rw [renameNodes, ih, List.map_cons]

theorem renameBuckets_eq_mapValues (r : Renaming) (buckets : List (String × List Node)) :
    renameBuckets r buckets = Assoc.mapValues (List.map (Node.rename r)) buckets := by
  induction buckets with
  | nil => rfl
  | cons bucket rest ih =>
      rw [renameBuckets, renameBucket, ih, renameNodes_eq_map]
      rfl

theorem Table.rename_eq (r : Renaming) (table : Table Node) :
    table.rename r = ⟨table.info.rename r, table.shared.map (Node.rename r),
      Assoc.mapValues (List.map (Node.rename r)) table.typed⟩ := by
  obtain ⟨info, shared, typed⟩ := table
  rw [rename, renameNodes_eq_map, renameBuckets_eq_mapValues]

@[simp]
theorem Table.info_rename (r : Renaming) (table : Table Node) :
    (table.rename r).info = table.info.rename r := by
  rw [rename_eq]

@[simp]
theorem Table.shared_rename (r : Renaming) (table : Table Node) :
    (table.rename r).shared = table.shared.map (Node.rename r) := by
  rw [rename_eq]

@[simp]
theorem Table.typed_rename (r : Renaming) (table : Table Node) :
    (table.rename r).typed = Assoc.mapValues (List.map (Node.rename r)) table.typed := by
  rw [rename_eq]

def Children.rename (r : Renaming) (children : Children) : Children where
  shared := children.shared.map (Node.rename r)
  typed := Assoc.mapValues (List.map (Node.rename r)) children.typed

def Scope.rename (r : Renaming) (scope : Scope) : Scope :=
  { scope with junction := scope.junction.map (Junction.rename r) }

def ScopedField.rename (r : Renaming) (field : ScopedField) : ScopedField :=
  { field with owner := field.owner.map r.table }

/-! ### What a renaming keeps -/

section Kept

variable (r : Renaming)

theorem TableInfo.junction?_rename (info : TableInfo) :
    (info.rename r).junction? = info.junction?.map (Junction.rename r) := by
  cases hrelation : info.relation with
  | none => simp [junction?, rename, hrelation]
  | some relation => cases relation <;> simp [junction?, rename, hrelation, Relation.rename]

theorem TableInfo.batchKeys?_rename (info : TableInfo) :
    (info.rename r).batchKeys? =
      info.batchKeys?.map fun keys => (keys.1.rename r, keys.2.rename r) := by
  cases hrelation : info.relation with
  | none => simp [batchKeys?, rename, hrelation]
  | some relation =>
      cases relation with
      | join condition => simp [batchKeys?, rename, hrelation, Relation.rename]
      | batch thisKey parentKey => simp [batchKeys?, rename, hrelation, Relation.rename]
      | junction junction =>
          cases hfetch : junction.fetch <;>
            simp [batchKeys?, rename, hrelation, Relation.rename, Junction.rename,
              JunctionFetch.rename, hfetch]

theorem relationJunction?_rename (relation : Option Relation) :
    relationJunction? (relation.map (Relation.rename r)) =
      (relationJunction? relation).map (Junction.rename r) := by
  cases relation with
  | none => rfl
  | some relation => cases relation <;> rfl

theorem lastColumns_rename (info : TableInfo) :
    lastColumns (info.rename r) none = (lastColumns info none).map (Node.rename r) := by
  rw [lastColumns, lastColumns, TableInfo.batchKeys?_rename]
  cases info.batchKeys? <;> simp [Node.rename]

theorem Node.table?_rename (node : Node) :
    (node.rename r).table? = node.table?.map (Table.rename r) := by
  cases node <;> rfl

theorem isTableOf_rename (name : String) (node : Node) :
    isTableOf name (node.rename r) = isTableOf name node := by
  rw [isTableOf, isTableOf, Node.table?_rename]
  cases node.table? with
  | none => rfl
  | some table => rw [Option.map_some, Table.rename_eq]; rfl

theorem findIdx?_rename (name : String) (nodes : List Node) :
    (nodes.map (Node.rename r)).findIdx? (isTableOf name) =
      nodes.findIdx? (isTableOf name) := by
  rw [List.findIdx?_map]
  congr 1
  exact funext fun node => isTableOf_rename r name node

theorem existingTable_rename (nodes : List Node) (name : String) :
    existingTable (nodes.map (Node.rename r)) name =
      (existingTable nodes name).map (Table.rename r) := by
  rw [existingTable, existingTable, existingNode, existingNode, findIdx?_rename]
  cases nodes.findIdx? (isTableOf name) with
  | none => rfl
  | some index =>
      simp only [Option.bind_some, List.getElem?_map]
      cases nodes[index]? with
      | none => rfl
      | some node => exact node.table?_rename r

theorem bucket_rename (children : Children) (bucket : Option String) :
    (children.rename r).bucket bucket = (children.bucket bucket).map (Node.rename r) := by
  cases bucket with
  | none => rfl
  | some type =>
      rw [Children.bucket, Children.bucket, Children.rename, Assoc.get?_mapValues]
      cases Assoc.get? type children.typed <;> rfl

theorem setBucket_rename (children : Children) (bucket : Option String) (nodes : List Node) :
    (children.rename r).setBucket bucket (nodes.map (Node.rename r)) =
      (children.setBucket bucket nodes).rename r := by
  cases bucket with
  | none => rfl
  | some type => simp only [Children.setBucket, Children.rename, Assoc.put_mapValues]

theorem putNode_rename (nodes : List Node) (place : Option Nat) (node : Node) :
    putNode (nodes.map (Node.rename r)) place (node.rename r) =
      (putNode nodes place node).map (Node.rename r) := by
  cases place <;> simp [putNode, List.map_set]

theorem putField_rename (children : Children) (bucket : Option String) (name : String)
    (node : Node) :
    putField (children.rename r) bucket name (node.rename r) =
      (putField children bucket name node).rename r := by
  rw [putField, bucket_rename, findIdx?_rename, putNode_rename, setBucket_rename, putField]

theorem Scope.field?_rename (scope : Scope) (name : String) :
    (scope.rename r).field? name = (scope.field? name).map (ScopedField.rename r) := by
  rw [Scope.field?, Scope.field?, Option.map_map]
  congr 1
  funext definition
  cases hjunction : scope.junction with
  | none => simp [Scope.rename, hjunction, ScopedField.rename]
  | some junction =>
      cases hincluded : Assoc.get? name junction.includes <;>
        simp [Scope.rename, hjunction, Junction.rename, hincluded, ScopedField.rename]

end Kept

/-! ### Merging dependencies -/

/-- A renaming that makes no two tables one keeps the columns needed of each apart. -/
theorem neededColumns_rename {r : Renaming} (hr : Function.Injective r.table)
    (nodes : List Node) :
    neededColumns (nodes.map (Node.rename r)) =
      Assoc.mapKeys (Option.map r.table) (neededColumns nodes) := by
  rw [neededColumns, neededColumns, ← List.map_reverse, List.foldl_map]
  change List.foldl _ (Assoc.mapKeys (Option.map r.table) []) _ = _
  refine List.foldl_hom (Assoc.mapKeys (Option.map r.table)) fun needed node => ?_
  cases node with
  | dependencies columns owner =>
      have hkeys : Assoc.keys (Assoc.mapValues r.column columns) = Assoc.keys columns := by
        simp [Assoc.keys, Assoc.mapValues]
      simp only [Node.rename, hkeys]
      exact Assoc.alter_mapKeys (Option.map_injective hr) owner _ needed
  | table | column | composite | expression | nothing => rfl

end Plan

end JoinPlan
