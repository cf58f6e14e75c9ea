import JoinPlan.Data.Run
import JoinPlan.Proofs.Data.PlainBatches
import JoinPlan.Proofs.Plan.PlainColumns

/-!
# Data without its keys

The objects of a table that others are fetched for show the keys those are matched by.
Without them a record is what its other columns say, and the data of a request is what was
fetched for it.
-/

namespace JoinPlan

open Plan Sql

/-- Objects without the property of one key, and those of a list field without another. -/
def withoutKeys (parentKey field thisKey : String) : Json → Json :=
  onObjects fun object =>
    onProperty field (onObjects (Assoc.erase thisKey)) (Assoc.erase parentKey object)

/-- The entries of a row under their properties, without a key. -/
def keyless (key : String) (entries : List (String × String)) (row : Object) : Object :=
  Assoc.erase key (Assoc.sorted (entries.map fun entry => (entry.1, Shape.cell row entry.2)))

namespace Plan

section Records

variable {names : Namespace} {key : String} {row : Object}

theorem erase_record (key : String) (names : Namespace) (entries : List (String × String))
    (row : Object) :
    Assoc.erase key (record (columnsUnder names entries) row) = keyless key entries row := by
  rw [keyless, record, columnsUnder, List.map_map]
  rfl

/-- Without a key it does not matter whether its column is fetched once more. -/
theorem keyless_key (key : String) (before after : List (String × String)) (row : Object) :
    keyless key (before ++ (key, key) :: after) row = keyless key (before ++ after) row := by
  apply (Assoc.increasing_erase key (Assoc.increasing_sorted _)).ext
    (Assoc.increasing_erase key (Assoc.increasing_sorted _))
  intro name
  rw [Assoc.get?_erase, Assoc.get?_erase]
  split
  · rfl
  · rename_i hname
    rw [Assoc.get?_sorted, Assoc.get?_sorted, List.map_append, List.map_cons, List.map_append,
      Assoc.last?_append, Assoc.last?_append, Assoc.last?_cons, if_neg hname, Option.or_none]

/-- The objects of a list field without a key, in a record without another. -/
theorem onProperty_erase_recordWith {columns matching : List Column}
    (parentKey field thisKey : String) (found : List Object) (row : Object) :
    onProperty field (onObjects (Assoc.erase thisKey))
        (Assoc.erase parentKey (recordWith columns field matching found row)) =
      if parentKey = field then Assoc.erase parentKey (record columns row)
      else Assoc.insert field
        (Shape.ofObjects true (found.map fun other => Assoc.erase thisKey (record matching other)))
        (Assoc.erase parentKey (record columns row)) := by
  split
  · rename_i hfield
    have hnone : Assoc.get? parentKey (Assoc.erase parentKey (record columns row)) = none := by
      rw [Assoc.get?_erase, if_pos rfl]
    rw [recordWith, ← hfield, Assoc.erase_insert, onProperty, hnone]
  · rename_i hfield
    have hvalue : Assoc.get? field
        (Assoc.erase parentKey (recordWith columns field matching found row)) =
          some (Shape.ofObjects true (found.map (record matching))) := by
      rw [Assoc.get?_erase, if_neg hfield, get?_recordWith_self]
    have herased := Assoc.increasing_erase parentKey
      (increasing_recordWith columns field matching found row)
    have hrecord : Assoc.Increasing (record columns row) := Assoc.increasing_sorted _
    rw [onProperty, hvalue]
    change Assoc.insert field (onObjects (Assoc.erase thisKey) _) _ = _
    rw [onObjects_ofObjects, List.map_map]
    apply (Assoc.increasing_insert _ _ herased).ext
      (Assoc.increasing_insert _ _ (Assoc.increasing_erase parentKey hrecord))
    intro name
    rw [Assoc.get?_insert, Assoc.get?_insert, Assoc.get?_erase, Assoc.get?_erase, recordWith,
      Assoc.get?_insert]
    split
    · rfl
    · rfl

end Records

/-! ### Running -/

section Running

variable {executor : Executor} {options : RunOptions} {env : Environment} {request : Request}
  {root : Table Node} {data : Json} {statements : List String} {many : Bool}
  {objects : List Object} {info : TableInfo} {before after : List Column} {child : Table Node}

theorem outcome_run (hcompiled : compile env options.minify request = .ok root)
    (hfetch : (root.fetch executor options.dialect env.context).outcome [] =
      (.ok (some data), statements)) :
    (run executor options env request).outcome [] = (.ok (root.keepMatched data), statements) := by
  simp [run, Session.outcome_bind, hcompiled, Except.mapError, hfetch]

theorem keepMatched_ofObjects
    (h : ∀ object ∈ objects, hasAll root.batchedFields (.object object) = true) :
    root.keepMatched (Shape.ofObjects many objects) = Shape.ofObjects many objects := by
  cases many with
  | true =>
      change Json.array ((objects.map .object).filter _) = Json.array (objects.map .object)
      congr 1
      apply List.filter_eq_self.mpr
      intro object hobject
      obtain ⟨members, hmembers, rfl⟩ := List.mem_map.mp hobject
      exact h members hmembers
  | false => cases objects <;> rfl

/-- A record with a list has a value for the list's field. -/
theorem hasAll_recordWith (columns : List Column) (field : String) (others : List Column)
    (found : List Object) (row : Object) :
    hasAll [field] (.object (recordWith columns field others found row)) = true := by
  simp only [hasAll, Json.get?, get?_recordWith_self, List.all_cons, List.all_nil, Bool.and_true]
  rfl

theorem batchedFields_parentTable (info : TableInfo) (before after : List Column)
    (child : Table Node) : (parentTable info before after child).batchedFields =
      match child.info.relation with
      | some (.batch _ _) => [child.info.fieldName]
      | _ => [] := by
  rw [Table.batchedFields, parentTable, List.filterMap_append, filterMap_columnNodes,
    List.filterMap_cons, filterMap_columnNodes]
  cases hrelation : child.info.relation with
  | none => simp [Node.table?, hrelation]
  | some relation => cases relation <;> simp [Node.table?, hrelation]

end Running

end Plan

end JoinPlan
