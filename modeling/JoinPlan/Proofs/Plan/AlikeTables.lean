import JoinPlan.Proofs.Plan.FieldKinds
import JoinPlan.Proofs.Plan.KeyPlaces
import JoinPlan.Proofs.Plan.NewTables

/-!
# Tables compiled alike

Two runs are alike if both fail, or both hand out the same aliases and give alike results.
Compiling a table starts with the table to select on, which is set up or was already there;
tables to start with that are alike stay alike once alike children are filled in, and the key
of a new one is put after them.
-/

namespace JoinPlan.Plan

/-- Two runs that fail both, or give related results and the same names. -/
inductive RunsAlike {α β : Type} (alike : α → β → Prop) :
    Except PlanError (α × Namespace) → Except PlanError (β × Namespace) → Prop
  | ok {first : α} {second : β} (names : Namespace) (h : alike first second) :
      RunsAlike alike (.ok (first, names)) (.ok (second, names))
  | error (error other : PlanError) : RunsAlike alike (.error error) (.error other)

section RunsAlike

variable {α β γ δ : Type} {alike : α → β → Prop} {names : Namespace}

theorem RunsAlike.same {alike : α → α → Prop} (h : ∀ value, alike value value)
    (run : Except PlanError (α × Namespace)) : RunsAlike alike run run := by
  cases run with
  | error error => exact .error error error
  | ok result => exact .ok result.2 (h result.1)

theorem RunsAlike.bind {next : γ → δ → Prop} {first : Compile α} {second : Compile β}
    {more : α → Compile γ} {others : β → Compile δ}
    (h : RunsAlike alike (first names) (second names))
    (hnext : ∀ value other after, first names = .ok (value, after) → alike value other →
      RunsAlike next (more value after) (others other after)) :
    RunsAlike next ((first >>= more) names) ((second >>= others) names) := by
  change RunsAlike next (first names >>= fun found => more found.1 found.2)
    (second names >>= fun found => others found.1 found.2)
  generalize hfirst : first names = firstRun at h hnext
  generalize second names = secondRun at h
  cases h with
  | ok after halike => exact hnext _ _ after rfl halike
  | error error other => exact .error error other

theorem StateAlike.runs {first : α × Namespace} {second : β × Namespace}
    (h : StateAlike alike first second) : RunsAlike alike (.ok first) (.ok second) := by
  obtain ⟨other, after⟩ := second
  obtain ⟨rfl, halike⟩ := h
  exact .ok first.2 halike

/-- Alike runs give alike values, if any. -/
theorem RunsAlike.run' {first : Compile α} {second : Compile β}
    (h : RunsAlike alike (first names) (second names)) :
    (∃ error other, first.run' names = .error error ∧ second.run' names = .error other) ∨
      ∃ value other, first.run' names = .ok value ∧ second.run' names = .ok other ∧
        alike value other := by
  change (∃ error other, Prod.fst <$> first names = .error error ∧
      Prod.fst <$> second names = .error other) ∨
    ∃ value other, Prod.fst <$> first names = .ok value ∧
      Prod.fst <$> second names = .ok other ∧ alike value other
  generalize first names = run, second names = other at h
  cases h with
  | ok after halike => exact .inr ⟨_, _, rfl, rfl, halike⟩
  | error error other => exact .inl ⟨error, other, rfl, rfl⟩

/-- A run that fails, and one that does. -/
theorem RunsAlike.of_failures {first : Compile α} {second : Compile β}
    (hfirst : ∀ result, first names ≠ .ok result) (hsecond : ∀ result, second names ≠ .ok result) :
    RunsAlike alike (first names) (second names) := by
  cases h : first names with
  | ok result => exact absurd h (hfirst result)
  | error error =>
      cases hother : second names with
      | ok result => exact absurd hother (hsecond result)
      | error other => exact .error error other

end RunsAlike

/-! ### Tables to select on -/

section Tables

variable {env : Environment} {field : TableField}

/-- A table with its children filled in. -/
def filledTable (field : TableField) (existing : Option (Table Node)) (table : Table Node)
    (children : Children) : Table Node :=
  let info := { table.info with isAbstract := field.kind.isAbstract }
  ⟨info, children.shared ++ lastColumns info existing, children.typed⟩

theorem compileTable_eq (type : TypeDefinition) (existing : Option (Table Node))
    (fill : Scope → Children → Compile Children) :
    compileTable env field type existing fill =
      tableOf env field existing >>= fun table =>
        fill ⟨field.typeName, type, table.info.junction?⟩ ⟨table.shared, table.typed⟩ >>=
          fun children => pure (.table (filledTable field existing table children)) := rfl

/-- The key that stands among a table's children once they are filled in. -/
def keyAfter (info : TableInfo) (existing : Option (Table Node)) (key : Option Column) :
    Option Column :=
  match existing with
  | some _ => key
  | none => info.batchKeys?.map Prod.fst

variable {info : TableInfo} {existing : Option (Table Node)} {key other : Option Column}

theorem IsKeyOf.after (h : IsKeyOf key info) : IsKeyOf (keyAfter info existing key) info := by
  cases existing with
  | some table => exact h
  | none =>
      intro column hcolumn
      obtain ⟨keys, hkeys, rfl⟩ := Option.map_eq_some_iff.mp hcolumn
      exact ⟨keys.2, hkeys⟩

theorem WithKey.lastColumns {nodes longer : List Node} (h : WithKey key nodes longer)
    (hnew : existing = none → key = none) :
    WithKey (keyAfter info existing key) nodes (longer ++ lastColumns info existing) := by
  cases existing with
  | some table =>
      rw [Plan.lastColumns, List.append_nil]
      exact h
  | none =>
      obtain rfl := hnew rfl
      obtain rfl : longer = nodes := h
      rw [Plan.lastColumns, keyAfter]
      cases info.batchKeys? with
      | none => exact List.append_nil longer
      | some keys => exact Inserted.last _ longer

/-- The tables to select on in two runs: both are new or both were there already, and they are
alike. -/
structure BegunAlike (existing another : Option (Table Node)) (key : Option Column)
    (table other : Table Node) : Prop where
  again : another.isSome = existing.isSome
  new : existing = none → key = none
  info : other.info = table.info
  keyed : IsKeyOf key table.info
  children : ChildrenAlike key key ⟨table.shared, table.typed⟩ ⟨other.shared, other.typed⟩

/-- The table to select on is one of the field. -/
theorem tableOf_fieldName {scope : Scope} {nested : Bool} (hfield : field.IsBacked env scope nested)
    {nodes : List Node} {table : Table Node} {names after : Namespace}
    (h : tableOf env field (existingTable nodes field.name) names = .ok (table, after)) :
    table.info.fieldName = field.name := by
  rcases existingTable_alike (nodesAlike_same nodes) field.name with
    ⟨hnone, -⟩ | ⟨found, another, hfound, -, hname, -⟩
  · rw [hnone] at h
    exact (newTable_isSetUp hfield h).fieldName
  · rw [hfound] at h
    obtain ⟨rfl, -⟩ := Compile.pure_eq_ok.mp h
    exact hname

theorem tableOf_alike {left right : Option Column} {children moved : Children}
    (h : ChildrenAlike left right children moved) (bucket : Option String) (name : String)
    (names : Namespace) :
    ∃ key, RunsAlike
      (BegunAlike (existingTable (children.bucket bucket) name)
        (existingTable (moved.bucket bucket) name) key)
      (tableOf env field (existingTable (children.bucket bucket) name) names)
      (tableOf env field (existingTable (moved.bucket bucket) name) names) := by
  rcases h.existing bucket name with ⟨hnone, hother⟩ | ⟨table, other, htable, hother, -, halike⟩
  · rw [hnone, hother]
    exact ⟨none, RunsAlike.same (fun _ => ⟨rfl, fun _ => rfl, rfl, nofun, .same _⟩) _⟩
  · rw [htable, hother]
    obtain ⟨hinfo, key, hkey, hchildren⟩ := halike.of_table
    exact ⟨key, .ok names ⟨rfl, nofun, hinfo, hkey, hchildren⟩⟩

section Begun

variable {another : Option (Table Node)} {table begun : Table Node} {children moved : Children}

theorem lastColumns_congr (h : another.isSome = existing.isSome) :
    lastColumns info another = lastColumns info existing := by
  cases existing <;> cases another <;> first | rfl | cases h

/-- Alike children make alike tables. -/
theorem BegunAlike.filled (h : BegunAlike existing another key table begun)
    (hchildren : ChildrenAlike key key children moved) :
    NodeAlike (.table (filledTable field existing table children))
      (.table (filledTable field another begun moved)) := by
  obtain ⟨nodes, others, hnodes, hshared, hmoved⟩ := hchildren.shared
  rw [filledTable, filledTable, h.info, lastColumns_congr h.again]
  exact .table h.keyed.after hnodes (hshared.lastColumns h.new) (hmoved.lastColumns h.new)
    hchildren.typed

/-- Where the children of a table are filled in at once, more can be filled in than where the
table is complete first. -/
theorem BegunAlike.between (h : BegunAlike existing another key table begun)
    (hchildren : ChildrenAlike key key children moved) :
    ChildrenAlike (keyAfter table.info existing key) key
      ⟨(filledTable field existing table children).shared, children.typed⟩ moved := by
  obtain ⟨nodes, others, hnodes, hshared, hmoved⟩ := hchildren.shared
  exact ⟨⟨nodes, others, hnodes, hshared.lastColumns h.new, hmoved⟩, hchildren.typed⟩

/-- A table filled in twice and one filled in at once. -/
theorem BegunAlike.filledAgain (h : BegunAlike existing another key table begun)
    {between : Children} (hchildren : ChildrenAlike (keyAfter table.info existing key) key
      children moved) :
    NodeAlike
      (.table (filledTable field (some (filledTable field existing table between))
        (filledTable field existing table between) children))
      (.table (filledTable field another begun moved)) := by
  obtain ⟨nodes, others, hnodes, hshared, hmoved⟩ := hchildren.shared
  rw [filledTable, filledTable, filledTable, h.info, lastColumns_congr h.again]
  dsimp only [lastColumns]
  rw [List.append_nil]
  exact .table h.keyed.after hnodes hshared (hmoved.lastColumns h.new) hchildren.typed

end Begun

end Tables

end JoinPlan.Plan
